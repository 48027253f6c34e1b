import SiteBundle.Proofs.Disk.Confined
import SiteBundle.Proofs.Disk.Listing

/-!
# What an output directory holds in the end

When an output directory has been replaced, the files in it are those of the entries, each with its
content (`filled_fillOutput`), if no two entries have one path and the directory was cleared or new.

* `OutputEntry.Holds`   the content that an entry asks for;
* `Disk.Filled`         some entries have been written, with one lemma for the cleared directory and
  one for each further entry;
* `Disk.filesBelow`     the files below a place, by their names from there.
-/

namespace SiteBundle

open Text

/-- the content that an entry asks for, on the disk before the output is replaced -/
def OutputEntry.Holds (d : Disk) (content : List UInt8) : OutputEntry → Prop
  | .folder _ => False
  | .write _ text => content = Utf8.bytes text
  | .copy _ source => d.get? (d.destination source) = some (.file content)

theorem OutputEntry.Holds.unique {d : Disk} {x : OutputEntry} {a b : List UInt8}
    (ha : x.Holds d a) (hb : x.Holds d b) : a = b := by
  cases x with
  | folder path => exact ha.elim
  | write path text => exact Eq.trans ha (Eq.symm hb)
  | copy path source => exact Entry.file.inj (Option.some.inj (Eq.trans (Eq.symm ha) hb))

/-- the directory is cleared when it is there, and otherwise there is nothing at its place -/
def Disk.Fresh (d : Disk) (dist : Text) : Prop :=
  d.leadsTo dist = true ∨ d.get? (d.destination dist) = none

/-- some entries have been written: every file of the directory is one of theirs -/
structure Disk.Filled (d : Disk) (dist : Text) (done : List OutputEntry) (e : Disk) : Prop where
  confined : Disk.Confined (d.route dist) d e
  held : ∀ x ∈ done, x.isFolder = false → ∃ content, x.Holds d content
  file : ∀ q content, q.within (d.destination dist) = true →
    (e.get? q = some (.file content) ↔
      ∃ x ∈ done, x.Holds d content ∧ q = d.destination dist ++ pathPieces x.path)

section
variable {d e e' : Disk} {dist : Text} {done : List OutputEntry} {a : Unit}

theorem opens_of_wrote {activity : String} {path : Text}
    (h : Wrote (Writing.createFolders activity path) d a e) (hcwd : d.cwd.Plain) :
    Disk.Opens (d.steps path) d e := by
  have hopens : Disk.Opens (d.steps path) d (Writing.createFolders activity path d).2 :=
    leaves_createFolders (.createFolders (d.tidy_steps hcwd path))
  rw [show Writing.createFolders activity path d = _ from h] at hopens
  exact hopens

/-! ## the cleared directory -/

/-- new folders are no files -/
theorem Disk.Opens.get?_file {steps : List Text} (h : Disk.Opens steps d e) {q : Place}
    {content : List UInt8} : e.get? q = some (.file content) ↔ d.get? q = some (.file content) := by
  rcases h.get q with hsame | ⟨hnone, hfolder, -⟩
  · rw [hsame]
  · rw [hnone, hfolder]
    exact ⟨nofun, nofun⟩

/-- an emptied folder has no files -/
theorem Disk.emptyFolder_clears {p q : Place} (content : List UInt8)
    (hfolder : d.isFolder p = true) (hq : q.within p = true) :
    ({ d with entries := d.entries.filter fun x =>
      !(x.1.within p && x.1 != p) } : Disk).get? q ≠ some (.file content) := by
  rw [get?_filter fun q => !(q.within p && q != p), hq, Bool.true_and]
  split
  · rename_i hkept
    have hqp : q = p ∨ q = [] := by
      rcases hkept with hnil | hkept
      · exact .inr hnil
      · rw [Bool.not_eq_true', bne_eq_false_iff_eq] at hkept
        exact .inl hkept
    rcases hqp with rfl | rfl
    · rw [isFolder_iff.mp hfolder]
      exact nofun
    · exact nofun
  · exact nofun

/-- there are no files in the directory to begin with -/
theorem filled_freshFolder (hdisk : d.Sound) (hcwd : d.cwd.Plain) (hfresh : d.Fresh dist)
    (h : Wrote (Writing.freshFolder dist) d a e) : Disk.Filled d dist [] e := by
  have hconfined := confined_freshFolder hcwd (.refl (d.route dist) d)
  rw [show Writing.freshFolder dist d = _ from h] at hconfined
  refine ⟨hconfined, nofun, fun q content hq => ?_⟩
  refine ⟨fun hfile => ?_, fun ⟨x, hx, _⟩ => absurd hx List.not_mem_nil⟩
  exfalso
  unfold Writing.freshFolder at h
  rw [wrote_get_bind] at h
  split at h
  · obtain ⟨_, d₁, hempty, h⟩ := wrote_bind.mp h
    obtain ⟨_, d₂, hremove, h⟩ := wrote_bind.mp h
    obtain ⟨p, hfind, hfolder, rfl⟩ := Disk.emptyFolder_eq_ok (wrote_change.mp hempty)
    obtain rfl : p = d.destination dist :=
      (Disk.find_eq_normalised hfind).trans (d.normalised_steps dist)
    refine Disk.emptyFolder_clears content hfolder hq ?_
    rcases Disk.removeFolder_eq_ok (wrote_change.mp hremove) with rfl | ⟨p, -, rfl⟩
    · exact (opens_of_wrote h hcwd).get?_file.mp hfile
    · rw [(opens_of_wrote h hcwd).get?_file,
        Disk.get?_filter fun q => q != p] at hfile
      split at hfile
      · exact hfile
      · exact nomatch hfile
  · rename_i hleads
    have hnone := hfresh.resolve_left hleads
    rw [(opens_of_wrote h hcwd).get?_file] at hfile
    obtain ⟨rest, rfl⟩ := Place.within_iff.mp hq
    rw [hdisk.get?_append hnone rest] at hfile
    exact nomatch hfile

/-! ## entries -/

/-- a file is written at the place of its entry -/
theorem Disk.Filled.put (h : Disk.Filled d dist done e) {x : OutputEntry} {content : List UInt8}
    (hconfined : Disk.Confined (d.route dist) d e')
    (hdone : ∀ y ∈ done,
      d.destination dist ++ pathPieces y.path ≠ d.destination dist ++ pathPieces x.path)
    (hput : ∀ q, e'.get? q = if q = d.destination dist ++ pathPieces x.path then some (.file content)
      else e.get? q) (hholds : x.Holds d content) : Disk.Filled d dist (done ++ [x]) e' := by
  refine ⟨hconfined, fun y hy hfile => ?_, fun q c hq => ?_⟩
  · rcases List.mem_append.mp hy with hy | hy
    · exact h.held y hy hfile
    · exact ⟨content, List.mem_singleton.mp hy ▸ hholds⟩
  · rw [hput]
    split
    · rename_i hplace
      constructor
      · intro hsame
        obtain rfl := Entry.file.inj (Option.some.inj hsame)
        exact ⟨x, List.mem_append_right _ List.mem_cons_self, hholds, hplace⟩
      · rintro ⟨y, hy, hyholds, hyplace⟩
        rcases List.mem_append.mp hy with hy | hy
        · exact absurd (hyplace.symm.trans hplace) (hdone y hy)
        · obtain rfl := List.mem_singleton.mp hy
          rw [hholds.unique hyholds]
    · rename_i hplace
      rw [h.file q c hq]
      constructor
      · rintro ⟨y, hy, hyholds⟩
        exact ⟨y, List.mem_append_left _ hy, hyholds⟩
      · rintro ⟨y, hy, hyholds, hyplace⟩
        rcases List.mem_append.mp hy with hy | hy
        · exact ⟨y, hy, hyholds, hyplace⟩
        · obtain rfl := List.mem_singleton.mp hy
          exact absurd hyplace hplace

/-- one more entry is written; what it copies is not in the directory -/
theorem filled_entry (hcwd : d.cwd.Plain) (h : Disk.Filled d dist done e) {x : OutputEntry}
    (hx : x.Proper) (hdone : ∀ y ∈ done, pathPieces y.path ≠ pathPieces x.path)
    (hsource : ∀ path source, x = .copy path source →
      (d.destination source).within (d.destination dist) = false)
    (hw : Wrote (Writing.entry dist x) e a e') : Disk.Filled d dist (done ++ [x]) e' := by
  have hconfined := confined_entry hcwd h.confined hx
  rw [show Writing.entry dist x e = _ from hw] at hconfined
  obtain ⟨names, hne, hnames, hpath⟩ := hx
  have hpieces : pathPieces x.path = names := by rw [hpath, pathPieces_join hnames]
  have hsteps : e.steps (joinPath dist x.path) = d.route dist ++ names := by
    rw [h.confined.steps, hpath, Disk.steps_below hne hnames]
  have hplace : Place.normalised [] (d.route dist ++ names) =
      d.destination dist ++ pathPieces x.path := by
    rw [Place.normalised_append, Place.normalised_plain fun name hname => (hnames name hname).1,
      hpieces]
    rfl
  have hdone' : ∀ y ∈ done, d.destination dist ++ pathPieces y.path ≠
      d.destination dist ++ pathPieces x.path :=
    fun y hy heq => hdone y hy (List.append_cancel_left heq)
  have hput : ∀ {content}, e.writeFile (e.steps (joinPath dist x.path)) content = .ok e' →
      ∀ q, e'.get? q = if q = d.destination dist ++ pathPieces x.path then some (.file content)
        else e.get? q := by
    intro content hwrite q
    obtain ⟨hne', rfl⟩ := Disk.writeFile_eq_put hwrite
    rw [Disk.get?_put hne', hsteps, hplace]
  cases x with
  | folder path =>
    refine ⟨hconfined, fun y hy hfile => ?_, fun q content hq => ?_⟩
    · rcases List.mem_append.mp hy with hy | hy
      · exact h.held y hy hfile
      · rw [List.mem_singleton.mp hy] at hfile
        exact nomatch hfile
    · rw [(opens_of_wrote hw (h.confined.cwd ▸ hcwd)).get?_file, h.file q content hq]
      constructor
      · rintro ⟨y, hy, hyholds⟩
        exact ⟨y, List.mem_append_left _ hy, hyholds⟩
      · rintro ⟨y, hy, hyholds, hyplace⟩
        rcases List.mem_append.mp hy with hy | hy
        · exact ⟨y, hy, hyholds, hyplace⟩
        · rw [List.mem_singleton.mp hy] at hyholds
          exact hyholds.elim
  | write path text => exact h.put hconfined hdone' (hput (wrote_change.mp hw)) rfl
  | copy path source =>
    have houtside := hsource path source rfl
    have hsteps' : Place.normalised [] (e.steps source) = d.destination source := by
      rw [h.confined.steps, d.normalised_steps]
    have hapart : d.destination source ≠ Place.normalised [] (d.route dist ++ names) := by
      intro heq
      rw [heq, hplace, Place.within_iff.mpr ⟨_, rfl⟩] at houtside
      exact nomatch houtside
    rw [← hsteps', ← hsteps] at hapart
    obtain ⟨content, hcontent, hwrite⟩ := Disk.copyFile_eq_writeFile (wrote_change.mp hw) hapart
    -- the source is not in the directory, so it is as it was
    rw [hsteps'] at hcontent
    have hsame : d.get? (d.destination source) = some (.file content) := by
      rcases h.confined.outside _ houtside with hsame | ⟨-, hfolder, -⟩
      · rw [← hsame, hcontent]
      · exact nomatch hfolder.symm.trans hcontent
    exact h.put hconfined hdone' (hput hwrite) hsame

theorem Disk.Filled.get? (h : Disk.Filled d dist done e) {x : OutputEntry} (hx : x ∈ done)
    {content : List UInt8} (hholds : x.Holds d content) :
    e.get? (d.destination dist ++ pathPieces x.path) = some (.file content) :=
  (h.file _ content (Place.within_iff.mpr ⟨_, rfl⟩)).mpr ⟨x, hx, hholds, rfl⟩

theorem filled_entries (hcwd : d.cwd.Plain) {entries : List OutputEntry}
    (h : Disk.Filled d dist done e) (hproper : ∀ x ∈ entries, x.Proper)
    (honce : ((done ++ entries).map fun x => pathPieces x.path).Nodup)
    (hsources : ∀ path source, .copy path source ∈ entries →
      (d.destination source).within (d.destination dist) = false)
    (hw : Wrote (entries.forM (Writing.entry dist)) e a e') :
    Disk.Filled d dist (done ++ entries) e' := by
  induction entries generalizing done e with
  | nil =>
    obtain rfl : e = e' := (Prod.mk.inj hw).2
    rw [List.append_nil]
    exact h
  | cons x entries ih =>
    obtain ⟨_, u, hx, hw⟩ := wrote_bind.mp hw
    obtain ⟨hxproper, hproper⟩ := List.forall_mem_cons.mp hproper
    have hdone : ∀ y ∈ done, pathPieces y.path ≠ pathPieces x.path := by
      intro y hy
      rw [List.map_append, List.nodup_append] at honce
      exact honce.2.2 _ (List.mem_map_of_mem hy) _ (List.mem_map_of_mem List.mem_cons_self)
    have hfilled := filled_entry hcwd h hxproper hdone
      (fun path source heq => hsources path source (heq ▸ List.mem_cons_self)) hx
    rw [List.append_cons] at honce ⊢
    exact ih hfilled hproper honce
      (fun path source hmem => hsources path source (List.mem_cons_of_mem x hmem)) hw

/-- **Replacing an output directory leaves in it the files of the entries, and no others.** -/
theorem filled_fillOutput (hdisk : d.Sound) (hcwd : d.cwd.Plain) (hfresh : d.Fresh dist)
    {entries : List OutputEntry} (hproper : ∀ x ∈ entries, x.Proper)
    (honce : (entries.map fun x => pathPieces x.path).Nodup)
    (hsources : ∀ path source, .copy path source ∈ entries →
      (d.destination source).within (d.destination dist) = false)
    (h : Wrote (fillOutput dist entries) d a e) : Disk.Filled d dist entries e := by
  obtain ⟨_, u, hclear, hw⟩ := wrote_bind.mp h
  exact filled_entries hcwd (filled_freshFolder hdisk hcwd hfresh hclear) hproper honce hsources hw

end

/-! ## counting files -/

namespace Disk
variable {d e : Disk} {p top : Place} {dist : Text} {steps : List Text}

/-- each place has one entry -/
def Once (d : Disk) : Prop := (d.entries.map (·.1)).Nodup

namespace Once

theorem put (h : d.Once) (p : Place) (e : Entry) : (d.put p e).Once := by
  unfold Disk.put
  split
  · have hkeys : (d.entries.map fun x => if x.1 == p then (p, e) else x).map (·.1) =
        d.entries.map (·.1) := by
      rw [List.map_map]
      refine List.map_congr_left fun x _ => ?_
      rw [Function.comp_apply]
      split
      · rename_i hx
        exact (eq_of_beq hx).symm
      · rfl
    exact (congrArg List.Nodup hkeys).mpr h
  · rename_i hnone
    show ((d.entries ++ [(p, e)]).map (·.1)).Nodup
    rw [List.map_append, List.map_singleton, ← List.concat_eq_append, List.nodup_concat]
    refine ⟨fun hmem => hnone ?_, h⟩
    obtain ⟨x, hx, hplace⟩ := List.mem_map.mp hmem
    unfold get?
    split
    · rfl
    · rw [Option.isSome_map, List.find?_isSome]
      exact ⟨x, hx, beq_iff_eq.mpr hplace⟩

theorem filter (h : d.Once) (keeps : Place × Entry → Bool) :
    ({ d with entries := d.entries.filter keeps } : Disk).Once :=
  (List.filter_sublist.map _).nodup h

theorem writeFile (h : d.Once) {content : List UInt8} (hw : d.writeFile steps content = .ok e) :
    e.Once := by
  obtain ⟨-, rfl⟩ := writeFile_eq_put hw
  exact h.put _ _

theorem ensureFolder (h : d.Once) (steps : List Text) : (d.ensureFolder steps).1.Once := by
  unfold Disk.ensureFolder
  split
  · rename_i made hmade
    obtain ⟨p, name, -, -, -, -, rfl⟩ := makeFolder_eq_ok hmade
    exact h.put _ _
  · split <;> exact h

theorem createFolders (h : d.Once) (steps : List Text) : (d.createFolders steps).1.Once := by
  fun_induction Disk.createFolders d steps with
  | case1 steps made hmade _ => exact hmade ▸ h.ensureFolder steps
  | case2 steps _ _ _ _ made hmade ih =>
    rw [hmade] at ih
    exact ih.ensureFolder steps
  | case3 _ _ _ _ _ _ ih => exact ih
  | case4 steps _ => exact h.ensureFolder steps

theorem freshFolder (h : d.Once) : (Writing.freshFolder dist d).2.Once := by
  have hmake : ∀ (e : Disk), e.Once → ∀ activity, (Writing.createFolders activity dist e).2.Once :=
    fun e he activity => leaves_createFolders (he.createFolders _)
  unfold Writing.freshFolder
  show ((if d.leadsTo dist then _ else _ : Writing Unit) d).2.Once
  split
  · refine leaves_bind (leaves_change h fun e hempty => ?_) fun _ e he => ?_
    · obtain ⟨p, -, -, rfl⟩ := emptyFolder_eq_ok hempty
      exact h.filter _
    · refine leaves_bind (leaves_change he fun e' hremove => ?_) fun _ e' he' => hmake e' he' _
      rcases removeFolder_eq_ok hremove with rfl | ⟨p, -, rfl⟩
      · exact he
      · exact he.filter _
  · exact hmake d h _

theorem entry (h : d.Once) (x : OutputEntry) : (Writing.entry dist x d).2.Once := by
  cases x with
  | folder path => exact leaves_createFolders (h.createFolders _)
  | write path content => exact leaves_change h fun e hw => h.writeFile hw
  | copy path source =>
    refine leaves_change h fun e hcopy => ?_
    obtain ⟨p, content, -, -, hw⟩ := copyFile_eq_ok hcopy
    exact h.writeFile hw

theorem fillOutput (h : d.Once) (entries : List OutputEntry) :
    (SiteBundle.fillOutput dist entries d).2.Once :=
  leaves_bind h.freshFolder fun _ _ he => leaves_forM he fun x _ _ hu => hu.entry x

end Once

/-- the files below a place, by their names from there -/
def filesBelow (d : Disk) (top : Place) : List Place :=
  ((d.listing top).filter fun x => x.2 != .folder).map (·.1)

theorem mem_filesBelow (h : d.Once) : p ∈ d.filesBelow top ↔
    p ≠ [] ∧ ∃ content, d.get? (top ++ p) = some (.file content) := by
  unfold filesBelow
  rw [List.mem_map]
  constructor
  · rintro ⟨⟨q, e⟩, hq, rfl⟩
    obtain ⟨hlisted, hfile⟩ := List.mem_filter.mp hq
    obtain ⟨hmem, hne⟩ := mem_listing.mp hlisted
    refine ⟨hne, ?_⟩
    rw [get?_of_mem h (List.append_ne_nil_of_right_ne_nil _ hne) hmem]
    cases e with
    | folder => exact nomatch hfile
    | file content => exact ⟨content, rfl⟩
  · rintro ⟨hne, content, hfile⟩
    have hmem := mem_of_get? (List.append_ne_nil_of_right_ne_nil _ hne) hfile
    exact ⟨_, List.mem_filter.mpr ⟨mem_listing.mpr ⟨hmem, hne⟩, rfl⟩, rfl⟩

/-- **The files of a filled directory are those of the entries.** -/
theorem Filled.filesBelow {entries : List OutputEntry} (h : d.Filled dist entries e) (he : e.Once)
    (hproper : ∀ x ∈ entries, x.Proper) (honce : (entries.map fun x => pathPieces x.path).Nodup) :
    (e.filesBelow (d.destination dist)).Perm
      ((entries.filter fun x => !x.isFolder).map fun x => pathPieces x.path) := by
  have hnodup : (e.filesBelow (d.destination dist)).Nodup :=
    (List.filter_sublist.map _).nodup (nodup_listing he _)
  refine (List.perm_ext_iff_of_nodup hnodup ((List.filter_sublist.map _).nodup honce)).mpr fun p => ?_
  rw [mem_filesBelow he, List.mem_map]
  constructor
  · rintro ⟨hne, content, hfile⟩
    obtain ⟨x, hx, hholds, hplace⟩ := (h.file _ content (Place.within_iff.mpr ⟨p, rfl⟩)).mp hfile
    refine ⟨x, List.mem_filter.mpr ⟨hx, ?_⟩, (List.append_cancel_left hplace).symm⟩
    cases x with
    | folder path => exact hholds.elim
    | write path text => rfl
    | copy path source => rfl
  · rintro ⟨x, hx, rfl⟩
    obtain ⟨hx, hfile⟩ := List.mem_filter.mp hx
    rw [Bool.not_eq_true'] at hfile
    obtain ⟨names, hne, hnames, hpath⟩ := hproper x hx
    obtain ⟨content, hholds⟩ := h.held x hx hfile
    refine ⟨by rw [hpath, pathPieces_join hnames]; exact hne, content, ?_⟩
    exact h.get? hx hholds

end Disk
end SiteBundle
