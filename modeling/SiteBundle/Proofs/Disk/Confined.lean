import SiteBundle.Proofs.Disk.Paths
import SiteBundle.Proofs.Disk.Written

/-!
# What writing leaves alone

Replacing an output directory changes nothing outside of it, whether it succeeds or not, except that
folders on the way to it may be made (`confined_fillOutput`).

* `OnWay`            the places that a list of steps passes;
* `Disk.Opens`       nothing changes but for new folders on the way;
* `Disk.Confined`    all changes are at or below the place that the steps lead to, or new folders on
  the way, with one lemma for each change;
* `fillOutput`       what is done to the disk once it is clear that the output may be replaced.

Steps that are found lead where their text says (`find_eq_normalised`), so it is known beforehand what
each change is about.
-/

namespace SiteBundle

open Text

/-- the steps pass a place -/
def OnWay (steps : List Text) (p : Place) : Prop :=
  ∃ front, front <+: steps ∧ p = Place.normalised [] front

/-- no step but the one of a trailing slash is empty -/
def Tidy (steps : List Text) : Prop := ∀ name ∈ Disk.dropSlash steps, name ≠ []

theorem Disk.mem_of_mem_dropSlash {steps : List Text} {name : Text}
    (h : name ∈ Disk.dropSlash steps) : name ∈ steps := by
  unfold Disk.dropSlash at h
  split at h
  · exact (List.dropLast_sublist steps).subset h
  · exact h

theorem Tidy.of_forall {steps : List Text} (h : ∀ name ∈ steps, name ≠ []) : Tidy steps :=
  fun name hname => h name (Disk.mem_of_mem_dropSlash hname)

theorem Tidy.of_front {steps front : List Text} (h : Tidy steps) (hfront : front <+: steps) :
    Tidy front := by
  obtain ⟨rest, rfl⟩ := hfront
  intro name hname
  cases rest with
  | nil =>
    rw [List.append_nil] at h
    exact h name hname
  | cons a rest =>
    have hmem := Disk.mem_of_mem_dropSlash hname
    refine h name ?_
    unfold Disk.dropSlash
    split
    · rw [List.dropLast_append_of_ne_nil (List.cons_ne_nil a rest)]
      exact List.mem_append_left _ hmem
    · exact List.mem_append_left _ hmem

namespace Place
variable {p : Place} {names : List Text}

theorem normalised_append (p : Place) (a b : List Text) :
    p.normalised (a ++ b) = (p.normalised a).normalised b := List.foldl_append

theorem normalised_plain (h : Place.Plain names) : p.normalised names = p ++ names := by
  induction names generalizing p with
  | nil => exact (List.append_nil p).symm
  | cons name names ih =>
    obtain ⟨hname, hnames⟩ := List.forall_mem_cons.mp h
    obtain ⟨hidle, hup⟩ := isPlainName_iff.mp hname
    have hstep : p.step name = p ++ [name] := by
      rw [step, hidle, if_neg Bool.false_ne_true, if_neg hup]
    show (p.step name).normalised names = _
    rw [hstep, ih hnames, List.append_assoc]
    rfl

theorem within_iff {q : Place} : q.within p = true ↔ ∃ rest, q = p ++ rest := by
  rw [within, List.isPrefixOf_iff_prefix]
  exact ⟨fun ⟨rest, h⟩ => ⟨rest, h.symm⟩, fun ⟨rest, h⟩ => ⟨rest, h.symm⟩⟩

end Place

namespace Disk
variable {d d' d'' : Disk} {p q : Place} {steps way : List Text} {content : List UInt8}

/-! ## steps that are found -/

theorem findStep_eq_step {name : Text} (h : d.findStep p name = .ok q) : q = p.step name := by
  unfold findStep at h
  unfold Place.step
  split at h
  · exact nomatch h
  · split at h
    · rename_i hidle
      rw [if_pos hidle]
      exact (Except.ok.inj h).symm
    · rename_i hidle
      rw [if_neg hidle]
      split at h
      · rename_i hup
        rw [if_pos hup]
        exact (Except.ok.inj h).symm
      · rename_i hup
        rw [if_neg hup]
        split at h
        · exact nomatch h
        · split at h
          · exact (Except.ok.inj h).symm
          · exact nomatch h

/-- steps that are found lead where their text says -/
theorem find_eq_normalised (h : d.find steps = .ok p) : p = Place.normalised [] steps := by
  have hfold : ∀ (steps : List Text) (a : Place), steps.foldlM d.findStep a = .ok p →
      p = a.normalised steps := by
    intro steps
    induction steps with
    | nil => exact fun a ha => (Except.ok.inj ha).symm
    | cons name steps ih =>
      intro a ha
      rw [List.foldlM_cons] at ha
      cases hb : d.findStep a name with
      | error fault =>
        rw [hb] at ha
        exact nomatch ha
      | ok b =>
        rw [hb] at ha
        have hp := ih b ha
        rw [findStep_eq_step hb] at hp
        exact hp
  unfold find at h
  split at h
  · exact nomatch h
  · exact hfold steps [] h

theorem normalised_dropSlash (steps : List Text) :
    Place.normalised [] (dropSlash steps) = Place.normalised [] steps := by
  unfold dropSlash
  split
  · rename_i hlast
    obtain ⟨front, rfl⟩ := List.getLast?_eq_some_iff.mp hlast
    rw [List.dropLast_concat, Place.normalised_append]
    rfl
  · rfl

/-- what is made under a name is at the place that the steps say -/
theorem target?_eq_normalised {name : Text} (h : d.target? steps = .ok (some (p, name)))
    (htidy : Tidy steps) (hdot : name ≠ ['.']) (hup : name ≠ ['.', '.']) :
    p ++ [name] = Place.normalised [] steps := by
  obtain ⟨-, hlast, hfind, -⟩ := target?_eq_ok h
  obtain ⟨front, hfront⟩ := List.getLast?_eq_some_iff.mp hlast
  have hne : name ≠ [] := htidy name (hfront ▸ List.mem_append_right _ List.mem_cons_self)
  have hplain : isPlainName name = true := by
    rw [isPlainName_iff, isIdle, Bool.or_eq_false_iff, List.isEmpty_eq_false_iff,
      beq_eq_false_iff_ne]
    exact ⟨⟨hne, hdot⟩, hup⟩
  rw [hfront, List.dropLast_concat] at hfind
  rw [← normalised_dropSlash, hfront, Place.normalised_append,
    Place.normalised_plain (Place.plain_singleton.mpr hplain), ← find_eq_normalised hfind]

/-- a file is written at the place that the steps say -/
theorem writeFile_eq_put (h : d.writeFile steps content = .ok d') :
    Place.normalised [] steps ≠ [] ∧ d' = d.put (Place.normalised [] steps) (.file content) := by
  obtain ⟨front, p, name, rfl, hplain, -, -, hfind, -, -, rfl⟩ := writeFile_eq_ok h
  rw [Place.normalised_append, ← find_eq_normalised hfind,
    Place.normalised_plain (Place.plain_singleton.mpr hplain)]
  exact ⟨List.concat_ne_nil _ _, rfl⟩

/-- a copy is written with the content of the source, when that is elsewhere -/
theorem copyFile_eq_writeFile {source : List Text} (h : d.copyFile source steps = .ok d')
    (hapart : Place.normalised [] source ≠ Place.normalised [] steps) : ∃ content,
    d.get? (Place.normalised [] source) = some (.file content) ∧
      d.writeFile steps content = .ok d' := by
  obtain ⟨p, content, hfind, hcontent, hwrite⟩ := copyFile_eq_ok h
  have hp := find_eq_normalised hfind
  have hother : ((d.find steps).toOption == some p) = false := by
    rw [beq_eq_false_iff_ne]
    cases htarget : d.find steps with
    | error fault => exact nofun
    | ok q =>
      rw [hp, find_eq_normalised htarget]
      exact fun heq => hapart (Option.some.inj heq).symm
  rw [hother, if_neg Bool.false_ne_true] at hwrite
  exact ⟨content, hp ▸ hcontent, hwrite⟩

theorem outerSteps_prefix (steps : List Text) : outerSteps steps <+: steps := by
  have hidle : ∀ l : List Text, dropIdle l <+: l := by
    intro l
    have hsuffix := List.dropWhile_suffix isIdle (l := l.reverse)
    rw [← List.reverse_prefix, List.reverse_reverse] at hsuffix
    exact hsuffix
  exact (hidle _).trans ((List.dropLast_prefix _).trans (hidle _))

/-! ## new folders -/

/-- nothing but new folders on the way -/
structure Opens (steps : List Text) (d d' : Disk) : Prop where
  cwd : d'.cwd = d.cwd
  get : ∀ q, d'.get? q = d.get? q ∨ d.get? q = none ∧ d'.get? q = some .folder ∧ OnWay steps q

namespace Opens

theorem refl (steps : List Text) (d : Disk) : Opens steps d d := ⟨rfl, fun _ => .inl rfl⟩

theorem trans (h : Opens steps d d') (h' : Opens steps d' d'') : Opens steps d d'' := by
  refine ⟨h'.cwd.trans h.cwd, fun q => ?_⟩
  rcases h.get q with hsame | ⟨hnone, hfolder, hway⟩
  · rw [← hsame]
    exact h'.get q
  · rcases h'.get q with hsame | ⟨hnone', -, -⟩
    · exact .inr ⟨hnone, hsame.trans hfolder, hway⟩
    · exact nomatch hfolder.symm.trans hnone'

theorem of_front {front : List Text} (h : Opens front d d') (hfront : front <+: steps) :
    Opens steps d d' :=
  ⟨h.cwd, fun q => (h.get q).imp_right fun ⟨hnone, hfolder, way, hway, hq⟩ =>
    ⟨hnone, hfolder, way, hway.trans hfront, hq⟩⟩

theorem ensureFolder (htidy : Tidy steps) : Opens steps d (d.ensureFolder steps).1 := by
  unfold Disk.ensureFolder
  split
  · rename_i d' hmade
    obtain ⟨p, name, htarget, hdot, hup, hnone, rfl⟩ := makeFolder_eq_ok hmade
    refine ⟨cwd_put, fun q => ?_⟩
    rw [get?_put (List.concat_ne_nil _ _)]
    split
    · rename_i hq
      rw [hq]
      exact .inr ⟨hnone, rfl, steps, List.prefix_refl steps,
        target?_eq_normalised htarget htidy hdot hup⟩
    · exact .inl rfl
  · split <;> exact refl steps d

/-- folders are made on the way -/
theorem createFolders (htidy : Tidy steps) : Opens steps d (d.createFolders steps).1 := by
  fun_induction Disk.createFolders d steps with
  | case1 steps made hmade _ => exact hmade ▸ ensureFolder htidy
  | case2 steps _ _ _ _ made hmade ih =>
    have houter := outerSteps_prefix steps
    have hfirst := ih (htidy.of_front houter)
    rw [hmade] at hfirst
    exact (hfirst.of_front houter).trans (ensureFolder htidy)
  | case3 steps _ _ _ _ _ ih =>
    have houter := outerSteps_prefix steps
    exact (ih (htidy.of_front houter)).of_front houter
  | case4 steps _ => exact ensureFolder htidy

end Opens

/-! ## confined changes -/

/-- all changes are at or below the place that the steps lead to, or new folders on the way -/
structure Confined (way : List Text) (d d' : Disk) : Prop where
  cwd : d'.cwd = d.cwd
  outside : ∀ q : Place, q.within (Place.normalised [] way) = false →
    d'.get? q = d.get? q ∨ d.get? q = none ∧ d'.get? q = some .folder ∧ OnWay way q

/-- a change there is confined -/
def InReach (way : List Text) (p : Place) : Prop :=
  p.within (Place.normalised [] way) = true ∨ OnWay way p

namespace Confined

theorem refl (way : List Text) (d : Disk) : Confined way d d := ⟨rfl, fun _ _ => .inl rfl⟩

theorem trans (h : Confined way d d') (h' : Confined way d' d'') : Confined way d d'' := by
  refine ⟨h'.cwd.trans h.cwd, fun q hq => ?_⟩
  rcases h.outside q hq with hsame | ⟨hnone, hfolder, hway⟩
  · rw [← hsame]
    exact h'.outside q hq
  · rcases h'.outside q hq with hsame' | ⟨hnone', -, -⟩
    · exact .inr ⟨hnone, hsame'.trans hfolder, hway⟩
    · exact nomatch hfolder.symm.trans hnone'

theorem of_opens (h : Opens steps d d') (hsteps : ∀ p, OnWay steps p → InReach way p) :
    Confined way d d' := by
  refine ⟨h.cwd, fun q hq => (h.get q).imp_right fun ⟨hnone, hfolder, hway⟩ => ?_⟩
  rcases hsteps q hway with hwithin | hway
  · exact nomatch hq.symm.trans hwithin
  · exact ⟨hnone, hfolder, hway⟩

theorem put_within (hp : p ≠ []) (h : p.within (Place.normalised [] way) = true) (e : Entry) :
    Confined way d (d.put p e) := by
  refine ⟨cwd_put, fun q hq => .inl ?_⟩
  rw [get?_put hp, if_neg]
  rintro rfl
  exact nomatch hq.symm.trans h

theorem filter (keeps : Place → Bool)
    (h : ∀ q, keeps q = false → q.within (Place.normalised [] way) = true) :
    Confined way d { d with entries := d.entries.filter fun x => keeps x.1 } := by
  refine ⟨rfl, fun q hq => .inl ?_⟩
  rw [get?_filter, if_pos]
  refine .inr ?_
  rw [← Bool.not_eq_false]
  exact fun hkeeps => nomatch hq.symm.trans (h q hkeeps)

theorem writeFile (h : d.writeFile steps content = .ok d')
    (hsteps : (Place.normalised [] steps).within (Place.normalised [] way) = true) :
    Confined way d d' := by
  obtain ⟨hne, rfl⟩ := writeFile_eq_put h
  exact put_within hne hsteps _

theorem copyFile {source : List Text} (h : d.copyFile source steps = .ok d')
    (hsteps : (Place.normalised [] steps).within (Place.normalised [] way) = true) :
    Confined way d d' := by
  obtain ⟨p, content, -, -, h⟩ := copyFile_eq_ok h
  exact writeFile h hsteps

theorem emptyFolder (h : d.emptyFolder steps = .ok d')
    (hsteps : Place.normalised [] steps = Place.normalised [] way) : Confined way d d' := by
  obtain ⟨p, hfind, -, rfl⟩ := emptyFolder_eq_ok h
  refine filter (fun q => !(q.within p && q != p)) fun q hq => ?_
  rw [Bool.not_eq_false', Bool.and_eq_true, find_eq_normalised hfind, hsteps] at hq
  exact hq.1

theorem removeFolder (h : d.removeFolder steps = .ok d')
    (hsteps : Place.normalised [] steps = Place.normalised [] way) : Confined way d d' := by
  rcases removeFolder_eq_ok h with rfl | ⟨p, hfind, rfl⟩
  · exact refl way d'
  · refine filter (fun q => q != p) fun q hq => ?_
    rw [bne_eq_false_iff_eq, find_eq_normalised hfind, hsteps] at hq
    rw [hq]
    exact Place.within_iff.mpr ⟨[], (List.append_nil _).symm⟩

end Confined
end Disk

/-! ## writing -/

section
variable {α β : Type} {I : Disk → Prop} {d : Disk}

/-- what holds behind the first part of some work, and behind the second wherever it holds before -/
theorem leaves_bind {w : Writing α} {k : α → Writing β} (hw : I (w d).2)
    (hk : ∀ a e, I e → I (k a e).2) : I ((w >>= k) d).2 := by
  have hrun : (w >>= k) d = match w d with
      | (r, e) => (ExceptT.bindCont k r e : Except Failure β × Disk) := rfl
  rw [hrun]
  cases hwd : w d with
  | mk r e =>
    rw [hwd] at hw
    cases r with
    | ok a => exact hk a e hw
    | error f => exact hw

theorem leaves_forM {f : α → Writing PUnit} {l : List α} (h : I d)
    (hf : ∀ a ∈ l, ∀ e, I e → I (f a e).2) : I ((l.forM f) d).2 := by
  induction l generalizing d with
  | nil => exact h
  | cons a l ih =>
    refine leaves_bind (w := f a) (hf a List.mem_cons_self d h) fun _ e he => ?_
    exact ih he fun b hb => hf b (List.mem_cons_of_mem a hb)

theorem leaves_change {activity : String} {f : Disk → Except DiskFault Disk} (h : I d)
    (hf : ∀ e, f d = .ok e → I e) : I (Writing.change activity f d).2 := by
  cases hfd : f d with
  | ok e =>
    rw [Writing.change_of_ok hfd]
    exact hf e hfd
  | error fault =>
    rw [Writing.change_of_error hfd]
    exact h

theorem leaves_createFolders {activity : String} {path : Text}
    (h : I (d.createFolders (d.steps path)).1) : I (Writing.createFolders activity path d).2 := by
  rw [Writing.createFolders_snd]
  exact h

end

/-- what is done to the disk once it is clear that the output may be replaced -/
def fillOutput (dist : Text) (entries : List OutputEntry) : Writing Unit := do
  Writing.freshFolder dist
  entries.forM (Writing.entry dist)

/-- the path of an entry is made of names that entries of folders can have -/
def OutputEntry.Proper (e : OutputEntry) : Prop :=
  ∃ names, names ≠ [] ∧ (∀ name ∈ names, IsEntryName name) ∧ e.path = join ['/'] names

section
variable {d e : Disk} {dist : Text}

theorem Disk.Confined.steps {way : List Text} (h : Disk.Confined way d e) (path : Text) :
    e.steps path = d.steps path := by
  unfold Disk.steps
  rw [h.cwd]

theorem Disk.tidy_route (hcwd : d.cwd.Plain) (path : Text) : ∀ name ∈ d.route path, name ≠ [] := by
  intro name hname
  rcases List.mem_append.mp hname with hname | hname
  · split at hname
    · exact absurd hname List.not_mem_nil
    · rintro rfl
      exact nomatch hcwd [] hname
  · exact pathPieces_ne_nil hname

theorem Disk.tidy_steps (hcwd : d.cwd.Plain) (path : Text) : Tidy (d.steps path) := by
  rcases d.steps_eq path with h | h <;> rw [h]
  · exact Tidy.of_forall (d.tidy_route hcwd path)
  · intro name hname
    rw [Disk.dropSlash, if_pos (List.getLast?_concat ..), List.dropLast_concat] at hname
    exact d.tidy_route hcwd path name hname

theorem confined_freshFolder (hcwd : d.cwd.Plain) (h : Disk.Confined (d.route dist) d e) :
    Disk.Confined (d.route dist) d (Writing.freshFolder dist e).2 := by
  have hend : Place.normalised [] (d.steps dist) = Place.normalised [] (d.route dist) :=
    d.normalised_steps dist
  have hmake : ∀ e, Disk.Confined (d.route dist) d e → ∀ activity,
      Disk.Confined (d.route dist) d (Writing.createFolders activity dist e).2 := by
    intro e h activity
    refine leaves_createFolders ?_
    rw [h.steps]
    refine h.trans (.of_opens (.createFolders (d.tidy_steps hcwd dist)) ?_)
    rintro p ⟨front, hfront, rfl⟩
    rcases d.steps_eq dist with hsteps | hsteps
    · exact .inr ⟨front, hsteps ▸ hfront, rfl⟩
    · rw [hsteps, List.prefix_concat_iff] at hfront
      rcases hfront with rfl | hfront
      · refine .inl (Place.within_iff.mpr ⟨[], ?_⟩)
        rw [← hsteps, hend, List.append_nil]
      · exact .inr ⟨front, hfront, rfl⟩
  unfold Writing.freshFolder
  show Disk.Confined (d.route dist) d ((if e.leadsTo dist then _ else _ : Writing Unit) e).2
  split
  · refine leaves_bind (leaves_change h fun e' he => ?_) fun _ e' h' => ?_
    · rw [h.steps] at he
      exact h.trans (.emptyFolder he hend)
    · refine leaves_bind (leaves_change h' fun e'' he => ?_) fun _ e'' h'' => hmake e'' h'' _
      rw [h'.steps] at he
      exact h'.trans (.removeFolder he hend)
  · exact hmake e h _

theorem confined_entry (hcwd : d.cwd.Plain) (h : Disk.Confined (d.route dist) d e)
    {x : OutputEntry} (hx : x.Proper) :
    Disk.Confined (d.route dist) d (Writing.entry dist x e).2 := by
  obtain ⟨names, hne, hnames, hpath⟩ := hx
  have hplain : ∀ {front : List Text}, front <+: names → Place.Plain front :=
    fun hfront name hname => (hnames name (hfront.subset hname)).1
  have hsteps : e.steps (joinPath dist x.path) = d.route dist ++ names := by
    rw [h.steps, hpath, Disk.steps_below hne hnames]
  -- below the directory, names lead where they say
  have hwithin : ∀ {front : List Text}, front <+: names →
      (Place.normalised [] (d.route dist ++ front)).within
        (Place.normalised [] (d.route dist)) = true := by
    intro front hfront
    rw [Place.normalised_append, Place.normalised_plain (hplain hfront)]
    exact Place.within_iff.mpr ⟨front, rfl⟩
  have htarget := hwithin (List.prefix_refl names)
  cases x with
  | folder path =>
    refine leaves_createFolders ?_
    rw [hsteps]
    refine h.trans (.of_opens (.createFolders (Tidy.of_forall fun name hname => ?_)) ?_)
    · rcases List.mem_append.mp hname with hname | hname
      · exact d.tidy_route hcwd dist name hname
      · exact (hnames name hname).ne_nil
    · rintro p ⟨front, ⟨rest, hrest⟩, rfl⟩
      rcases List.append_eq_append_iff.mp hrest with ⟨more, hroute, -⟩ | ⟨more, rfl, hmore⟩
      · exact .inr ⟨front, ⟨more, hroute.symm⟩, rfl⟩
      · exact .inl (hwithin ⟨rest, hmore.symm⟩)
  | write path content =>
    refine leaves_change h fun e' he => h.trans (.writeFile he ?_)
    rw [hsteps]
    exact htarget
  | copy path source =>
    refine leaves_change h fun e' he => h.trans (.copyFile he ?_)
    rw [hsteps]
    exact htarget

/-- **Replacing an output directory changes nothing outside of it.** -/
theorem confined_fillOutput (hcwd : d.cwd.Plain) {entries : List OutputEntry}
    (hentries : ∀ x ∈ entries, x.Proper) :
    Disk.Confined (d.route dist) d (fillOutput dist entries d).2 :=
  leaves_bind (confined_freshFolder hcwd (.refl _ d)) fun _ _ h =>
    leaves_forM h fun x hx _ h => confined_entry hcwd h (hentries x hx)

end
end SiteBundle
