import SiteBundle.Proofs.Bundle.Ends
import SiteBundle.Proofs.Bundle.Naming
import SiteBundle.Proofs.Module.RollUp
import SiteBundle.Proofs.Tree.Rooted

/-!
# Sites on which work can be relied on

`Site.Sound` is what documents leave a site in, one after the other: its tree has one root, its
folders are folders of the disk, and the modules and bundles it knows are made of files it has.  The
bundle directory alone may be no folder of the disk; when it has the name of a file that was left out
of the tree, that file is taken for a folder (`Site.Hides`).

`Safely blame w s Q` says of the work `w` that it leaves a sound site, gives what `Q` says, and when it
fails has an excuse (`Failure.Excused`): the disk, a source that cannot be transformed, an import with
a clause that closes before it opens, or the hidden file.  `blame` are the sources that the work may
roll up.
-/

namespace SiteBundle

open Site

variable {s t u : Site} {id : NodeId}

/-- the bundle directory stands where the disk has a file -/
def Site.Hides (s : Site) (id : NodeId) : Prop :=
  s.bundleDir = some id ∧ s.tree.isFolder id = true ∧
    s.disk.isFile (s.tree.top ++ [s.options.get .bundleDirectory]) = true

/-- the node is a file, as far as the disk is concerned -/
def Site.Stands (s : Site) (id : NodeId) : Prop := s.tree.isFile id = true ∨ s.Hides id

structure Site.Sound (s : Site) : Prop where
  rooted : s.tree.Rooted
  directory : ∀ dir, s.bundleDir = some dir →
    s.tree.node? dir = some ⟨s.options.get .bundleDirectory, some Tree.root, .folder⟩
  folder : ∀ id, s.tree.isFolder id = true →
    s.bundleDir = some id ∨ s.disk.isFolder (s.tree.top ++ s.tree.names id) = true
  modules : ∀ m ∈ s.modules, ∀ id ∈ m.2.files, s.Stands id
  numbered : ∀ {i : Nat} {b : Bundle}, s.bundles[i]? = some b → b.id = i
  filed : ∀ b ∈ s.bundles, ∀ id, b.node = some id → id < s.tree.nodes.size

/-- bookkeeping that gains: a file that is necessary stays so -/
def FileState.Gains (st st' : FileState) : Prop := st.necessary = true → st'.necessary = true

theorem FileState.Gains.refl (st : FileState) : st.Gains st := id

/-- noted as a file that markup refers to -/
def Tree.IsNecessary (t : Tree) (id : NodeId) : Prop :=
  ∃ st, t.file id = .ok st ∧ st.necessary = true

/-- what stays of a site -/
structure Site.Kept (s t : Site) : Prop where
  options : t.options = s.options
  disk : t.disk = s.disk
  grown : s.tree.Grown FileState.Gains t.tree
  bundleDir : ∀ dir, s.bundleDir = some dir → t.bundleDir = some dir

namespace Site.Kept

theorem refl (s : Site) : s.Kept s := ⟨rfl, rfl, .refl .refl _, fun _ h => h⟩

theorem trans (h : s.Kept t) (h' : t.Kept u) : s.Kept u where
  options := h'.options.trans h.options
  disk := h'.disk.trans h.disk
  grown := h.grown.trans (fun _ _ _ hab hbc ha => hbc (hab ha)) h'.grown
  bundleDir := fun dir hd => h'.bundleDir dir (h.bundleDir dir hd)

/-- only the tree changed -/
theorem of_grown {tree : Tree} (h : s.tree.Grown FileState.Gains tree) :
    s.Kept { s with tree } := ⟨rfl, rfl, h, fun _ hd => hd⟩

theorem file (h : s.Kept t) {st : FileState} (hst : s.tree.file id = .ok st) :
    ∃ st', t.tree.file id = .ok st' ∧ st.Gains st' := by
  obtain ⟨name, parent, hn⟩ := Tree.file_eq_ok_iff.mp hst
  obtain ⟨st', hn', hgain⟩ := h.grown.file hn
  exact ⟨st', Tree.file_eq_ok_iff.mpr ⟨name, parent, hn'⟩, hgain⟩

theorem isFile (h : s.Kept t) (hid : s.tree.isFile id = true) : t.tree.isFile id = true := by
  obtain ⟨st, hst⟩ := Tree.isFile_iff.mp hid
  obtain ⟨st', hst', -⟩ := h.file hst
  exact Tree.isFile_iff.mpr ⟨st', hst'⟩

theorem isNecessary (h : s.Kept t) (hid : s.tree.IsNecessary id) : t.tree.IsNecessary id := by
  obtain ⟨st, hst, hnec⟩ := hid
  obtain ⟨st', hst', hgain⟩ := h.file hst
  exact ⟨st', hst', hgain hnec⟩

theorem stands (h : s.Kept t) (hid : s.Stands id) : t.Stands id := by
  refine hid.imp h.isFile fun ⟨hdir, hfolder, hfile⟩ => ⟨h.bundleDir id hdir, ?_, ?_⟩
  · obtain ⟨name, parent, hn⟩ := Tree.isFolder_iff.mp hfolder
    exact Tree.isFolder_iff.mpr ⟨name, parent, h.grown.folder hn⟩
  · rw [h.disk, h.grown.top, h.options]
    exact hfile

end Site.Kept

namespace Site.Sound

/-- a larger tree: its folders are those of the smaller one, and one new bundle directory -/
theorem of_grown (h : s.Sound) {tree : Tree} {bundleDir : Option NodeId}
    (hgrown : s.tree.Grown FileState.Gains tree) (hrooted : tree.Rooted)
    (hfolder : ∀ id, tree.isFolder id = true → bundleDir = some id ∨ s.tree.isFolder id = true)
    (hkept : ∀ dir, s.bundleDir = some dir → bundleDir = some dir)
    (hdir : ∀ dir, bundleDir = some dir →
      tree.node? dir = some ⟨s.options.get .bundleDirectory, some Tree.root, .folder⟩) :
    { s with tree, bundleDir }.Sound where
  rooted := hrooted
  directory := hdir
  folder := fun id hid => by
    rcases hfolder id hid with hdir | hold
    · exact .inl hdir
    · refine (h.folder id hold).imp (hkept id) fun hdisk => ?_
      obtain ⟨name, parent, hn⟩ := Tree.isFolder_iff.mp hold
      show s.disk.isFolder (tree.top ++ tree.names id) = true
      rw [hgrown.top, Tree.names_of_grown hgrown (Tree.lt_of_node? hn)]
      exact hdisk
  modules := fun m hm id hid => by
    have hs : s.Kept { s with tree, bundleDir } := ⟨rfl, rfl, hgrown, hkept⟩
    exact hs.stands (h.modules m hm id hid)
  numbered := h.numbered
  filed := fun b hb id hid =>
    Nat.lt_of_lt_of_le (h.filed b hb id hid) hgrown.size_le

theorem modifyFile (h : s.Sound) {f : FileState → FileState} (hf : ∀ st : FileState, st.Gains (f st))
    {tree : Tree} (htree : s.tree.modifyFile id f = .ok tree) : { s with tree }.Sound := by
  have hgrown : s.tree.Grown FileState.Gains tree := .modifyFile .refl hf htree
  exact h.of_grown hgrown (h.rooted.modifyFile htree)
    (fun id hid => .inr (Tree.isFolder_of_modifyFile htree hid)) (fun _ hd => hd)
    fun dir hd => hgrown.folder (h.directory dir hd)

/-- the bundle directory is in the source directory -/
theorem names_directory (h : s.Sound) {dir : NodeId} (hdir : s.bundleDir = some dir) :
    s.tree.names dir = [s.options.get .bundleDirectory] := by
  rw [Tree.names_child h.rooted (h.directory dir hdir), Tree.names_root h.rooted]
  rfl

/-- the nodes of files of the disk are files, unless the bundle directory hides one -/
theorem stands_graphOf (h : s.Sound) {r : RolledUp} (hr : OnDisk s.disk r.files) :
    ∀ id ∈ (graphOf s.tree r).files, s.Stands id := by
  intro id hid
  obtain ⟨q, hq, hnode⟩ := List.mem_filterMap.mp hid
  obtain ⟨hfile, hplain⟩ := hr q hq
  obtain ⟨hnames, hlt⟩ := Tree.names_of_nodeAt? h.rooted hplain hnode
  obtain ⟨⟨name, parent, kind⟩, hn⟩ : ∃ n, s.tree.node? id = some n :=
    ⟨_, Tree.node?_eq_some_iff.mpr ⟨hlt, rfl⟩⟩
  cases kind with
  | file st => exact .inl (Tree.isFile_iff.mpr ⟨st, Tree.file_eq_ok_iff.mpr ⟨_, _, hn⟩⟩)
  | folder =>
    have hfolder : s.tree.isFolder id = true := Tree.isFolder_iff.mpr ⟨_, _, hn⟩
    rcases h.folder id hfolder with hdir | hdisk
    · rw [hnames, h.names_directory hdir] at hfile
      exact .inr ⟨hdir, hfolder, hfile⟩
    · obtain ⟨content, hcontent⟩ := Disk.isFile_iff.mp hfile
      rw [← hnames, Disk.isFolder, hcontent] at hdisk
      exact nomatch hdisk

end Site.Sound

theorem Site.Sound.of_bundles (h : s.Sound) {bundles : List Bundle} {thrown : Nat}
    (hnumbered : ∀ {i : Nat} {b : Bundle}, bundles[i]? = some b → b.id = i)
    (hfiled : ∀ b ∈ bundles, ∀ id, b.node = some id → id < s.tree.nodes.size) :
    { s with bundles, thrown }.Sound :=
  ⟨h.rooted, h.directory, h.folder, h.modules, hnumbered, hfiled⟩

theorem Site.Sound.append (h : s.Sound) {x : Bundle} (hid : x.id = s.bundles.length)
    (hnode : ∀ n, x.node = some n → n < s.tree.nodes.size) :
    { s with bundles := s.bundles ++ [x] }.Sound := by
  refine h.of_bundles (id_of_getElem?_append h.numbered hid) fun c hc n hn => ?_
  rcases List.mem_append.mp hc with hc | hc
  · exact h.filed c hc n hn
  · exact hnode n (List.mem_singleton.mp hc ▸ hn)

/-! ## work -/

/-- why work may fail, whatever it rolls up -/
def Failure.Excused (blame : Text → Prop) (s : Site) (f : Failure) : Prop :=
  (∃ fault, f.cause = .disk fault) ∨ f.cause.isTransform = true ∨
    (f.cause = .outOfBounds ∧ ∃ code, blame code ∧ ImportsBackwards code) ∨
    ∃ id, s.Hides id ∧
      f.cause = .internal ("node " ++ toString id ++ " is a directory, expected a file")

variable {α β : Type} {blame : Text → Prop} {Q Q' : α → Site → Prop}

def Safely (blame : Text → Prop) (w : Work α) (s : Site) (Q : α → Site → Prop) : Prop :=
  Ends w s (fun a t => t.Sound ∧ s.Kept t ∧ Q a t) fun f t =>
    t.Sound ∧ s.Kept t ∧ f.Excused blame t

theorem Safely.mono {w : Work α} (h : Safely blame w s Q) (hQ : ∀ a t, Q a t → Q' a t) :
    Safely blame w s Q' :=
  Ends.mono h (fun a t ⟨ht, hk, hq⟩ => ⟨ht, hk, hQ a t hq⟩) fun _ _ he => he

/-- what work gives, with what is known of it -/
theorem Safely.yields {w : Work α} (h : Safely blame w s Q) :
    Safely blame w s fun a t => Yields w s a t ∧ Q a t := by
  unfold Safely Ends at h ⊢
  split at h
  · rename_i hw
    exact ⟨h.1, h.2.1, hw, h.2.2⟩
  · exact h

theorem Safely.mono_blame {blame' : Text → Prop} {w : Work α} (h : Safely blame w s Q)
    (hblame : ∀ code, blame code → blame' code) : Safely blame' w s Q :=
  Ends.mono h (fun _ _ hq => hq) fun _ _ ⟨ht, hst, hf⟩ => ⟨ht, hst, hf.imp_right <| .imp_right <|
    .imp_left fun ⟨hout, code, hcode, hback⟩ => ⟨hout, code, hblame code hcode, hback⟩⟩

/-- what is known when the work succeeds -/
theorem Safely.of_yields {w : Work α} {a : α} (h : Safely blame w s Q) (hw : Yields w s a t) :
    t.Sound ∧ s.Kept t ∧ Q a t := Ends.of_yields h hw

theorem Safely.kept {w : Work α} (h : Safely blame w s Q) :
    Safely blame w s fun a t => s.Kept t ∧ Q a t :=
  Ends.mono h (fun _ _ ⟨ht, hst, hq⟩ => ⟨ht, hst, hst, hq⟩) fun _ _ he => he

theorem safely_of_yields {w : Work α} {a : α} (hw : Yields w s a s) (h : s.Sound) (hQ : Q a s) :
    Safely blame w s Q := ends_of_yields hw ⟨h, .refl s, hQ⟩

theorem safely_pure {a : α} (h : s.Sound) (hQ : Q a s) : Safely blame (pure a) s Q :=
  ⟨h, .refl s, hQ⟩

theorem safely_throw {f : Failure} (h : s.Sound) (hf : f.Excused blame s) :
    Safely blame (throw f : Work α) s Q := ⟨h, .refl s, hf⟩

theorem safely_bind {w : Work β} {k : β → Work α} {P : β → Site → Prop} (hw : Safely blame w s P)
    (hk : ∀ b t, t.Sound → s.Kept t → P b t → Safely blame (k b) t Q) :
    Safely blame (w >>= k) s Q := by
  refine ends_bind.mpr (Ends.mono hw (fun b t ⟨ht, hst, hp⟩ => ?_) fun _ _ he => he)
  exact Ends.mono (hk b t ht hst hp) (fun a u ⟨hu, htu, hq⟩ => ⟨hu, hst.trans htu, hq⟩)
    fun f u ⟨hu, htu, hf⟩ => ⟨hu, hst.trans htu, hf⟩

@[simp] theorem safely_get_bind {k : Site → Work α} :
    Safely blame (get >>= k) s Q ↔ Safely blame (k s) s Q := Iff.rfl

theorem safely_lift_bind {r : Except Failure β} {k : β → Work α} (h : s.Sound)
    (hr : Results r (fun b => Safely blame (k b) s Q) (·.Excused blame s)) :
    Safely blame (lift r >>= k) s Q := by
  cases r with
  | ok b => exact hr
  | error f => exact ⟨h, .refl s, hr⟩

theorem safely_inActivity {activity : String} {w : Work α} (h : Safely blame w s Q) :
    Safely blame (inActivity activity w) s Q := ends_inActivity.mpr h

/-- a change of a site that its soundness survives -/
theorem safely_set_bind {k : PUnit → Work α} (h : t.Sound) (hst : s.Kept t)
    (hk : Safely blame (k ⟨⟩) t Q) : Safely blame (set t >>= k) s Q := by
  have hset : Safely blame (set t : Work PUnit) s fun _ u => u = t := ⟨h, hst, rfl⟩
  refine safely_bind hset fun _ u _ _ hu => ?_
  rw [hu]
  exact hk

theorem safely_modify_bind {g : Site → Site} {k : PUnit → Work α} (h : (g s).Sound)
    (hst : s.Kept (g s)) (hk : Safely blame (k ⟨⟩) (g s) Q) : Safely blame (modify g >>= k) s Q := by
  have hmodify : Safely blame (modify g : Work PUnit) s fun _ u => u = g s := ⟨h, hst, rfl⟩
  refine safely_bind hmodify fun _ u _ _ hu => ?_
  rw [hu]
  exact hk

theorem safely_note {events : List Event} {Q : Unit → Site → Prop} (h : s.Sound)
    (hQ : Q ⟨⟩ { s with journal := s.journal ++ events }) : Safely blame (note events) s Q :=
  ⟨⟨h.rooted, h.directory, h.folder, h.modules, h.numbered, h.filed⟩,
    ⟨rfl, rfl, .refl .refl _, fun _ hd => hd⟩, hQ⟩

/-- the bookkeeping of a file can be changed -/
theorem safely_modifyFile {f : FileState → FileState} (h : s.Sound) (hid : s.Stands id)
    (hf : ∀ st : FileState, st.Gains (f st)) :
    Safely blame (changeTree fun t => t.modifyFile id f) s fun _ t =>
      t.bundles = s.bundles ∧ ∃ st, s.tree.file id = .ok st ∧ t.tree.file id = .ok (f st) := by
  refine ends_changeTree.mpr ?_
  cases htree : s.tree.modifyFile id f with
  | ok tree =>
    exact ⟨h.modifyFile hf htree, .of_grown (.modifyFile .refl hf htree), rfl,
      Tree.file_of_modifyFile htree⟩
  | error e =>
    have hfile := Tree.modifyFile_eq_error htree
    refine ⟨h, .refl s, ?_⟩
    rcases hid with hid | hid
    · obtain ⟨st, hst⟩ := Tree.isFile_iff.mp hid
      rw [hst] at hfile
      exact nomatch hfile
    · refine .inr (.inr (.inr ⟨id, hid, ?_⟩))
      obtain ⟨name, parent, hn⟩ := Tree.isFolder_iff.mp hid.2.1
      rw [Tree.file, hn] at hfile
      rw [← Except.error.inj hfile]
      rfl

/-! ## loops -/

theorem safely_forM {l : List β} {f : β → Work PUnit} {I : Site → Prop} (h : s.Sound) (hI : I s)
    (hf : ∀ b ∈ l, ∀ t, t.Sound → s.Kept t → I t → Safely blame (f b) t fun _ => I) :
    Safely blame (l.forM f) s fun _ => I := by
  induction l generalizing s with
  | nil => exact safely_pure h hI
  | cons b l ih =>
    show Safely blame (f b >>= fun _ => l.forM f) s _
    refine safely_bind (hf b List.mem_cons_self s h (.refl s) hI) fun _ t ht hst hIt => ?_
    exact ih ht hIt fun c hc u hu htu => hf c (List.mem_cons_of_mem b hc) u hu (hst.trans htu)

/-- a loop that does something for each member, which later work keeps -/
theorem safely_forM_each {l : List β} {f : β → Work PUnit} {P : β → Site → Prop} (h : s.Sound)
    (hP : ∀ b t u, t.Kept u → P b t → P b u)
    (hf : ∀ b ∈ l, ∀ t, t.Sound → s.Kept t → Safely blame (f b) t fun _ => P b) :
    Safely blame (l.forM f) s fun _ t => ∀ b ∈ l, P b t := by
  induction l generalizing s with
  | nil => exact safely_pure h fun _ hb => absurd hb List.not_mem_nil
  | cons b l ih =>
    show Safely blame (f b >>= fun _ => l.forM f) s _
    refine safely_bind (hf b List.mem_cons_self s h (.refl s)) fun _ t ht hst hb => ?_
    have hrest : Safely blame (l.forM f) t fun _ u => t.Kept u ∧ ∀ c ∈ l, P c u :=
      (ih ht fun c hc u hu htu => hf c (List.mem_cons_of_mem b hc) u hu (hst.trans htu)).kept
    exact hrest.mono fun _ u ⟨htu, hl⟩ => List.forall_mem_cons.mpr ⟨hP b t u htu hb, hl⟩

theorem safely_mapM {l : List β} {f : β → Work α} {P : α → Prop} (h : s.Sound)
    (hf : ∀ b ∈ l, ∀ t, t.Sound → s.Kept t → Safely blame (f b) t fun a _ => P a) :
    Safely blame (l.mapM f) s fun as _ => ∀ a ∈ as, P a := by
  induction l generalizing s with
  | nil =>
    rw [List.mapM_nil]
    exact safely_pure h fun _ ha => absurd ha List.not_mem_nil
  | cons b l ih =>
    rw [List.mapM_cons]
    refine safely_bind (hf b List.mem_cons_self s h (.refl s)) fun a t ht hst ha => ?_
    refine safely_bind (ih ht fun c hc u hu htu =>
      hf c (List.mem_cons_of_mem b hc) u hu (hst.trans htu)) fun as u hu _ has => ?_
    exact safely_pure hu (List.forall_mem_cons.mpr ⟨ha, has⟩)

end SiteBundle
