import SiteBundle.Proofs.Bundle.Imported
import SiteBundle.Proofs.Bundle.Origin

/-!
# Graphs of modules

A module that is rolled up is kept with its graph: its code, and the nodes at the places of its files.
However much is bundled before and behind, the graph of a module is what rolling it up gives
(`Graph.Of`), so it does not matter when that was done (`Site.Steps.recalls`).

* `Tree.IsSource`   a file of the source directory; the bundler makes and takes none (`Site.Sourced`);
* `Site.Planted`    the tree has one root, and the bundle directory is a folder;
* `Graph.Of`        the graph of a module that rolls up, with every source file of it, the entry last.
-/

namespace SiteBundle

open Site Text

variable {written placed : NodeId → Prop} {s₀ s t u : Site} {id k entry : NodeId} {g : Graph}
  {r : RolledUp}

/-! ## files of the source directory -/

/-- a file that the bundler did not make -/
def Tree.IsSource (t : Tree) (id : NodeId) : Prop :=
  ∃ st, t.file id = .ok st ∧ st.generated = false

namespace Tree.IsSource
variable {t t' : Tree}

theorem lt (h : t.IsSource id) : id < t.nodes.size := by
  obtain ⟨st, hst, -⟩ := h
  exact lt_of_isFile (isFile_iff.mpr ⟨st, hst⟩)

theorem of_modifyFile {f : FileState → FileState} (htree : t.modifyFile id f = .ok t')
    (hmade : ∀ st, (f st).generated = st.generated) (h : t'.IsSource k) : t.IsSource k := by
  obtain ⟨st, hst, hsource⟩ := h
  obtain ⟨name, parent, hk⟩ := file_eq_ok_iff.mp hst
  obtain ⟨name', parent', st', hn, -, -, hnode⟩ := exists_modifyFile htree
  rw [hnode] at hk
  split at hk
  · rename_i hkid
    obtain ⟨-, -, hkind⟩ := Node.mk.inj (Option.some.inj hk)
    refine ⟨st', file_eq_ok_iff.mpr ⟨name', parent', hkid ▸ hn⟩, ?_⟩
    rw [← hmade, NodeKind.file.inj hkind]
    exact hsource
  · exact ⟨st, file_eq_ok_iff.mpr ⟨name, parent, hk⟩, hsource⟩

theorem of_add {parent : NodeId} {name : Text} {kind : NodeKind}
    (hkind : ∀ st, kind = .file st → st.generated = true)
    (h : (t.add parent name kind).1.IsSource k) : t.IsSource k := by
  obtain ⟨st, hst, hsource⟩ := h
  obtain ⟨name', parent', hk⟩ := file_eq_ok_iff.mp hst
  rw [node?_add] at hk
  split at hk
  · obtain ⟨-, -, hfile⟩ := Node.mk.inj (Option.some.inj hk)
    rw [hkind st hfile] at hsource
    exact nomatch hsource
  · exact ⟨st, file_eq_ok_iff.mpr ⟨name', parent', hk⟩, hsource⟩

end Tree.IsSource

/-- the bundler made and took no file of the source directory -/
structure Site.Sourced (s t : Site) : Prop where
  grown : s.tree.Grown FileState.SameOrigin t.tree
  source : ∀ {id}, t.tree.IsSource id → s.tree.IsSource id

namespace Site.Sourced

theorem refl (s : Site) : Sourced s s := ⟨.refl .refl _, fun h => h⟩

theorem isSource_iff (h : Sourced s t) : t.tree.IsSource id ↔ s.tree.IsSource id := by
  refine ⟨h.source, fun ⟨st, hst, hsource⟩ => ?_⟩
  obtain ⟨name, parent, hn⟩ := Tree.file_eq_ok_iff.mp hst
  obtain ⟨st', hn', hsame⟩ := h.grown.file hn
  exact ⟨st', Tree.file_eq_ok_iff.mpr ⟨name, parent, hn'⟩, Eq.trans hsame hsource⟩

theorem modifyFile (h : Sourced s t) {f : FileState → FileState} {tree : Tree}
    (htree : t.tree.modifyFile id f = .ok tree) (hmade : ∀ st, (f st).generated = st.generated) :
    Sourced s { t with tree } where
  grown := h.grown.trans (fun _ _ _ => .trans) (.modifyFile .refl hmade htree)
  source := fun hid => h.source (hid.of_modifyFile htree hmade)

end Site.Sourced

theorem Site.Steps.sourced (hst : Steps written placed s t) : Sourced s t := by
  refine hst.keeps (I := Sourced s) (fun u v huv h => ?_) (.refl s)
  cases huv with
  | mark hf htree hgain => exact h.modifyFile htree fun st => (hf st).2
  | write hid htree => exact h.modifyFile htree fun _ => rfl
  | make hnone hfile =>
    refine ⟨h.grown.trans (fun _ _ _ => .trans) (.add .refl _ _ _), fun hid => h.source (hid.of_add ?_)⟩
    exact fun _ => nofun
  | file hdir hb hnode =>
    refine ⟨h.grown.trans (fun _ _ _ => .trans) (.add .refl _ _ _), fun hid => h.source (hid.of_add ?_)⟩
    rintro st ⟨⟩
    rfl
  | _ => exact ⟨h.grown, h.source⟩

/-! ## trees with one root -/

/-- the tree has one root, and the bundle directory is a folder -/
structure Site.Planted (s : Site) : Prop where
  rooted : s.tree.Rooted
  directory : ∀ dir, s.bundleDir = some dir → s.tree.isFolder dir = true

theorem Site.Planted.modifyFile (h : s.Planted) {f : FileState → FileState} {tree : Tree}
    (htree : s.tree.modifyFile id f = .ok tree) : { s with tree }.Planted := by
  refine ⟨h.rooted.modifyFile htree, fun dir hdir => ?_⟩
  obtain ⟨name, parent, hn⟩ := Tree.isFolder_iff.mp (h.directory dir hdir)
  have hgrown : s.tree.Grown (fun _ _ => True) tree :=
    .modifyFile (fun _ => trivial) (fun _ => trivial) htree
  exact Tree.isFolder_iff.mpr ⟨name, parent, hgrown.folder hn⟩

theorem Site.Steps.planted (hst : Steps written placed s t) (h : s.Planted) : t.Planted := by
  refine hst.keeps (I := Planted) (fun u v huv h => ?_) h
  cases huv with
  | mark hf htree hgain => exact h.modifyFile htree
  | write hid htree => exact h.modifyFile htree
  | find hnone hn =>
    refine ⟨h.rooted, fun dir hdir => ?_⟩
    obtain rfl := Option.some.inj hdir
    exact Tree.isFolder_iff.mpr ⟨_, _, hn⟩
  | make hnone hfile =>
    refine ⟨h.rooted.add h.rooted.isFolder_root, fun dir hdir => ?_⟩
    obtain rfl := Option.some.inj hdir
    exact Tree.isFolder_iff.mpr ⟨_, _, Tree.node?_add_self⟩
  | file hdir hb hnode =>
    exact ⟨h.rooted.add (h.directory _ hdir), fun dir hdir' => Tree.isFolder_add (h.directory dir hdir')⟩
  | _ => exact ⟨h.rooted, h.directory⟩

/-- the node at the place of a file of the disk has that place -/
theorem place_of_nodeAt? {disk : Disk} (hdisk : disk.Proper) (htree : s.tree.Rooted) {p : Place}
    (hp : disk.isFile p = true) (hplain : p.Plain) (hk : s.tree.nodeAt? p = some k) :
    k < s.tree.nodes.size ∧ s.tree.place k = p := by
  obtain ⟨hplace, hlt⟩ := Tree.names_of_nodeAt? htree hplain hk
  obtain ⟨content, hfile⟩ := Disk.isFile_iff.mp hp
  have hne : p ≠ [] := by
    rintro rfl
    exact nomatch hfile
  have hnames := hdisk.names _ (Disk.mem_of_get? hne hfile)
  refine ⟨hlt, (Tree.place_eq fun name hname => hnames name ?_).trans hplace.symm⟩
  rw [hplace]
  exact List.mem_append_right _ hname

/-- a module that is rolled up is the last of its files -/
theorem getLast?_of_rollUpFile {disk : Disk} (hdisk : disk.Sound) {path : Place}
    (hr : rollUpFile disk path = .ok r) : r.files.getLast? = some (Place.normalised [] path) := by
  have hordered := ordered_rollUpFile hdisk path
  rw [hr] at hordered
  obtain ⟨listed, rest, h, -⟩ := hordered
  rw [h.files]
  exact h.closes.2

/-! ## graphs -/

/-- the graph of a module that rolls up: its code, and nodes at the places of its files -/
structure Graph.Of (s : Site) (entry : NodeId) (r : RolledUp) (g : Graph) : Prop where
  code : g.code = r.code
  placed : ∀ k ∈ g.files, k < s.tree.nodes.size ∧ s.tree.place k ∈ r.files
  /-- no file of the source directory is left out -/
  complete : ∀ k, s.tree.IsSource k → s.tree.place k ∈ r.files → k ∈ g.files
  last : s.tree.IsSource entry → g.files.getLast? = some entry

theorem Graph.Of.later (h : g.Of s entry r) (hst : Steps written placed s t) : g.Of t entry r := by
  have hkept := hst.kept
  have hsourced := hst.sourced
  refine ⟨h.code, fun k hk => ?_, fun k hk hmem => ?_, fun hentry => ?_⟩
  · obtain ⟨hlt, hmem⟩ := h.placed k hk
    exact ⟨Nat.lt_of_lt_of_le hlt hkept.grown.size_le, hkept.place hlt ▸ hmem⟩
  · have hk' := hsourced.isSource_iff.mp hk
    exact h.complete k hk' (hkept.place hk'.lt ▸ hmem)
  · exact h.last (hsourced.isSource_iff.mp hentry)

/-- a graph that was found later, when no nodes were added since -/
theorem Graph.Of.earlier (h : g.Of t entry r) (hst : Steps written placed s t)
    (hsize : t.tree.nodes.size = s.tree.nodes.size) : g.Of s entry r := by
  have hkept := hst.kept
  have hsourced := hst.sourced
  refine ⟨h.code, fun k hk => ?_, fun k hk hmem => ?_, fun hentry => ?_⟩
  · obtain ⟨hlt, hmem⟩ := h.placed k hk
    rw [hsize] at hlt
    exact ⟨hlt, hkept.place hlt ▸ hmem⟩
  · exact h.complete k (hsourced.isSource_iff.mpr hk) ((hkept.place hk.lt).symm ▸ hmem)
  · exact h.last (hsourced.isSource_iff.mpr hentry)

/-- what is kept of a module is what rolling it up again would give -/
def Site.Recalls (s : Site) (m : NodeId × Graph) : Prop := m.1 < s.tree.nodes.size ∧
  ∃ r, rollUpFile s.disk (s.tree.place m.1) = .ok r ∧ m.2.Of s m.1 r

theorem Site.Recalls.later {m : NodeId × Graph} (h : s.Recalls m) (hst : Steps written placed s t) :
    t.Recalls m := by
  obtain ⟨hlt, r, hr, hgraph⟩ := h
  refine ⟨Nat.lt_of_lt_of_le hlt hst.kept.grown.size_le, r, ?_, hgraph.later hst⟩
  rwa [hst.kept.disk, hst.kept.place hlt]

section
variable {o : Options} {disk : Disk} {dice : Nat → Nat}
variable (hdisk : disk.Proper) (hstart : ofDisk o disk dice = .ok s₀)
include hdisk hstart

theorem Site.Steps.planted_ofDisk (hst : Steps written placed s₀ s) : s.Planted := by
  obtain ⟨tree, hscan, rfl⟩ := ofDisk_eq_ok hstart
  exact hst.planted ⟨(Tree.folders_scan hdisk.sound hscan).1, nofun⟩

omit hdisk in
/-- the files of the source directory are those that the site began with -/
theorem Site.Steps.isSource_iff (hst : Steps written placed s₀ s) :
    s.tree.IsSource id ↔ s₀.tree.isFile id = true := by
  obtain ⟨tree, hscan, rfl⟩ := ofDisk_eq_ok hstart
  rw [hst.sourced.isSource_iff]
  refine ⟨fun ⟨st, hst, _⟩ => Tree.isFile_iff.mpr ⟨st, hst⟩, fun h => ?_⟩
  obtain ⟨st, hst⟩ := Tree.isFile_iff.mp h
  refine ⟨st, hst, ?_⟩
  rw [Tree.pristine_scan hscan id st hst]
  rfl

/-- a source file is found at its place -/
theorem Site.Steps.nodeAt?_place (hst : Steps written placed s₀ s) (hid : s.tree.IsSource id) :
    s.tree.nodeAt? (s.tree.place id) = some id := by
  have hid₀ := (hst.isSource_iff hstart).mp hid
  rw [hst.kept.place (Tree.lt_of_isFile hid₀)]
  exact nodeAt?_source hdisk hstart hid₀ hst.kept

theorem Site.Steps.graphOf (hst : Steps written placed s₀ s)
    (hr : rollUpFile s.disk (s.tree.place entry) = .ok r) :
    (SiteBundle.Site.graphOf s.tree r).Of s entry r := by
  have hsame : s₀.disk = disk := by
    obtain ⟨tree, -, rfl⟩ := ofDisk_eq_ok hstart
    rfl
  rw [hst.kept.disk, hsame] at hr
  obtain ⟨honDisk, -⟩ := files_of_rollUpFile hdisk.sound hr
  have hlast := getLast?_of_rollUpFile hdisk.sound hr
  refine ⟨rfl, fun k hk => ?_, fun k hk hmem => ?_, fun hentry => ?_⟩
  · obtain ⟨p, hp, hpk⟩ := List.mem_filterMap.mp hk
    obtain ⟨hfile, hplain⟩ := honDisk p hp
    obtain ⟨hlt, hplace⟩ :=
      place_of_nodeAt? hdisk (hst.planted_ofDisk hdisk hstart).rooted hfile hplain hpk
    exact ⟨hlt, hplace ▸ hp⟩
  · exact List.mem_filterMap.mpr ⟨_, hmem, hst.nodeAt?_place hdisk hstart hk⟩
  · have hid₀ := (hst.isSource_iff hstart).mp hentry
    have hplain : (s.tree.place entry).Plain := by
      rw [hst.kept.place (Tree.lt_of_isFile hid₀)]
      exact (place_source hdisk hstart hid₀).2
    rw [Place.normalised_plain hplain, List.nil_append] at hlast
    obtain ⟨front, hfront⟩ := List.getLast?_eq_some_iff.mp hlast
    show (r.files.filterMap s.tree.nodeAt?).getLast? = some entry
    rw [hfront, List.filterMap_append,
      List.filterMap_cons_some (hst.nodeAt?_place hdisk hstart hentry)]
    exact List.getLast?_concat

variable (hid : s₀.tree.isFile id = true)
include hid

/-- **Modules are remembered as they are**, whatever was done in between. -/
theorem Site.Steps.recalls (hst : Steps written placed s₀ s) : ∀ m ∈ s.modules, s.Recalls m := by
  have hkept := hst.keeps (I := fun u => Steps written placed s₀ u ∧ ∀ m ∈ u.modules, u.Recalls m)
    (fun u v huv ⟨hu, h⟩ => ?_) ⟨.refl s₀, ?_⟩
  · exact hkept.2
  · refine ⟨hu.trans (.one huv), ?_⟩
    have hstep : Steps written placed u v := .one huv
    have hold : ∀ m ∈ u.modules, v.Recalls m := fun m hm => (h m hm).later hstep
    cases huv with
    | @keep entry r hr =>
      refine List.forall_mem_append.mpr ⟨hold, List.forall_mem_singleton.mpr ?_⟩
      have hnew : u.Recalls (entry, Site.graphOf u.tree r) :=
        ⟨lt_of_rollUpFile hdisk hstart hid hu.kept hr, r, hr, hu.graphOf hdisk hstart hr⟩
      exact hnew.later hstep
    | _ => exact hold
  · obtain ⟨tree, -, rfl⟩ := ofDisk_eq_ok hstart
    exact fun m hm => absurd hm List.not_mem_nil

/-- a module that is rolled up has its graph, and tree and bundles stay as they are -/
theorem ends_rollUpModule_graph (hst : Steps written placed s₀ s) (entry : NodeId) :
    Ends (rollUpModule entry) s (fun g t => t.tree = s.tree ∧ t.bundles = s.bundles ∧
      ∃ r, rollUpFile s.disk (s.tree.place entry) = .ok r ∧ g.Of s entry r) fun _ _ => True := by
  unfold rollUpModule
  rw [ends_bind, ends_get]
  cases hfound : s.modules.find? (·.1 == entry) with
  | some m =>
    obtain ⟨-, r, hr, hgraph⟩ :=
      hst.recalls hdisk hstart hid m (List.mem_of_find?_eq_some hfound)
    have hentry := List.find?_some hfound
    rw [beq_iff_eq.mp hentry] at hr hgraph
    exact ⟨rfl, rfl, r, hr, hgraph⟩
  | none =>
    dsimp only
    rw [ends_bind, ends_note, ends_bind, ends_lift]
    cases hr : rollUpFile s.disk (s.tree.place entry) with
    | error f => trivial
    | ok r => exact ⟨rfl, rfl, r, rfl, hst.graphOf hdisk hstart hr⟩

end
end SiteBundle
