import Mathlib.Data.List.Pairwise
import SiteBundle.Proofs.Bundle.Placed
import SiteBundle.Proofs.Output.Prepared
import SiteBundle.Proofs.Tree.Mirrored

/-!
# Paths that are planned twice

The bundler chooses names for its files among its bundles, and does not look at the source directory.  So
a file of a bundle may get the path of a file that was there before (`Site.Overlap`).  Without such an
overlap, and only then, the entries of a plan are apart (`pairwise_apart_plan`): no two have one path,
and no path of a file is on the way to another entry.

* `from_planned`          what bundling leaves: the source nodes and what the bundler added;
* `OutputEntry.Apart`     two entries that can both be written;
* `Site.eq_of_names`      nodes of one name are one node, or overlap;
* `Site.nodup_plan`       without an overlap, no path is planned twice.
-/

namespace SiteBundle

open Site Text

section
variable {o : Options} {disk : Disk} {dice : Nat → Nat} {s₀ s t : Site} {patterns : List Text}
  {ignore keep : PathFilter} {report : Report} {entries : List OutputEntry}

/-! ## what bundling leaves -/

/-- documents are written to while they are bundled, and no other files -/
theorem steps_documents {overrides : Overrides} {l : List NodeId} (hl : ∀ id ∈ l, s.tree.isFile id = true)
    (hw : Yields (l.forM fun id => processMarkup id overrides) s ⟨⟩ t) :
    Steps (fun id => s.tree.isFile id = true) (fun _ => False) s t := by
  refine (stepwise_forM fun id hid => ?_).of_yields hw
  refine (stepwise_processMarkup id overrides).mono (fun k hk => ?_) fun _ h => h
  rw [hk]
  exact hl id hid

/-- bundling adds to the source nodes what belongs to bundles -/
theorem built_planned (hsite : ofDisk o disk dice = .ok s)
    (hplanned : Yields planned s (report, entries) t) : Built s t := by
  obtain ⟨tree, hscan, rfl⟩ := ofDisk_eq_ok hsite
  have hnew : tree.Pristine := Tree.pristine_scan hscan
  obtain ⟨ignore, keep, overrides, -, -, -, u, n, hdocuments, hhandled, -, -⟩ :=
    yields_planned.mp hplanned
  have hsu := steps_documents (fun _ => isFile_of_mem_documents) hdocuments
  have hu : Built (.ofTree o disk tree dice) u :=
    hsu.built hnew (fun _ hid => Tree.lt_of_isFile hid) (.start hnew)
  refine (steps_processHandled hhandled).built hnew (fun id hid => ?_) hu
  obtain ⟨st, hst, hmade⟩ := hid
  refine Nat.lt_of_not_le fun hle => ?_
  exact nomatch hmade.symm.trans (hu.generated_of_le hle hst)

/-- and each of the bundles has a name of its own -/
theorem from_planned (hsite : ofDisk o disk dice = .ok s)
    (hplanned : Yields planned s (report, entries) t)
    (hnames : o.get .randomBundleNames = true → t.bundles.length ≤ nameCount) : From s t := by
  refine ⟨built_planned hsite hplanned, (stepwise_planned.of_yields hplanned).catalogue ?_ ?_⟩
  · obtain ⟨tree, -, rfl⟩ := ofDisk_eq_ok hsite
    exact hnames
  · obtain ⟨tree, -, rfl⟩ := ofDisk_eq_ok hsite
    exact .nil

/-- bundles that are made in the place of files are left in these files -/
theorem inPlace_planned (hs : s.Proper) (hsite : ofDisk o disk dice = .ok s)
    (hplanned : Yields planned s (report, entries) t) : ∃ done, t.InPlace done := by
  obtain ⟨tree, -, rfl⟩ := ofDisk_eq_ok hsite
  obtain ⟨ignore, keep, overrides, -, -, -, u, n, hdocuments, hhandled, -, -⟩ :=
    yields_planned.mp hplanned
  have hsu := steps_documents (fun _ => isFile_of_mem_documents) hdocuments
  refine inPlace_processHandled (hsu.proper hs).rooted ?_ hhandled
  exact hsu.inPlace nofun (fun _ => not_false) fun _ hb => absurd hb List.not_mem_nil

/-! ## entries that can both be written -/

/-- neither entry has the path of the other, and no file is on the way to the other -/
def OutputEntry.Apart (x y : OutputEntry) : Prop :=
  x.path ≠ y.path ∧ (x.isFolder = false → ∀ rest, y.path ≠ x.path ++ '/' :: rest) ∧
    (y.isFolder = false → ∀ rest, x.path ≠ y.path ++ '/' :: rest)

theorem OutputEntry.Apart.symm {x y : OutputEntry} (h : x.Apart y) : y.Apart x :=
  ⟨h.1.symm, h.2.2, h.2.1⟩

/-- a source node, one of the first `n`, and a node that was added have the same names -/
def Site.Overlap (s : Site) (n : Nat) (ids : List NodeId) : Prop :=
  ∃ a ∈ ids, ∃ b ∈ ids, a < n ∧ n ≤ b ∧ s.tree.names a = s.tree.names b

/-- nodes of one name are one node, or overlap -/
theorem Site.eq_of_names (hfrom : From s t) (ht : t.tree.Rooted)
    (hsource : ∀ a b, a < s.tree.nodes.size → b < s.tree.nodes.size →
      s.tree.names a = s.tree.names b → a = b)
    (hover : ¬ t.Overlap s.tree.nodes.size (t.selected ignore keep)) {a b : NodeId}
    (ha : a ∈ t.selected ignore keep) (hb : b ∈ t.selected ignore keep)
    (hab : t.tree.names a = t.tree.names b) : a = b := by
  have hlt : ∀ {k}, k ∈ t.selected ignore keep → k < t.tree.nodes.size :=
    fun hk => ((mem_selected ht).mp hk).1.1
  rcases Nat.lt_or_ge a s.tree.nodes.size with ha' | ha' <;>
    rcases Nat.lt_or_ge b s.tree.nodes.size with hb' | hb'
  · rw [Tree.names_of_grown hfrom.source ha', Tree.names_of_grown hfrom.source hb'] at hab
    exact hsource a b ha' hb' hab
  · exact absurd ⟨a, ha, b, hb, ha', hb', hab⟩ hover
  · exact absurd ⟨b, hb, a, ha, hb', ha', hab.symm⟩ hover
  · exact hfrom.eq_of_names ht (hlt ha) (hlt hb) ha' hb' hab

theorem Site.pathPieces_outputEntry (ht : t.Proper) {k : NodeId} (hk : k ∈ t.selected ignore keep) :
    pathPieces (t.outputEntry k).path = t.tree.names k := by
  rw [(isEntry_outputEntry ((mem_selected ht.rooted).mp hk).1.1).path]
  exact pathPieces_join (ht.names k)

/-- without an overlap, no path is planned twice -/
theorem Site.nodup_plan (hfrom : From s t) (ht : t.Proper)
    (hsource : ∀ a b, a < s.tree.nodes.size → b < s.tree.nodes.size →
      s.tree.names a = s.tree.names b → a = b)
    (hignore : PathFilter.read patterns = .ok ignore)
    (hover : ¬ t.Overlap s.tree.nodes.size (t.selected ignore keep)) :
    ((t.plan ignore keep).map fun x => pathPieces x.path).Nodup := by
  rw [plan_eq_map ht.rooted hignore, List.map_map]
  refine ((Tree.nodup_descendants ht.rooted Tree.root).filter _).map_on fun a ha b hb hab => ?_
  rw [Function.comp_apply, Function.comp_apply, pathPieces_outputEntry ht ha,
    pathPieces_outputEntry ht hb] at hab
  exact eq_of_names hfrom ht.rooted hsource hover ha hb hab

/-- **The entries of a plan are apart if, and only if, no file of the source has the path of a node
that the bundler added.** -/
theorem pairwise_apart_plan (hfrom : From s t) (ht : t.Proper)
    (hsource : ∀ a b, a < s.tree.nodes.size → b < s.tree.nodes.size →
      s.tree.names a = s.tree.names b → a = b)
    (hignore : PathFilter.read patterns = .ok ignore) :
    (t.plan ignore keep).Pairwise OutputEntry.Apart ↔
      ¬ t.Overlap s.tree.nodes.size (t.selected ignore keep) := by
  have hentry : ∀ {k}, k ∈ t.selected ignore keep → t.IsEntry k (t.outputEntry k) :=
    fun hk => isEntry_outputEntry ((mem_selected ht.rooted).mp hk).1.1
  constructor
  · intro hapart ⟨a, ha, b, hb, ha', hb', hab⟩
    rw [plan_eq_map ht.rooted hignore, List.pairwise_map] at hapart
    have hsymm : Std.Symm fun a b => (t.outputEntry a).Apart (t.outputEntry b) :=
      ⟨fun _ _ h => h.symm⟩
    refine (hapart.forall ha hb (Nat.ne_of_lt (Nat.lt_of_lt_of_le ha' hb'))).1 ?_
    rw [(hentry ha).path, (hentry hb).path, Tree.relativePath, Tree.relativePath, hab]
  · intro hover
    have hone : ∀ {a b}, a ∈ t.selected ignore keep → b ∈ t.selected ignore keep →
        t.tree.names a = t.tree.names b → a = b :=
      fun ha hb => eq_of_names hfrom ht.rooted hsource hover ha hb
    have hpath : ∀ {a b}, a ∈ t.selected ignore keep → b ∈ t.selected ignore keep → a ≠ b →
        (t.outputEntry a).path ≠ (t.outputEntry b).path := by
      intro a b ha hb hne heq
      refine hne (hone ha hb ?_)
      rw [← pathPieces_outputEntry ht ha, ← pathPieces_outputEntry ht hb, heq]
    -- a file on the way to an entry has the names of a folder that is planned
    have hway : ∀ {a b}, a ∈ t.selected ignore keep → b ∈ t.selected ignore keep → a ≠ b →
        (t.outputEntry a).isFolder = false →
        ∀ rest, (t.outputEntry b).path ≠ (t.outputEntry a).path ++ '/' :: rest := by
      intro a b ha hb hne hfile rest heq
      have hnames : t.tree.names b = t.tree.names a ++ pathPieces rest := by
        rw [← pathPieces_outputEntry ht ha, ← pathPieces_outputEntry ht hb, heq,
          pathPieces_append_slash]
      obtain ⟨⟨hlt, -⟩, -⟩ := (mem_selected ht.rooted).mp hb
      obtain ⟨c, hc, hcnames⟩ := Tree.exists_within ht.rooted hlt hnames
      have hroot : c ≠ Tree.root := by
        rintro rfl
        rw [Tree.names_root ht.rooted] at hcnames
        obtain ⟨⟨halt, haroot⟩, -⟩ := (mem_selected ht.rooted).mp ha
        exact Tree.names_ne_nil ht.rooted halt haroot hcnames.symm
      have hca : c = a :=
        hone (selected_of_within ht.rooted hignore hb hc hroot) ha hcnames
      subst hca
      rcases hc.eq_or_below with rfl | hbelow
      · exact hne rfl
      · rw [(hentry ha).isFolder, Tree.isFile_eq_false (hbelow.isFolder ht.rooted)] at hfile
        exact nomatch hfile
    rw [plan_eq_map ht.rooted hignore, List.pairwise_map]
    have honce : (t.selected ignore keep).Nodup :=
      (Tree.nodup_descendants ht.rooted Tree.root).filter _
    exact honce.pairwise_of_forall_ne fun a ha b hb hne =>
      ⟨hpath ha hb hne, hway ha hb hne, hway hb ha hne.symm⟩

end
end SiteBundle
