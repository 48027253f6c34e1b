import Mathlib.Data.List.Forall2
import SiteBundle.Proofs.Output.Planned
import SiteBundle.Proofs.Tree.Descendants

/-!
# Which nodes are planned

The plan of the output is told by the nodes that it has an entry for (`Site.Selects`):

* `Site.IsEntry`      the entry of a node: a folder, a file with new content, or a copy;
* `Site.selected`     the nodes that are not pruned, each folder before what is in it;
* `Site.Selects`      which files and which folders these are.

Pruning looks at a node and at what is in it, planning looks at a node only when the folder above it
is not pruned.  The two agree because what is below a pruned folder is pruned (`isPruned_of_below`):
such a folder matches an ignore pattern, which matches everything below, or all that is in it is
pruned.
-/

namespace SiteBundle

open Text

namespace Site

variable {s : Site} {patterns : List Text} {ignore keep : PathFilter} {id k : NodeId}

/-! ## entries -/

/-- the entry of a node -/
inductive IsEntry (s : Site) : NodeId → OutputEntry → Prop where
  | folder {id : NodeId} (h : s.tree.isFolder id = true) :
    IsEntry s id (.folder (s.tree.relativePath id))
  | write {id : NodeId} {st : FileState} {content : Text} (h : s.tree.file id = .ok st)
    (hcontent : st.override = some content) : IsEntry s id (.write (s.tree.relativePath id) content)
  | copy {id : NodeId} {st : FileState} (h : s.tree.file id = .ok st) (hcontent : st.override = none) :
    IsEntry s id (.copy (s.tree.relativePath id) (Place.text (s.tree.place id)))

theorem isFolder_or_file (hid : id < s.tree.nodes.size) :
    s.tree.isFolder id = true ∨ ∃ st, s.tree.file id = .ok st := by
  obtain ⟨⟨name, parent, kind⟩, hn⟩ : ∃ n, s.tree.node? id = some n :=
    ⟨_, Tree.node?_eq_some_iff.mpr ⟨hid, rfl⟩⟩
  cases kind with
  | folder => exact .inl (Tree.isFolder_iff.mpr ⟨name, parent, hn⟩)
  | file st => exact .inr ⟨st, Tree.file_eq_ok_iff.mpr ⟨name, parent, hn⟩⟩

theorem IsEntry.path {x : OutputEntry} (h : s.IsEntry id x) : x.path = s.tree.relativePath id := by
  cases h <;> rfl

theorem IsEntry.isFolder {x : OutputEntry} (h : s.IsEntry id x) : x.isFolder = !s.tree.isFile id := by
  cases h with
  | folder h =>
    rw [Tree.isFile_eq_false h]
    rfl
  | write h _ =>
    rw [Tree.isFile_iff.mpr ⟨_, h⟩]
    rfl
  | copy h _ =>
    rw [Tree.isFile_iff.mpr ⟨_, h⟩]
    rfl

theorem outputEntry_of_some {st : FileState} {content : Text} (h : s.tree.file id = .ok st)
    (hcontent : st.override = some content) :
    s.outputEntry id = .write (s.tree.relativePath id) content := by
  unfold outputEntry
  rw [h]
  dsimp only
  rw [hcontent]

theorem outputEntry_of_none {st : FileState} (h : s.tree.file id = .ok st)
    (hcontent : st.override = none) :
    s.outputEntry id = .copy (s.tree.relativePath id) (Place.text (s.tree.place id)) := by
  unfold outputEntry
  rw [h]
  dsimp only
  rw [hcontent]

theorem isEntry_outputEntry (hid : id < s.tree.nodes.size) : s.IsEntry id (s.outputEntry id) := by
  rcases isFolder_or_file hid with hfolder | ⟨st, hst⟩
  · unfold outputEntry
    obtain ⟨name, parent, hn⟩ := Tree.isFolder_iff.mp hfolder
    have hfile : s.tree.file id =
        .error (.of (.internal ("node " ++ toString id ++ " is a directory, expected a file"))) := by
      rw [Tree.file, hn]
    rw [hfile]
    exact .folder hfolder
  · cases hcontent : st.override with
    | none => exact outputEntry_of_none hst hcontent ▸ .copy hst hcontent
    | some content => exact outputEntry_of_some hst hcontent ▸ .write hst hcontent

/-! ## pruned nodes -/

/-- what is below a pruned folder is pruned -/
theorem isPruned_of_below (htree : s.tree.Rooted) (hignore : PathFilter.read patterns = .ok ignore)
    (hid : id ≠ Tree.root) (hk : s.tree.Below id k) (hpruned : s.isPruned ignore keep id = true) :
    s.isPruned ignore keep k = true := by
  rw [← Bool.not_eq_false] at hpruned ⊢
  refine fun hkept => hpruned ?_
  obtain ⟨p, hp, hk⟩ := hk
  -- from the node upwards, along parents
  induction hk generalizing k with
  | self => exact isPruned_parent htree hignore hp hid hkept
  | @step p q hq hq' ih =>
    have hroot : p ≠ Tree.root :=
      Nat.ne_of_gt (Nat.lt_of_le_of_lt (Nat.zero_le q) (htree.parent hq))
    exact ih (isPruned_parent htree hignore hp hroot hkept) hq

theorem isPruned_file_iff {st : FileState} (h : s.tree.file id = .ok st) :
    s.isPruned ignore keep id = false ↔ ignore.accepts (s.tree.relativePath id) = false ∧
      (keep.accepts (s.tree.relativePath id) = true ∨ s.survives id st = true) := by
  rw [isPruned_of_file (Tree.isFile_iff.mpr ⟨st, h⟩), isDropped, h]
  dsimp only
  cases ignore.accepts (s.tree.relativePath id) <;> cases keep.accepts (s.tree.relativePath id) <;>
    cases s.survives id st <;> decide

/-- a folder that is kept although empty ones are removed has a kept file below it -/
theorem exists_file_of_not_isPruned (hfolder : s.tree.isFolder id = true)
    (htree : s.tree.Rooted) (hremoves : s.options.get .removeEmptyDirectories = true)
    (hkept : s.isPruned ignore keep id = false) :
    ∃ f, s.tree.Below id f ∧ s.tree.isFile f = true ∧ s.isPruned ignore keep f = false := by
  induction id using Tree.descendants.induct s.tree with
  | case1 id ih =>
    rw [isPruned_eq, hremoves, hfolder, Bool.true_and, Bool.true_and] at hkept
    obtain ⟨c, hc, hkept⟩ := List.all_eq_false.mp (Bool.or_eq_false_iff.mp hkept).2
    rw [Bool.not_eq_true] at hkept
    have hp : s.tree.parent? c = some id := (Tree.mem_children htree).mp hc
    rcases isFolder_or_file (Tree.lt_of_mem_children hc).2 with hfolder | ⟨st, hst⟩
    · obtain ⟨f, hf, hfile⟩ := ih ⟨c, hc⟩ hfolder hkept
      exact ⟨f, (Tree.Within.step hp .self).below_trans hf, hfile⟩
    · exact ⟨c, ⟨id, hp, .self⟩, Tree.isFile_iff.mpr ⟨st, hst⟩, hkept⟩

theorem isPruned_folder_iff (htree : s.tree.Rooted)
    (hignore : PathFilter.read patterns = .ok ignore) (hfolder : s.tree.isFolder id = true)
    (hroot : id ≠ Tree.root) :
    s.isPruned ignore keep id = false ↔ ignore.accepts (s.tree.relativePath id) = false ∧
      (s.options.get .removeEmptyDirectories = true →
        ∃ f, s.tree.Below id f ∧ s.tree.isFile f = true ∧ s.isPruned ignore keep f = false) := by
  constructor
  · intro hkept
    exact ⟨not_ignored_of_isPruned hkept, fun hremoves =>
      exists_file_of_not_isPruned hfolder htree hremoves hkept⟩
  · rintro ⟨haccepts, hfile⟩
    cases hremoves : s.options.get .removeEmptyDirectories with
    | false => rw [isPruned, isDropped_of_folder hfolder haccepts, hremoves]; rfl
    | true =>
      obtain ⟨f, hf, -, hkept⟩ := hfile hremoves
      rw [← Bool.not_eq_true] at hkept ⊢
      exact fun hpruned => hkept (isPruned_of_below htree hignore hroot hf hpruned)

/-! ## the plan -/

/-- the nodes that are not pruned, each folder before what is in it -/
def selected (s : Site) (ignore keep : PathFilter) : List NodeId :=
  (s.tree.descendants Tree.root).filter fun id => !s.isPruned ignore keep id

theorem planBelow_eq_map (htree : s.tree.Rooted) (hignore : PathFilter.read patterns = .ok ignore)
    (id : NodeId) : s.planBelow ignore keep id =
      ((s.tree.descendants id).filter fun k => !s.isPruned ignore keep k).map s.outputEntry := by
  induction id using Tree.descendants.induct s.tree with
  | case1 id ih =>
    rw [planBelow_eq, Tree.descendants_eq, List.filter_flatMap, List.map_flatMap]
    refine List.flatMap_congr fun c hc => ?_
    cases hpruned : s.isPruned ignore keep c with
    | false =>
      rw [if_neg Bool.false_ne_true, ih ⟨c, hc⟩, List.filter_cons_of_pos (by rw [hpruned]; rfl),
        List.map_cons]
    | true =>
      have hroot : c ≠ Tree.root :=
        Nat.ne_of_gt (Nat.lt_of_le_of_lt (Nat.zero_le id) (Tree.lt_of_mem_children hc).1)
      -- nothing is planned below it either
      have hall : ∀ k ∈ c :: s.tree.descendants c, s.isPruned ignore keep k = true := by
        intro k hk
        rcases List.mem_cons.mp hk with rfl | hk
        · exact hpruned
        · exact isPruned_of_below htree hignore hroot ((Tree.mem_descendants_iff htree).mp hk) hpruned
      rw [if_pos rfl, List.filter_eq_nil_iff.mpr fun k hk => by
        rw [hall k hk]
        exact Bool.false_ne_true, List.map_nil]

theorem plan_eq_map (htree : s.tree.Rooted) (hignore : PathFilter.read patterns = .ok ignore) :
    s.plan ignore keep = (s.selected ignore keep).map s.outputEntry :=
  planBelow_eq_map htree hignore Tree.root

theorem mem_selected (htree : s.tree.Rooted) : id ∈ s.selected ignore keep ↔
    (id < s.tree.nodes.size ∧ id ≠ Tree.root) ∧ s.isPruned ignore keep id = false := by
  rw [selected, List.mem_filter, Tree.mem_descendants_root htree, Bool.not_eq_true']

/-- the folders that a selected node is in are selected -/
theorem selected_of_within (htree : s.tree.Rooted) (hignore : PathFilter.read patterns = .ok ignore)
    (hk : k ∈ s.selected ignore keep) (hid : s.tree.Within id k) (hroot : id ≠ Tree.root) :
    id ∈ s.selected ignore keep := by
  rcases hid.eq_or_below with rfl | hbelow
  · exact hk
  · obtain ⟨⟨hlt, -⟩, hkept⟩ := (mem_selected htree).mp hk
    refine (mem_selected htree).mpr ⟨⟨Nat.lt_trans (hbelow.lt htree) hlt, hroot⟩, ?_⟩
    rw [← Bool.not_eq_true] at hkept ⊢
    exact fun hpruned => hkept (isPruned_of_below htree hignore hroot hbelow hpruned)

theorem ne_root_of_file (htree : s.tree.Rooted) {st : FileState} (h : s.tree.file id = .ok st) :
    id ≠ Tree.root := by
  rintro rfl
  obtain ⟨name, parent, hn⟩ := Tree.file_eq_ok_iff.mp h
  obtain ⟨top, hroot⟩ := htree.root
  rw [hroot] at hn
  exact nomatch (Node.mk.inj (Option.some.inj hn)).2.2

/-- entries are those of the nodes that are meant to be in the output -/
structure Selects (s : Site) (ignore keep : PathFilter) (ids : List NodeId)
    (entries : List OutputEntry) : Prop where
  /-- there is one entry for each node -/
  entries : List.Forall₂ s.IsEntry ids entries
  once : ids.Nodup
  /-- a file that no ignore pattern matches, and that is kept or survives -/
  file : ∀ id st, s.tree.file id = .ok st → (id ∈ ids ↔
    ignore.accepts (s.tree.relativePath id) = false ∧
      (keep.accepts (s.tree.relativePath id) = true ∨ s.survives id st = true))
  /-- a folder that no ignore pattern matches; where empty ones are removed, it has a file below it -/
  folder : ∀ id, s.tree.isFolder id = true → (id ∈ ids ↔
    id ≠ Tree.root ∧ ignore.accepts (s.tree.relativePath id) = false ∧
      (s.options.get .removeEmptyDirectories = true →
        ∃ f ∈ ids, s.tree.isFile f = true ∧ s.tree.Below id f))
  /-- nothing comes before a folder that it is in -/
  order : ids.Pairwise fun a b => ¬ s.tree.Below b a

/-- **The plan has an entry for each node that is meant to be in the output, and for no other.** -/
theorem selects_plan (htree : s.tree.Rooted) (hignore : PathFilter.read patterns = .ok ignore)
    (keep : PathFilter) :
    s.Selects ignore keep (s.selected ignore keep) (s.plan ignore keep) where
  entries := by
    rw [plan_eq_map htree hignore, List.forall₂_map_right_iff, List.forall₂_same]
    exact fun id hid => isEntry_outputEntry ((mem_selected htree).mp hid).1.1
  once := (Tree.nodup_descendants htree Tree.root).filter _
  file := fun id st hst => by
    rw [mem_selected htree, isPruned_file_iff hst]
    have hlt := Tree.lt_of_isFile (Tree.isFile_iff.mpr ⟨st, hst⟩)
    exact and_iff_right ⟨hlt, ne_root_of_file htree hst⟩
  folder := fun id hfolder => by
    have hlt := Tree.lt_of_isFolder hfolder
    have hfiles : ∀ f, s.tree.isFile f = true →
        (f ∈ s.selected ignore keep ↔ s.isPruned ignore keep f = false) := by
      intro f hf
      obtain ⟨st, hst⟩ := Tree.isFile_iff.mp hf
      rw [mem_selected htree]
      exact and_iff_right ⟨Tree.lt_of_isFile hf, ne_root_of_file htree hst⟩
    rw [mem_selected htree, and_iff_right hlt]
    refine and_congr_right fun hroot => ?_
    rw [isPruned_folder_iff htree hignore hfolder hroot]
    refine and_congr_right fun _ => forall_congr' fun _ => exists_congr fun f => ?_
    constructor
    · rintro ⟨hbelow, hf, hkept⟩
      exact ⟨(hfiles f hf).mpr hkept, hf, hbelow⟩
    · rintro ⟨hkept, hf, hbelow⟩
      exact ⟨hbelow, hf, (hfiles f hf).mp hkept⟩
  order := ((Tree.pairwise_descendants htree Tree.root).filter _).imp fun hback hbelow =>
    hback hbelow.within

end Site

/-! ## a site with drafts -/

namespace Drafts

/-- a folder of drafts, a folder whose only script went into a bundle, and a page -/
def tree : Tree where
  top := ["src".toList]
  nodes := #[⟨[], none, .folder⟩, ⟨"drafts".toList, some 0, .folder⟩,
    ⟨"lib".toList, some 0, .folder⟩, ⟨"pages".toList, some 0, .folder⟩,
    ⟨"a.html".toList, some 1, .file ⟨none, false, [], false⟩⟩,
    ⟨"a.js".toList, some 2, .file ⟨none, false, [0], false⟩⟩,
    ⟨"index.html".toList, some 3, .file ⟨some "<p>".toList, false, [], false⟩⟩,
    ⟨"logo.png".toList, some 3, .file ⟨none, false, [], false⟩⟩]

def site : Site := .ofTree .defaults .empty tree fun _ => 0

def ignore : PathFilter := ((PathFilter.read ["drafts".toList]).toOption).getD .nothing

theorem read_ignore : PathFilter.read ["drafts".toList] = .ok ignore := by
  have hread : (PathFilter.read ["drafts".toList]).toOption.isSome = true := by decide +kernel
  unfold ignore
  cases h : PathFilter.read ["drafts".toList] with
  | ok f => rfl
  | error fault =>
    rw [h] at hread
    exact nomatch hread

theorem rooted_tree : tree.Rooted := by
  have hnode : ∀ {k n}, tree.node? k = some n → k < 8 := fun hn => Tree.lt_of_node? hn
  refine ⟨⟨[], rfl⟩, fun {k n} hn hnone => ?_, fun {k p} hp => ?_, fun {k p} hp => ?_⟩
  · have hall : ∀ k < 8, (tree.node? k).any (·.parent == none) = true → k = Tree.root := by
      decide +kernel
    exact hall k (hnode hn) (by rw [hn, Option.any_some, hnone]; rfl)
  · have hall : ∀ k < 8, (tree.parent? k).all (· < k) = true := by decide +kernel
    obtain ⟨name, kind, hn⟩ := Tree.node?_of_parent? hp
    have hlt := hall k (hnode hn)
    rw [hp] at hlt
    exact of_decide_eq_true hlt
  · have hall : ∀ k < 8, (tree.parent? k).all tree.isFolder = true := by decide +kernel
    obtain ⟨name, kind, hn⟩ := Tree.node?_of_parent? hp
    have hfolder := hall k (hnode hn)
    rw [hp] at hfolder
    exact hfolder

end Drafts

open Drafts in
/-- only the page and its picture are planned, with the folder that they are in -/
theorem selects_plan_drafts : site.tree.Rooted ∧
    PathFilter.read ["drafts".toList] = .ok ignore ∧
    site.selected ignore .nothing = [3, 6, 7] ∧
    site.Selects ignore .nothing [3, 6, 7] [.folder "pages".toList,
      .write "pages/index.html".toList "<p>".toList,
      .copy "pages/logo.png".toList "/src/pages/logo.png".toList] := by
  have hselected : site.selected ignore .nothing = [3, 6, 7] := by decide +kernel
  have hplan : site.plan ignore .nothing = [.folder "pages".toList,
      .write "pages/index.html".toList "<p>".toList,
      .copy "pages/logo.png".toList "/src/pages/logo.png".toList] := by decide +kernel
  have h := Site.selects_plan (s := site) rooted_tree read_ignore .nothing
  rw [hselected, hplan] at h
  exact ⟨rooted_tree, read_ignore, hselected, h⟩

end SiteBundle
