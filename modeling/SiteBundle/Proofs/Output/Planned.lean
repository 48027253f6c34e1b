import SiteBundle.Output.Plan
import SiteBundle.Proofs.Glob.Below
import SiteBundle.Proofs.Tree.Rooted

/-!
# What is planned for the output

A file that is not left out for its own sake is part of the plan, wherever it is in the tree
(`outputEntry_mem_plan`): no folder above it is left out.

* none matches an ignore pattern, because such a pattern matches everything below;
* none is empty, because something below it is not left out;
* a folder is never dropped for another reason.
-/

namespace SiteBundle

open Text

/-! ## paths -/

theorem join_append_singleton {sep : Text} {l : List Text} (hl : l ≠ []) (t : Text) :
    join sep (l ++ [t]) = join sep l ++ sep ++ t := by
  induction l with
  | nil => exact absurd rfl hl
  | cons u l ih =>
    cases l with
    | nil => rfl
    | cons v l =>
      show u ++ sep ++ join sep ((v :: l) ++ [t]) = u ++ sep ++ join sep (v :: l) ++ sep ++ t
      rw [ih (List.cons_ne_nil v l)]
      simp only [List.append_assoc]

/-- the path of a node behind that of the folder that it is in -/
theorem Tree.relativePath_child {t : Tree} (h : t.Rooted) {id p : NodeId} {name : Text}
    {kind : NodeKind} (hn : t.node? id = some ⟨name, some p, kind⟩) (hp : p ≠ Tree.root) :
    t.relativePath id = t.relativePath p ++ '/' :: name := by
  obtain ⟨⟨name', parent, kind'⟩, hnode⟩ : ∃ n, t.node? p = some n :=
    ⟨_, Tree.node?_eq_some_iff.mpr ⟨h.parent_lt (Tree.parent?_of_node? hn), rfl⟩⟩
  have hne : t.names p ≠ [] := by
    cases parent with
    | none => exact absurd (h.alone hnode rfl) hp
    | some q =>
      rw [Tree.names_child h hnode]
      exact List.concat_ne_nil _ _
  unfold Tree.relativePath
  rw [Tree.names_child h hn, join_append_singleton hne, List.append_assoc]
  rfl

theorem Tree.mem_children_of_parent? {t : Tree} (h : t.Rooted) {id p : NodeId}
    (hp : t.parent? id = some p) : id ∈ t.children p :=
  Tree.mem_children_iff.mpr ⟨h.folder hp, h.parent hp, hp⟩

/-! ## folders -/

variable {s : Site} {patterns : List Text} {ignore keep : PathFilter} {id p : NodeId}

namespace Site

theorem isDropped_of_folder (h : s.tree.isFolder id = true)
    (hignore : ignore.accepts (s.tree.relativePath id) = false) :
    s.isDropped ignore keep id = false := by
  obtain ⟨name, parent, hn⟩ := Tree.isFolder_iff.mp h
  have hfile : s.tree.file id =
      .error (.of (.internal ("node " ++ toString id ++ " is a directory, expected a file"))) := by
    rw [Tree.file, hn]
  unfold isDropped
  dsimp only
  rw [hignore, hfile, if_neg Bool.false_ne_true]
  split <;> rfl

theorem isPruned_eq (s : Site) (ignore keep : PathFilter) (id : NodeId) :
    s.isPruned ignore keep id = (s.isDropped ignore keep id ||
      (s.options.get .removeEmptyDirectories && s.tree.isFolder id &&
        (s.tree.children id).all (s.isPruned ignore keep))) := by
  have hall : ((s.tree.children id).attach.map Subtype.val).all (s.isPruned ignore keep) =
      (s.tree.children id).attach.all fun k => s.isPruned ignore keep k.1 := List.all_map
  rw [isPruned, ← hall, List.attach_map_subtype_val]

theorem isPruned_of_file (h : s.tree.isFile id = true) :
    s.isPruned ignore keep id = s.isDropped ignore keep id := by
  obtain ⟨st, hst⟩ := Tree.isFile_iff.mp h
  obtain ⟨name, parent, hn⟩ := Tree.file_eq_ok_iff.mp hst
  have hfolder : s.tree.isFolder id = false := by rw [Tree.isFolder, hn]
  rw [isPruned, hfolder, Bool.and_false, Bool.false_and, Bool.or_false]

theorem not_ignored_of_isDropped (h : s.isDropped ignore keep id = false) :
    ignore.accepts (s.tree.relativePath id) = false := by
  cases haccepts : ignore.accepts (s.tree.relativePath id) with
  | false => rfl
  | true =>
    rw [isDropped, haccepts] at h
    exact nomatch h

theorem not_ignored_of_isPruned (h : s.isPruned ignore keep id = false) :
    ignore.accepts (s.tree.relativePath id) = false := by
  rw [isPruned_eq] at h
  exact not_ignored_of_isDropped (Bool.or_eq_false_iff.mp h).1

/-- the folder above a node that is not left out is not left out either -/
theorem isPruned_parent (htree : s.tree.Rooted) (hignore : PathFilter.read patterns = .ok ignore)
    (hp : s.tree.parent? id = some p) (hroot : p ≠ Tree.root)
    (hpruned : s.isPruned ignore keep id = false) : s.isPruned ignore keep p = false := by
  obtain ⟨name, kind, hn⟩ := Tree.node?_of_parent? hp
  have haccepts : ignore.accepts (s.tree.relativePath p) = false := by
    have hid := not_ignored_of_isPruned hpruned
    rw [Tree.relativePath_child htree hn hroot] at hid
    refine Bool.eq_false_iff.mpr fun hp => ?_
    rw [PathFilter.accepts_below hignore hp name] at hid
    exact nomatch hid
  rw [isPruned_eq, isDropped_of_folder (htree.folder hp) haccepts, Bool.false_or,
    Bool.and_eq_false_iff]
  refine .inr (List.all_eq_false.mpr ⟨id, Tree.mem_children_of_parent? htree hp, ?_⟩)
  rw [hpruned]
  exact Bool.false_ne_true

/-! ## the plan -/

theorem planBelow_eq (s : Site) (ignore keep : PathFilter) (id : NodeId) :
    s.planBelow ignore keep id = (s.tree.children id).flatMap fun k =>
      if s.isPruned ignore keep k then [] else s.outputEntry k :: s.planBelow ignore keep k := by
  rw [planBelow, ← List.flatMap_map Subtype.val fun k =>
    if s.isPruned ignore keep k then [] else s.outputEntry k :: s.planBelow ignore keep k,
    List.attach_map_subtype_val]

theorem mem_planBelow {k : NodeId} (hk : k ∈ s.tree.children p)
    (hpruned : s.isPruned ignore keep k = false) :
    ∀ e ∈ s.outputEntry k :: s.planBelow ignore keep k, e ∈ s.planBelow ignore keep p := by
  intro e he
  rw [planBelow_eq, List.mem_flatMap]
  refine ⟨k, hk, ?_⟩
  rw [hpruned]
  exact he

/-- what is not left out is in the plan, with what is below it -/
theorem mem_plan (htree : s.tree.Rooted) (hignore : PathFilter.read patterns = .ok ignore)
    (hp : s.tree.parent? id = some p) (hpruned : s.isPruned ignore keep id = false) :
    ∀ e ∈ s.outputEntry id :: s.planBelow ignore keep id, e ∈ s.plan ignore keep := by
  induction id using Nat.strongRecOn generalizing p with
  | _ id ih =>
    intro e he
    have hchild := Tree.mem_children_of_parent? htree hp
    have hbelow := mem_planBelow hchild hpruned e he
    by_cases hroot : p = Tree.root
    · subst hroot
      exact hbelow
    · have hkept := isPruned_parent htree hignore hp hroot hpruned
      obtain ⟨⟨name, parent, kind⟩, hn⟩ : ∃ n, s.tree.node? p = some n :=
        ⟨_, Tree.node?_eq_some_iff.mpr ⟨htree.parent_lt hp, rfl⟩⟩
      cases parent with
      | none => exact absurd (htree.alone hn rfl) hroot
      | some q =>
        exact ih p (htree.parent hp) (Tree.parent?_of_node? hn) hkept e
          (List.mem_cons_of_mem _ hbelow)

/-- **A file that is not left out for its own sake is part of the plan.** -/
theorem outputEntry_mem_plan (htree : s.tree.Rooted)
    (hignore : PathFilter.read patterns = .ok ignore) (hid : s.tree.isFile id = true)
    (hkept : s.isDropped ignore keep id = false) : s.outputEntry id ∈ s.plan ignore keep := by
  obtain ⟨st, hst⟩ := Tree.isFile_iff.mp hid
  obtain ⟨name, parent, hn⟩ := Tree.file_eq_ok_iff.mp hst
  have hpruned : s.isPruned ignore keep id = false := (isPruned_of_file hid).trans hkept
  cases parent with
  | none =>
    obtain ⟨top, hroot⟩ := htree.root
    rw [htree.alone hn rfl, hroot] at hn
    exact nomatch (Node.mk.inj (Option.some.inj hn)).2.2
  | some p =>
    exact mem_plan htree hignore (Tree.parent?_of_node? hn) hpruned _ List.mem_cons_self

end Site
end SiteBundle
