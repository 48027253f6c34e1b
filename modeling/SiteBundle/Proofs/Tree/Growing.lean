import SiteBundle.Tree.Basic

/-!
# Trees that grow

A tree only changes in two ways: a node is added behind all others, or the bookkeeping of a file is
changed.  Both are told by what stands under a number afterwards (`node?_add`, `exists_modifyFile`).

`Grown R t t'` sums such changes up.  Every node of `t` is a node of `t'` with the same name and
parent; folders are folders, and the bookkeeping of a file went from one state to another that `R`
relates it to.
-/

namespace SiteBundle

/-- what a node may become when the bookkeeping of files changes as `R` says -/
def NodeKind.Becomes (R : FileState → FileState → Prop) : NodeKind → NodeKind → Prop
  | .folder, k => k = .folder
  | .file st, k => ∃ st', k = .file st' ∧ R st st'

theorem NodeKind.Becomes.refl {R : FileState → FileState → Prop} (hR : ∀ st, R st st) :
    ∀ kind : NodeKind, kind.Becomes R kind
  | .folder => rfl
  | .file st => ⟨st, rfl, hR st⟩

namespace Tree

variable {t t' t'' : Tree} {id k : NodeId}

/-! ## Nodes -/

theorem node?_eq_some_iff {n : Node} : t.node? id = some n ↔ ∃ h : id < t.nodes.size, t.nodes[id] = n :=
  Array.getElem?_eq_some_iff

theorem lt_of_node? {n : Node} (h : t.node? id = some n) : id < t.nodes.size :=
  (node?_eq_some_iff.mp h).1

theorem node?_size : t.node? t.nodes.size = none := Array.getElem?_eq_none (Nat.le_refl _)

theorem file_eq_ok_iff {st : FileState} :
    t.file id = .ok st ↔ ∃ name parent, t.node? id = some ⟨name, parent, .file st⟩ := by
  unfold file
  cases h : t.node? id with
  | none => simp
  | some n =>
    obtain ⟨name, parent, kind⟩ := n
    cases kind <;> simp

theorem isFile_iff : t.isFile id = true ↔ ∃ st, t.file id = .ok st := by
  unfold isFile file
  cases h : t.node? id with
  | none => simp
  | some n =>
    obtain ⟨name, parent, kind⟩ := n
    cases kind <;> simp

theorem isFolder_iff : t.isFolder id = true ↔ ∃ name parent, t.node? id = some ⟨name, parent, .folder⟩ := by
  unfold isFolder
  cases h : t.node? id with
  | none => simp
  | some n =>
    obtain ⟨name, parent, kind⟩ := n
    cases kind <;> simp

theorem node?_of_parent? {p : NodeId} (h : t.parent? id = some p) :
    ∃ name kind, t.node? id = some ⟨name, some p, kind⟩ := by
  unfold parent? at h
  obtain ⟨⟨name, parent, kind⟩, hn, hp⟩ := Option.bind_eq_some_iff.mp h
  exact ⟨name, kind, by rw [hn, ← hp]⟩

theorem mem_children_iff : k ∈ t.children id ↔
    t.isFolder id = true ∧ id < k ∧ t.parent? k = some id := by
  have hlt : t.parent? k = some id → k < t.nodes.size := fun h => by
    obtain ⟨name, kind, hn⟩ := node?_of_parent? h
    exact lt_of_node? hn
  unfold children
  by_cases h : t.isFolder id = true
  · rw [if_pos h, List.mem_filter, List.mem_range, Bool.and_eq_true, decide_eq_true_iff, beq_iff_eq]
    exact ⟨fun hk => ⟨h, hk.2⟩, fun hk => ⟨hlt hk.2.2, hk.2⟩⟩
  · rw [if_neg h]
    exact ⟨nofun, fun hk => absurd hk.1 h⟩

theorem childNamed?_eq_some {name : Text} (h : t.childNamed? id name = some k) :
    k ∈ t.children id ∧ ∃ kind, t.node? k = some ⟨name, some id, kind⟩ := by
  have hmem : k ∈ t.children id := List.mem_of_find?_eq_some h
  have hname := List.find?_some h
  obtain ⟨name', kind, hn⟩ := node?_of_parent? (mem_children_iff.mp hmem).2.2
  rw [hn, Option.any_some, beq_iff_eq] at hname
  exact ⟨hmem, kind, by rw [hn, ← hname]⟩

/-- a child with the name that is no file -/
theorem folder_of_childNamed? {name : Text}
    (h : (t.childNamed? id name).filter (fun k => !t.isFile k) = some k) :
    t.node? k = some ⟨name, some id, .folder⟩ := by
  obtain ⟨hchild, hnot⟩ := Option.filter_eq_some_iff.mp h
  obtain ⟨-, kind, hn⟩ := childNamed?_eq_some hchild
  cases kind with
  | folder => exact hn
  | file st =>
    rw [isFile_iff.mpr ⟨st, file_eq_ok_iff.mpr ⟨_, _, hn⟩⟩] at hnot
    exact nomatch hnot

/-! ## The two changes -/

section
variable {parent : NodeId} {name : Text} {kind : NodeKind}

theorem node?_add : (t.add parent name kind).1.node? k =
    if k = t.nodes.size then some ⟨name, some parent, kind⟩ else t.node? k :=
  Array.getElem?_push

theorem node?_add_self :
    (t.add parent name kind).1.node? t.nodes.size = some ⟨name, some parent, kind⟩ := by
  rw [node?_add, if_pos rfl]

theorem node?_add_of_some {n : Node} (h : t.node? k = some n) :
    (t.add parent name kind).1.node? k = some n := by
  rw [node?_add, if_neg (Nat.ne_of_lt (lt_of_node? h)), h]

end

/-- changed bookkeeping: one file has it, nothing else is touched -/
theorem exists_modifyFile {f : FileState → FileState} (h : t.modifyFile id f = .ok t') :
    ∃ name parent st, t.node? id = some ⟨name, parent, .file st⟩ ∧ t'.top = t.top ∧
      t'.nodes.size = t.nodes.size ∧
      ∀ k, t'.node? k = if k = id then some ⟨name, parent, .file (f st)⟩ else t.node? k := by
  unfold modifyFile at h
  cases hf : t.file id with
  | error e =>
    rw [hf] at h
    exact nomatch h
  | ok st =>
    rw [hf] at h
    obtain rfl := Except.ok.inj h
    obtain ⟨name, parent, hn⟩ := file_eq_ok_iff.mp hf
    refine ⟨name, parent, st, hn, rfl, Array.size_modify, fun k => ?_⟩
    show (t.nodes.modify id _)[k]? = _
    rw [Array.getElem?_modify]
    by_cases hk : k = id
    · rw [if_pos hk, if_pos hk.symm, hk, show t.nodes[id]? = _ from hn]
      rfl
    · rw [if_neg hk, if_neg (Ne.symm hk)]
      rfl

theorem modifyFile_eq_error {f : FileState → FileState} {e : Failure}
    (h : t.modifyFile id f = .error e) : t.file id = .error e := by
  unfold modifyFile at h
  cases hf : t.file id with
  | error e' =>
    rw [hf] at h
    exact congrArg Except.error (Except.error.inj h)
  | ok st =>
    rw [hf] at h
    exact nomatch h

theorem file_of_modifyFile {f : FileState → FileState} (h : t.modifyFile id f = .ok t') :
    ∃ st, t.file id = .ok st ∧ t'.file id = .ok (f st) := by
  obtain ⟨name, parent, st, hn, -, -, hnode⟩ := exists_modifyFile h
  refine ⟨st, file_eq_ok_iff.mpr ⟨name, parent, hn⟩, file_eq_ok_iff.mpr ⟨name, parent, ?_⟩⟩
  rw [hnode, if_pos rfl]

theorem isFolder_of_modifyFile {f : FileState → FileState} (h : t.modifyFile id f = .ok t')
    (hk : t'.isFolder k = true) : t.isFolder k = true := by
  obtain ⟨name, parent, st, -, -, -, hnode⟩ := exists_modifyFile h
  obtain ⟨name', parent', hn⟩ := isFolder_iff.mp hk
  rw [hnode k] at hn
  split at hn
  · exact nomatch hn
  · exact isFolder_iff.mpr ⟨name', parent', hn⟩

/-! ## Growing -/

/-- each node of `t` stays, up to its bookkeeping -/
structure Grown (R : FileState → FileState → Prop) (t t' : Tree) : Prop where
  top : t'.top = t.top
  node : ∀ {id name parent kind}, t.node? id = some ⟨name, parent, kind⟩ →
    ∃ kind', t'.node? id = some ⟨name, parent, kind'⟩ ∧ kind.Becomes R kind'

namespace Grown
variable {R : FileState → FileState → Prop}

theorem refl (hR : ∀ st, R st st) (t : Tree) : Grown R t t where
  top := rfl
  node := fun h => ⟨_, h, .refl hR _⟩

theorem trans (hR : ∀ a b c, R a b → R b c → R a c) (h : Grown R t t') (h' : Grown R t' t'') :
    Grown R t t'' where
  top := h'.top.trans h.top
  node := fun {_ _ _ kind} hn => by
    obtain ⟨kind', hn', hk⟩ := h.node hn
    obtain ⟨kind'', hn'', hk'⟩ := h'.node hn'
    refine ⟨kind'', hn'', ?_⟩
    cases kind with
    | folder =>
      obtain rfl : kind' = .folder := hk
      exact hk'
    | file st =>
      obtain ⟨st', rfl, hst⟩ := hk
      obtain ⟨st'', rfl, hst'⟩ := hk'
      exact ⟨st'', rfl, hR _ _ _ hst hst'⟩

theorem add (hR : ∀ st, R st st) (parent : NodeId) (name : Text) (kind : NodeKind) :
    Grown R t (t.add parent name kind).1 where
  top := rfl
  node := fun hn => ⟨_, node?_add_of_some hn, .refl hR _⟩

theorem modifyFile (hR : ∀ st, R st st) {f : FileState → FileState} (hf : ∀ st, R st (f st))
    (h : t.modifyFile id f = .ok t') : Grown R t t' := by
  obtain ⟨name, parent, st, hn, htop, -, hnode⟩ := exists_modifyFile h
  refine ⟨htop, fun {k _ _ kind} hk => ?_⟩
  rw [hnode k]
  by_cases hkid : k = id
  · subst hkid
    rw [hn] at hk
    cases hk
    rw [if_pos rfl]
    exact ⟨_, rfl, f st, rfl, hf st⟩
  · rw [if_neg hkid]
    exact ⟨kind, hk, .refl hR kind⟩

theorem mono {R' : FileState → FileState → Prop} (hR : ∀ a b, R a b → R' a b) (h : Grown R t t') :
    Grown R' t t' where
  top := h.top
  node := fun {_ _ _ kind} hn => by
    obtain ⟨kind', hn', hk⟩ := h.node hn
    refine ⟨kind', hn', ?_⟩
    cases kind with
    | folder => exact hk
    | file st =>
      obtain ⟨st', rfl, hst⟩ := hk
      exact ⟨st', rfl, hR _ _ hst⟩

theorem folder (h : Grown R t t') {name : Text} {parent : Option NodeId}
    (hn : t.node? id = some ⟨name, parent, .folder⟩) :
    t'.node? id = some ⟨name, parent, .folder⟩ := by
  obtain ⟨kind, hn', rfl⟩ := h.node hn
  exact hn'

theorem file (h : Grown R t t') {name : Text} {parent : Option NodeId} {st : FileState}
    (hn : t.node? id = some ⟨name, parent, .file st⟩) :
    ∃ st', t'.node? id = some ⟨name, parent, .file st'⟩ ∧ R st st' := by
  obtain ⟨kind, hn', st', rfl, hst⟩ := h.node hn
  exact ⟨st', hn', hst⟩

theorem size_le (h : Grown R t t') : t.nodes.size ≤ t'.nodes.size := by
  refine Nat.le_of_not_lt fun hlt => ?_
  obtain ⟨kind, hn, -⟩ := h.node (node?_eq_some_iff.mpr ⟨hlt, rfl⟩)
  exact absurd (lt_of_node? hn) (Nat.lt_irrefl _)

end Grown
end Tree
end SiteBundle
