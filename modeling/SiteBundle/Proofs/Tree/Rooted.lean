import SiteBundle.Proofs.Disk.Plain
import SiteBundle.Proofs.Tree.Growing
import SiteBundle.Tree.Address

/-!
# Trees with one root

In a tree of a site parents are folders and come before their children, and only the source directory
has no parent (`Tree.Rooted`).  So every node has all nodes above it, and its names never change while
the tree grows.

* `names_child`, `names_of_grown`   the names of a node;
* `names_of_nodeAt?`, `nodeAt?_names`   steps that lead to a node are its names, and lead to it;
* `exists_pathBetween?`  there is a reference from every file to every node.
-/

namespace SiteBundle.Tree

open Text

variable {t t' : Tree} {id k : NodeId} {name : Text} {kind : NodeKind}

/-- only the source directory has no parent, and every parent is a folder with a smaller number than
its child -/
structure Rooted (t : Tree) : Prop where
  root : ∃ name, t.node? Tree.root = some ⟨name, none, .folder⟩
  alone : ∀ {k n}, t.node? k = some n → n.parent = none → k = Tree.root
  parent : ∀ {k p}, t.parent? k = some p → p < k
  folder : ∀ {k p}, t.parent? k = some p → t.isFolder p = true

theorem parent?_of_node? {parent : Option NodeId} (h : t.node? id = some ⟨name, parent, kind⟩) :
    t.parent? id = parent := by
  rw [parent?, h, Option.bind_some]

theorem node?_empty {top : Place} {n : Node} (h : (empty top).node? id = some n) :
    id = Tree.root ∧ n = ⟨[], none, .folder⟩ := by
  obtain rfl : id = Tree.root := Nat.lt_one_iff.mp (lt_of_node? h)
  exact ⟨rfl, (Option.some.inj h).symm⟩

theorem rooted_empty (top : Place) : (empty top).Rooted := by
  have hnone : ∀ {k p}, (empty top).parent? k ≠ some p := by
    intro k p hp
    obtain ⟨name, kind, hn⟩ := node?_of_parent? hp
    exact nomatch (Node.mk.inj (node?_empty hn).2).2.1
  exact ⟨⟨[], rfl⟩, fun hn _ => (node?_empty hn).1, fun hp => absurd hp hnone,
    fun hp => absurd hp hnone⟩

theorem lt_of_isFolder (h : t.isFolder id = true) : id < t.nodes.size := by
  obtain ⟨name, parent, hn⟩ := isFolder_iff.mp h
  exact lt_of_node? hn

theorem lt_of_isFile (h : t.isFile id = true) : id < t.nodes.size := by
  obtain ⟨st, hst⟩ := isFile_iff.mp h
  obtain ⟨name, parent, hn⟩ := file_eq_ok_iff.mp hst
  exact lt_of_node? hn

theorem isFile_eq_false (h : t.isFolder id = true) : t.isFile id = false := by
  obtain ⟨name, parent, hn⟩ := isFolder_iff.mp h
  rw [isFile, hn]

theorem isFolder_add {parent : NodeId} (h : t.isFolder k = true) :
    (t.add parent name kind).1.isFolder k = true := by
  obtain ⟨name', parent', hn⟩ := isFolder_iff.mp h
  exact isFolder_iff.mpr ⟨name', parent', node?_add_of_some hn⟩

namespace Rooted

theorem isFolder_root (h : t.Rooted) : t.isFolder Tree.root = true := by
  obtain ⟨name, hn⟩ := h.root
  exact isFolder_iff.mpr ⟨name, none, hn⟩

theorem root_lt (h : t.Rooted) : Tree.root < t.nodes.size := lt_of_isFolder h.isFolder_root

theorem parent_lt (h : t.Rooted) {p : NodeId} (hp : t.parent? id = some p) : p < t.nodes.size := by
  obtain ⟨name, kind, hn⟩ := node?_of_parent? hp
  exact Nat.lt_trans (h.parent hp) (lt_of_node? hn)

theorem add (h : t.Rooted) {parent : NodeId} (hparent : t.isFolder parent = true) :
    (t.add parent name kind).1.Rooted := by
  obtain ⟨top, hroot⟩ := h.root
  have hcases : ∀ {k p}, (t.add parent name kind).1.parent? k = some p →
      k = t.nodes.size ∧ p = parent ∨ t.parent? k = some p := by
    intro k p hp
    obtain ⟨name', kind', hn⟩ := node?_of_parent? hp
    rw [node?_add] at hn
    split at hn
    · rename_i hk
      exact .inl ⟨hk, (Option.some.inj (Node.mk.inj (Option.some.inj hn)).2.1).symm⟩
    · exact .inr (parent?_of_node? hn)
  refine ⟨⟨top, node?_add_of_some hroot⟩, fun {k n} hn hnone => ?_, fun {k p} hp => ?_,
    fun {k p} hp => ?_⟩
  · rw [node?_add] at hn
    split at hn
    · rw [← Option.some.inj hn] at hnone
      exact nomatch hnone
    · exact h.alone hn hnone
  · rcases hcases hp with ⟨rfl, rfl⟩ | hp
    · exact lt_of_isFolder hparent
    · exact h.parent hp
  · rcases hcases hp with ⟨-, rfl⟩ | hp
    · exact isFolder_add hparent
    · exact isFolder_add (h.folder hp)

theorem modifyFile (h : t.Rooted) {f : FileState → FileState} (hf : t.modifyFile id f = .ok t') :
    t'.Rooted := by
  obtain ⟨name, parent, st, hn, -, -, hnode⟩ := exists_modifyFile hf
  have hgrown : t.Grown (fun _ _ => True) t' :=
    .modifyFile (fun _ => trivial) (fun _ => trivial) hf
  have hold : ∀ {k n}, t'.node? k = some n → ∃ n', t.node? k = some n' ∧ n'.parent = n.parent := by
    intro k n hk
    rw [hnode k] at hk
    split at hk
    · rename_i hid
      rw [← Option.some.inj hk, hid]
      exact ⟨_, hn, rfl⟩
    · exact ⟨n, hk, rfl⟩
  have hparent : ∀ {k p}, t'.parent? k = some p → t.parent? k = some p := by
    intro k p hp
    obtain ⟨name', kind', hk⟩ := node?_of_parent? hp
    obtain ⟨n, hn', hsame⟩ := hold hk
    rw [parent?, hn']
    exact hsame
  obtain ⟨top, hroot⟩ := h.root
  refine ⟨⟨top, hgrown.folder hroot⟩, fun {k n} hk hnone => ?_, fun hp => h.parent (hparent hp),
    fun {k p} hp => ?_⟩
  · obtain ⟨n', hn', hsame⟩ := hold hk
    exact h.alone hn' (hsame.trans hnone)
  · obtain ⟨name', parent', hfolder⟩ := isFolder_iff.mp (h.folder (hparent hp))
    exact isFolder_iff.mpr ⟨name', parent', hgrown.folder hfolder⟩

end Rooted

/-! ## names -/

theorem names_root (h : t.Rooted) : t.names Tree.root = [] := by
  obtain ⟨name, hn⟩ := h.root
  rw [names, hn]

theorem names_child (h : t.Rooted) {p : NodeId} (hn : t.node? id = some ⟨name, some p, kind⟩) :
    t.names id = t.names p ++ [name] := by
  rw [names, hn]
  exact if_pos (h.parent (parent?_of_node? hn))

theorem names_ne_nil (h : t.Rooted) (hid : id < t.nodes.size) (hroot : id ≠ Tree.root) :
    t.names id ≠ [] := by
  obtain ⟨⟨name, parent, kind⟩, hn⟩ : ∃ n, t.node? id = some n :=
    ⟨_, node?_eq_some_iff.mpr ⟨hid, rfl⟩⟩
  cases parent with
  | none => exact absurd (h.alone hn rfl) hroot
  | some p =>
    rw [names_child h hn]
    exact List.concat_ne_nil _ _

/-- a node keeps its names, as all nodes above it stay -/
theorem names_of_grown {R : FileState → FileState → Prop} (hg : t.Grown R t')
    (hid : id < t.nodes.size) : t'.names id = t.names id := by
  induction id using Nat.strongRecOn with
  | _ id ih =>
    obtain ⟨⟨name, parent, kind⟩, hn⟩ : ∃ n, t.node? id = some n :=
      ⟨_, node?_eq_some_iff.mpr ⟨hid, rfl⟩⟩
    obtain ⟨kind', hn', -⟩ := hg.node hn
    rw [names, names, hn, hn']
    cases parent with
    | none => rfl
    | some p =>
      dsimp only
      split
      · rename_i hp
        rw [ih p hp (Nat.lt_trans hp hid)]
      · rfl

/-! ## steps -/

theorem stepTo?_plain (hname : isPlainName name = true) :
    t.stepTo? id name = t.childNamed? id name := by
  obtain ⟨hidle, hup⟩ := isPlainName_iff.mp hname
  rw [isIdle, Bool.or_eq_false_iff, beq_eq_false_iff_ne] at hidle
  have hne : name ≠ [] := by
    rintro rfl
    cases hidle.1
  rw [stepTo?, if_neg (not_or.mpr ⟨hne, hidle.2⟩), if_neg hup]

theorem names_of_steps (h : t.Rooted) {steps : List Text} (hsteps : Place.Plain steps)
    (hid : id < t.nodes.size) (hk : steps.foldlM t.stepTo? id = some k) :
    t.names k = t.names id ++ steps ∧ k < t.nodes.size := by
  induction steps generalizing id with
  | nil =>
    obtain rfl := Option.some.inj hk
    exact ⟨(List.append_nil _).symm, hid⟩
  | cons name steps ih =>
    obtain ⟨hname, hrest⟩ := List.forall_mem_cons.mp hsteps
    rw [List.foldlM_cons, stepTo?_plain hname] at hk
    obtain ⟨child, hchild, hk⟩ := Option.bind_eq_some_iff.mp hk
    obtain ⟨-, kind, hn⟩ := childNamed?_eq_some hchild
    obtain ⟨hnames, hlt⟩ := ih hrest (lt_of_node? hn) hk
    rw [names_child h hn, List.append_assoc] at hnames
    exact ⟨hnames, hlt⟩

/-- the node at a plain place has the names that lead there -/
theorem names_of_nodeAt? (h : t.Rooted) {q : Place} (hq : q.Plain) (hk : t.nodeAt? q = some k) :
    q = t.top ++ t.names k ∧ k < t.nodes.size := by
  unfold nodeAt? at hk
  rw [hq.filter] at hk
  dsimp only at hk
  split at hk
  · rename_i htop
    obtain ⟨rest, rfl⟩ := List.isPrefixOf_iff_prefix.mp htop
    rw [List.drop_left] at hk
    obtain ⟨hnames, hlt⟩ := names_of_steps h (Place.plain_append.mp hq).2 h.root_lt hk
    rw [hnames, names_root h]
    exact ⟨rfl, hlt⟩
  · exact nomatch hk

/-- a folder's child is found by its name, unless another of that name was added before it -/
theorem childNamed?_of_first {p : NodeId} (hp : t.isFolder p = true) (hlt : p < k)
    (hn : t.node? k = some ⟨name, some p, kind⟩)
    (hfirst : ∀ j kind', j ≤ k → t.node? j = some ⟨name, some p, kind'⟩ → j = k) :
    t.childNamed? p name = some k := by
  have hchild : k ∈ t.children p := mem_children_iff.mpr ⟨hp, hlt, parent?_of_node? hn⟩
  have hmatch : ((t.node? k).any (·.name == name)) = true := by
    rw [hn]
    exact beq_self_eq_true name
  have hsome : (t.childNamed? p name).isSome = true := by
    unfold childNamed?
    exact List.find?_isSome.mpr ⟨k, hchild, hmatch⟩
  obtain ⟨j, hj⟩ := Option.isSome_iff_exists.mp hsome
  obtain ⟨-, kind', hjn⟩ := childNamed?_eq_some hj
  rw [hj]
  -- children are listed in the order they were added, and the first that matches is taken
  obtain ⟨-, before, after, hlist, hbefore⟩ := List.find?_eq_some_iff_append.mp hj
  have hordered : (t.children p).Pairwise (· < ·) := by
    rw [children, if_pos hp]
    exact (List.pairwise_lt_range).filter _
  rw [hlist] at hchild hordered
  rcases List.mem_append.mp hchild with hk | hk
  · have hnot := hbefore k hk
    rw [hmatch] at hnot
    exact nomatch hnot
  · rcases List.mem_cons.mp hk with rfl | hk
    · rfl
    · have hjk := List.rel_of_pairwise_cons (List.pairwise_append.mp hordered).2.1 hk
      rw [hfirst j kind' (Nat.le_of_lt hjk) hjn]

/-- a node is found at its place, unless one with the same names was added before it -/
theorem nodeAt?_names {R : FileState → FileState → Prop} (h : t.Rooted) (hg : t.Grown R t')
    (honce : ∀ a b, a < t.nodes.size → b < t.nodes.size → t.names a = t.names b → a = b)
    (hid : id < t.nodes.size) (hplain : Place.Plain (t.top ++ t.names id)) :
    t'.nodeAt? (t.top ++ t.names id) = some id := by
  have hsteps : (t.names id).foldlM t'.stepTo? root = some id := by
    replace hplain := (Place.plain_append.mp hplain).2
    induction id using Nat.strongRecOn with
    | _ id ih =>
      obtain ⟨⟨name, parent, kind⟩, hn⟩ : ∃ n, t.node? id = some n :=
        ⟨_, node?_eq_some_iff.mpr ⟨hid, rfl⟩⟩
      cases parent with
      | none =>
        rw [h.alone hn rfl, names_root h]
        rfl
      | some p =>
        have hparent := parent?_of_node? hn
        have hlt := h.parent hparent
        have hnames := names_child h hn
        rw [hnames] at hplain ⊢
        obtain ⟨hfront, hname⟩ := Place.plain_append.mp hplain
        rw [List.foldlM_append, ih p hlt (Nat.lt_trans hlt hid) hfront]
        have hfound : t'.childNamed? p name = some id := by
          obtain ⟨pname, pparent, hpn⟩ := isFolder_iff.mp (h.folder hparent)
          obtain ⟨kind', hn', -⟩ := hg.node hn
          refine childNamed?_of_first (isFolder_iff.mpr ⟨_, _, hg.folder hpn⟩) hlt hn' ?_
          intro j kind'' hj hjn
          have hjlt := Nat.lt_of_le_of_lt hj hid
          obtain ⟨⟨jname, jparent, jkind⟩, hjn₀⟩ : ∃ n, t.node? j = some n :=
            ⟨_, node?_eq_some_iff.mpr ⟨hjlt, rfl⟩⟩
          obtain ⟨jkind', hjn', -⟩ := hg.node hjn₀
          obtain ⟨rfl, rfl, -⟩ := Node.mk.inj (Option.some.inj (hjn'.symm.trans hjn))
          exact honce j id hjlt hid ((names_child h hjn₀).trans hnames.symm)
        show t'.stepTo? p name >>= _ = _
        rw [stepTo?_plain (Place.plain_singleton.mp hname), hfound]
        rfl
  unfold nodeAt?
  rw [hplain.filter, hg.top]
  dsimp only
  rw [if_pos (List.isPrefixOf_iff_prefix.mpr (List.prefix_append _ _)), List.drop_left]
  exact hsteps

/-! ## references -/

theorem lt_of_mem_ancestry (h : t.Rooted) (hid : id < t.nodes.size) (hk : k ∈ t.ancestry id) :
    k < t.nodes.size := by
  induction id using Nat.strongRecOn with
  | _ id ih =>
    rw [ancestry] at hk
    split at hk
    · rw [List.mem_singleton.mp hk]
      exact hid
    · rename_i p hp
      rw [if_pos (h.parent hp)] at hk
      rcases List.mem_append.mp hk with hk | hk
      · exact ih p (h.parent hp) (h.parent_lt hp) hk
      · rw [List.mem_singleton.mp hk]
        exact hid

theorem mem_of_mem_dropCommonIds {as bs : List NodeId}
    (h : k ∈ (pathFromDirectory?.dropCommonIds as bs).2) : k ∈ bs := by
  induction as generalizing bs with
  | nil => cases bs <;> exact h
  | cons a as ih =>
    cases bs with
    | nil => exact h
    | cons b bs =>
      rw [pathFromDirectory?.dropCommonIds] at h
      split at h
      · exact List.mem_cons_of_mem b (ih h)
      · exact h

theorem exists_names {ids : List NodeId} (h : ∀ k ∈ ids, k < t.nodes.size) :
    ∃ names, ids.mapM (fun id => (t.node? id).map (·.name)) = some names := by
  induction ids with
  | nil => exact ⟨[], rfl⟩
  | cons id ids ih =>
    obtain ⟨hid, hids⟩ := List.forall_mem_cons.mp h
    obtain ⟨names, hnames⟩ := ih hids
    rw [List.mapM_cons, node?_eq_some_iff.mpr ⟨hid, rfl⟩, hnames]
    exact ⟨_, rfl⟩

theorem exists_pathFromDirectory? (h : t.Rooted) (dir : NodeId) {target : NodeId}
    (htarget : target < t.nodes.size) : ∃ path, t.pathFromDirectory? dir target = some path := by
  have hparent : (t.parent? target).getD Tree.root < t.nodes.size := by
    cases hp : t.parent? target with
    | none => exact h.root_lt
    | some p => exact h.parent_lt hp
  have hway : ∀ k ∈ (pathFromDirectory?.dropCommonIds (t.ancestry dir)
      (t.ancestry ((t.parent? target).getD Tree.root))).2 ++ [target], k < t.nodes.size := by
    intro k hk
    rcases List.mem_append.mp hk with hk | hk
    · exact lt_of_mem_ancestry h hparent (mem_of_mem_dropCommonIds hk)
    · rw [List.mem_singleton.mp hk]
      exact htarget
  obtain ⟨names, hnames⟩ := exists_names hway
  unfold pathFromDirectory?
  dsimp only
  rw [hnames]
  exact ⟨_, rfl⟩

theorem exists_pathBetween? (h : t.Rooted) (source : NodeId) {target : NodeId}
    (htarget : target < t.nodes.size) : ∃ path, t.pathBetween? source target = some path :=
  exists_pathFromDirectory? h _ htarget

end SiteBundle.Tree
