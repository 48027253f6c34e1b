import SiteBundle.Proofs.Tree.Rooted

/-!
# What is below a node

A node is within another when the way up from it, along parents, leads there (`Tree.Within`), and
below it when it is not that node itself (`Tree.Below`).  `Tree.descendants` lists what is below a
node:

* `mem_descendants_iff`     everything below the node, and nothing else;
* `pairwise_descendants`    no node behind something that is below it, and none twice;
* `mem_descendants_root`    every node but the source directory is below that.

Nodes have parents with smaller numbers, so the way up never turns back (`Within.le`), and two ways
down to one node are one (`Within.linear`).
-/

namespace SiteBundle.Tree

variable {t : Tree} {id top a b k p : NodeId}

/-- the way up from a node leads to `top` -/
inductive Within (t : Tree) (top : NodeId) : NodeId → Prop where
  | self : Within t top top
  | step {k p : NodeId} (hp : t.parent? k = some p) (h : Within t top p) : Within t top k

/-- the way up from the parent of a node leads to `top` -/
def Below (t : Tree) (top k : NodeId) : Prop := ∃ p, t.parent? k = some p ∧ t.Within top p

theorem Below.within (h : t.Below top k) : t.Within top k := by
  obtain ⟨p, hp, h⟩ := h
  exact .step hp h

theorem Within.trans (h : t.Within a b) (h' : t.Within b k) : t.Within a k := by
  induction h' with
  | self => exact h
  | step hp _ ih => exact .step hp ih

theorem Within.below_trans (h : t.Within a b) (h' : t.Below b k) : t.Below a k := by
  obtain ⟨p, hp, h'⟩ := h'
  exact ⟨p, hp, h.trans h'⟩

theorem Within.eq_or_below (h : t.Within top k) : k = top ∨ t.Below top k := by
  cases h with
  | self => exact .inl rfl
  | step hp h => exact .inr ⟨_, hp, h⟩

theorem Within.le (h : t.Rooted) (hk : t.Within top k) : top ≤ k := by
  induction hk with
  | self => exact Nat.le_refl _
  | step hp _ ih => exact Nat.le_trans ih (Nat.le_of_lt (h.parent hp))

theorem Below.lt (h : t.Rooted) (hk : t.Below top k) : top < k := by
  obtain ⟨p, hp, hk⟩ := hk
  exact Nat.lt_of_le_of_lt (hk.le h) (h.parent hp)

/-- of two nodes on the way up from a third, one is within the other -/
theorem Within.linear (ha : t.Within a k) (hb : t.Within b k) : t.Within a b ∨ t.Within b a := by
  induction ha with
  | self => exact .inr hb
  | step hp ha ih =>
    cases hb with
    | self => exact .inl (.step hp ha)
    | step hp' hb =>
      obtain rfl := Option.some.inj (hp.symm.trans hp')
      exact ih hb

/-- no child is within another child of the same folder -/
theorem Within.eq_of_parent? (h : t.Rooted) (ha : t.parent? a = some p) (hb : t.parent? b = some p)
    (hk : t.Within a k) (hk' : t.Within b k) : a = b := by
  have hone : ∀ {c d}, t.parent? c = some p → t.parent? d = some p → t.Within c d → c = d := by
    intro c d hc hd hcd
    rcases hcd.eq_or_below with rfl | ⟨q, hq, hcq⟩
    · rfl
    · obtain rfl := Option.some.inj (hd.symm.trans hq)
      exact absurd (hcq.le h) (Nat.not_le_of_lt (h.parent hc))
  rcases hk.linear hk' with hab | hba
  · exact hone ha hb hab
  · exact (hone hb ha hba).symm

/-- everything is within the source directory -/
theorem within_root (h : t.Rooted) (hk : k < t.nodes.size) : t.Within Tree.root k := by
  induction k using Nat.strongRecOn with
  | _ k ih =>
    cases hp : t.parent? k with
    | none =>
      have hn : t.node? k = some t.nodes[k] := node?_eq_some_iff.mpr ⟨hk, rfl⟩
      rw [parent?, hn] at hp
      rw [h.alone hn hp]
      exact .self
    | some p => exact .step hp (ih p (h.parent hp) (h.parent_lt hp))

/-- names below a node go on behind the names of the node -/
theorem Within.names (h : t.Rooted) (hk : t.Within top k) : ∃ rest, t.names k = t.names top ++ rest := by
  induction hk with
  | self => exact ⟨[], (List.append_nil _).symm⟩
  | step hp _ ih =>
    obtain ⟨name, kind, hn⟩ := node?_of_parent? hp
    obtain ⟨rest, hrest⟩ := ih
    exact ⟨rest ++ [name], by rw [names_child h hn, hrest, List.append_assoc]⟩

/-- what has something below it is a folder -/
theorem Below.isFolder (h : t.Rooted) (hk : t.Below a k) : t.isFolder a = true := by
  obtain ⟨p, hp, hk⟩ := hk
  induction hk generalizing k with
  | self => exact h.folder hp
  | step hq _ ih => exact ih hq

/-- names that a node begins with are those of a node that it is within -/
theorem exists_within (h : t.Rooted) {front rest : List Text} (hk : k < t.nodes.size)
    (hnames : t.names k = front ++ rest) : ∃ c, t.Within c k ∧ t.names c = front := by
  induction k using Nat.strongRecOn generalizing rest with
  | _ k ih =>
    rcases List.eq_nil_or_concat rest with rfl | ⟨rest, last, rfl⟩
    · exact ⟨k, .self, by rw [hnames, List.append_nil]⟩
    · obtain ⟨⟨name, parent, kind⟩, hn⟩ : ∃ n, t.node? k = some n :=
        ⟨_, node?_eq_some_iff.mpr ⟨hk, rfl⟩⟩
      cases parent with
      | none =>
        obtain rfl := h.alone hn rfl
        rw [names_root h, List.concat_eq_append, ← List.append_assoc] at hnames
        exact absurd hnames.symm (List.concat_ne_nil _ _)
      | some p =>
        have hp := parent?_of_node? hn
        rw [names_child h hn, List.concat_eq_append, ← List.append_assoc] at hnames
        obtain ⟨c, hc, hfront⟩ := ih p (h.parent hp) (h.parent_lt hp)
          (List.append_inj_left' hnames rfl)
        exact ⟨c, .step hp hc, hfront⟩

/-! ## the list -/

theorem mem_children (h : t.Rooted) : k ∈ t.children id ↔ t.parent? k = some id :=
  ⟨fun hk => (mem_children_iff.mp hk).2.2, fun hk => mem_children_iff.mpr
    ⟨h.folder hk, h.parent hk, hk⟩⟩

theorem nodup_children (t : Tree) (id : NodeId) : (t.children id).Nodup := by
  unfold children
  split
  · exact List.nodup_range.filter _
  · exact List.nodup_nil

theorem descendants_eq (t : Tree) (id : NodeId) :
    t.descendants id = (t.children id).flatMap fun k => k :: t.descendants k := by
  rw [descendants, ← List.flatMap_map Subtype.val fun k => k :: t.descendants k,
    List.attach_map_subtype_val]

/-- what is below a node is a child of it or below one -/
theorem mem_descendants : k ∈ t.descendants id ↔
    ∃ c ∈ t.children id, k = c ∨ k ∈ t.descendants c := by
  rw [descendants_eq, List.mem_flatMap]
  simp only [List.mem_cons]

/-- the list goes on below each of its folders -/
theorem mem_descendants_of_mem (ha : a ∈ t.descendants id) (hk : k ∈ t.children a) :
    k ∈ t.descendants id := by
  induction id using descendants.induct t with
  | case1 id ih =>
    obtain ⟨c, hc, ha⟩ := mem_descendants.mp ha
    refine mem_descendants.mpr ⟨c, hc, .inr ?_⟩
    rcases ha with rfl | ha
    · exact mem_descendants.mpr ⟨k, hk, .inl rfl⟩
    · exact ih ⟨c, hc⟩ ha

theorem mem_descendants_iff (h : t.Rooted) : k ∈ t.descendants id ↔ t.Below id k := by
  constructor
  · intro hk
    induction id using descendants.induct t with
    | case1 id ih =>
      obtain ⟨c, hc, hk⟩ := mem_descendants.mp hk
      have hp := (mem_children h).mp hc
      rcases hk with rfl | hk
      · exact ⟨id, hp, .self⟩
      · exact (Within.step hp .self).below_trans (ih ⟨c, hc⟩ hk)
  · rintro ⟨p, hp, hk⟩
    induction hk generalizing k with
    | self => exact mem_descendants.mpr ⟨k, (mem_children h).mpr hp, .inl rfl⟩
    | step hq _ ih => exact mem_descendants_of_mem (ih hq) ((mem_children h).mpr hp)

/-- **Nothing in the list is within what comes behind it.** -/
theorem pairwise_descendants (h : t.Rooted) (id : NodeId) :
    (t.descendants id).Pairwise fun a b => ¬ t.Within b a := by
  induction id using descendants.induct t with
  | case1 id ih =>
    rw [descendants_eq, List.pairwise_flatMap]
    refine ⟨fun c hc => List.pairwise_cons.mpr ⟨fun k hk hback => ?_, ih ⟨c, hc⟩⟩, ?_⟩
    · exact absurd (hback.le h) (Nat.not_le_of_lt (((mem_descendants_iff h).mp hk).lt h))
    · refine (nodup_children t id).imp_of_mem fun {c d} hc hd hne a ha b hb hback => hne ?_
      have hin : ∀ {e k}, k ∈ e :: t.descendants e → t.Within e k := by
        intro e k hk
        rcases List.mem_cons.mp hk with rfl | hk
        · exact .self
        · exact ((mem_descendants_iff h).mp hk).within
      exact Within.eq_of_parent? h ((mem_children h).mp hc) ((mem_children h).mp hd) (hin ha)
        ((hin hb).trans hback)

/-- what is in a folder comes behind the folder -/
theorem mem_behind_of_mem_children (h : t.Rooted) {c : NodeId} {front rest : List NodeId}
    (hsplit : t.descendants top = front ++ id :: rest)
    (hc : c ∈ t.children id) : c ∈ rest := by
  have hp := (mem_children h).mp hc
  have hmem : c ∈ front ++ id :: rest :=
    hsplit ▸ mem_descendants_of_mem (hsplit ▸ List.mem_append_right _ List.mem_cons_self) hc
  have horder := hsplit ▸ pairwise_descendants h top
  rcases List.mem_append.mp hmem with hfront | hbehind
  · -- nothing in front of the folder is within it
    exact absurd (Within.step hp .self)
      ((List.pairwise_append.mp horder).2.2 c hfront id List.mem_cons_self)
  · exact (List.mem_cons.mp hbehind).resolve_left (Nat.ne_of_gt (h.parent hp))

theorem nodup_descendants (h : t.Rooted) (id : NodeId) : (t.descendants id).Nodup :=
  (pairwise_descendants h id).imp fun hback => by
    rintro rfl
    exact hback .self

/-- the descendants of the source directory are all other nodes -/
theorem mem_descendants_root (h : t.Rooted) :
    k ∈ t.descendants Tree.root ↔ k < t.nodes.size ∧ k ≠ Tree.root := by
  rw [mem_descendants_iff h]
  constructor
  · intro hk
    have hne := Nat.ne_of_gt (Below.lt h hk)
    obtain ⟨p, hp, -⟩ := hk
    obtain ⟨name, kind, hn⟩ := node?_of_parent? hp
    exact ⟨lt_of_node? hn, hne⟩
  · rintro ⟨hlt, hne⟩
    exact ((within_root h hlt).eq_or_below).resolve_left hne

end SiteBundle.Tree
