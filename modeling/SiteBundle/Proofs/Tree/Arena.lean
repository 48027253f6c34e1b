import SiteBundle.Proofs.Tree.Descendants
import SiteBundle.Proofs.Tree.Scanned
import SiteBundle.Tree.Arena

/-!
# The lists and the parents agree

Nodes are only ever added to folders (`Arena.Built`).  Each step keeps that the tree without the lists
has one root and that a folder lists just the nodes whose parent it is, in the order they were added
(`Arena.Linked`).  So the loops that walk through the lists and along the parents come to an end, and
they find what `Tree.descendants`, `Tree.ancestry` and `Tree.names` say.

* `children_add`    what one more node changes about the lists;
* `halts_walk`      how a loop ends that goes down a tree with a stack;
* `halts_visit`, `halts_climb`, `halts_climbNames`   how the loops end;
* `pairwise_siblings`   among the descendants of a node, siblings stand in the order they were added;
* `exists_built_scan`   the tree of a source directory is built in this way.
-/

namespace SiteBundle

open Text

/-! ## descendants that are siblings -/

namespace Tree

variable {t : Tree} {id : NodeId}

theorem pairwise_children (t : Tree) (id : NodeId) : (t.children id).Pairwise (· < ·) := by
  unfold children
  split
  · exact List.pairwise_lt_range.filter _
  · exact List.Pairwise.nil

/-- children of one folder are listed in the order they were added -/
theorem pairwise_siblings (h : t.Rooted) (id : NodeId) :
    (t.descendants id).Pairwise fun a b => t.parent? a = t.parent? b → a < b := by
  induction id using descendants.induct t with
  | case1 id ih =>
    rw [descendants_eq, List.pairwise_flatMap]
    -- what is below a child has no parent in common with the child
    have hbelow : ∀ {c k}, c ∈ t.children id → t.Below c k → t.parent? k ≠ some id := by
      intro c k hc hk hp
      obtain ⟨q, hq, hwithin⟩ := hk
      obtain rfl := Option.some.inj (hq.symm.trans hp)
      exact absurd (hwithin.le h) (Nat.not_le_of_lt (h.parent ((mem_children h).mp hc)))
    refine ⟨fun c hc => List.pairwise_cons.mpr ⟨fun k hk hsame => ?_, ih ⟨c, hc⟩⟩, ?_⟩
    · rw [(mem_children h).mp hc] at hsame
      exact absurd hsame.symm (hbelow hc ((mem_descendants_iff h).mp hk))
    · refine (pairwise_children t id).imp_of_mem fun {c d} hc hd hlt a ha b hb hsame => ?_
      have hcp := (mem_children h).mp hc
      have hdp := (mem_children h).mp hd
      rcases List.mem_cons.mp ha with rfl | ha
      · rcases List.mem_cons.mp hb with rfl | hb
        · exact hlt
        · rw [hcp] at hsame
          exact absurd hsame.symm (hbelow hd ((mem_descendants_iff h).mp hb))
      · have ha := (mem_descendants_iff h).mp ha
        rcases List.mem_cons.mp hb with rfl | hb
        · exact absurd (hsame.trans hdp) (hbelow hc ha)
        · obtain ⟨q, hq, hbq⟩ := (mem_descendants_iff h).mp hb
          obtain ⟨p, hp, hap⟩ := ha
          rw [hp, hq] at hsame
          obtain rfl := Option.some.inj hsame
          exact absurd (Within.eq_of_parent? h hcp hdp hap hbq) (Nat.ne_of_lt hlt)

/-- an ascending list of the nodes whose parent a folder is -/
theorem children_eq_of_mem (h : t.Rooted) {l : List NodeId} (hl : l.Pairwise (· < ·))
    (hmem : ∀ k, k ∈ l ↔ t.parent? k = some id) : t.children id = l :=
  List.Perm.eq_of_pairwise (fun _ _ _ _ h1 h2 => absurd h1 (Nat.lt_asymm h2))
    (pairwise_children t id) hl ((List.perm_ext_iff_of_nodup (nodup_children t id)
      (hl.imp Nat.ne_of_lt)).mpr fun k => (mem_children h).trans (hmem k).symm)

/-- one more node is the last child of its parent, and of no other -/
theorem children_add (h : t.Rooted) {parent : NodeId} (hparent : t.isFolder parent = true)
    (name : Text) (kind : NodeKind) (id : NodeId) : (t.add parent name kind).1.children id =
      t.children id ++ if id = parent then [t.nodes.size] else [] := by
  refine children_eq_of_mem (h.add hparent) ?_ fun k => ?_
  · refine List.pairwise_append.mpr ⟨pairwise_children t id, ?_, fun k hk j hj => ?_⟩
    · split
      · exact List.pairwise_singleton _ _
      · exact List.Pairwise.nil
    · split at hj
      · rw [List.mem_singleton.mp hj]
        exact (lt_of_mem_children hk).2
      · exact nomatch hj
  · rw [List.mem_append, mem_children h, show (t.add parent name kind).1.parent? k =
      ((t.add parent name kind).1.node? k).bind (·.parent) from rfl, node?_add]
    by_cases hk : k = t.nodes.size
    · have hnone : t.parent? t.nodes.size = none := by
        rw [parent?, node?_size]
        rfl
      rw [hk, hnone, if_pos rfl, Option.bind_some]
      by_cases hid : id = parent
      · simp [hid]
      · simp [hid, Ne.symm hid]
    · rw [if_neg hk]
      refine or_iff_left (fun hmem => hk ?_)
      split at hmem
      · exact List.mem_singleton.mp hmem
      · exact nomatch hmem

end Tree

/-! ## loops -/

/-- a loop has one end at most -/
theorem Halts.unique {σ : Type} {round : σ → Option σ} {s x y : σ} (hx : Halts round s x)
    (hy : Halts round s y) : x = y := by
  induction hx with
  | stop h =>
    cases hy with
    | stop _ => rfl
    | next h' _ => exact nomatch h.symm.trans h'
  | next h _ ih =>
    cases hy with
    | stop h' => exact nomatch h'.symm.trans h
    | next h' rest => exact ih (Option.some.inj (h.symm.trans h') ▸ rest)

/-- a loop that is done with each item on its stack before it comes to the next is done with them all -/
theorem halts_append {σ α β : Type} {round : σ → Option σ} {state : List α → List β → σ}
    {out : α → List β} {todo rest : List α} {done : List β} {last : σ}
    (hitem : ∀ k ∈ todo, ∀ rest done, Halts round (state rest (done ++ out k)) last →
      Halts round (state (k :: rest) done) last)
    (hrest : Halts round (state rest (done ++ todo.flatMap out)) last) :
    Halts round (state (todo ++ rest) done) last := by
  induction todo generalizing done with
  | nil =>
    rw [List.flatMap_nil, List.append_nil] at hrest
    exact hrest
  | cons k todo ih =>
    obtain ⟨hk, htodo⟩ := List.forall_mem_cons.mp hitem
    rw [List.flatMap_cons, ← List.append_assoc] at hrest
    exact hk _ _ (ih htodo hrest)

/-- **A walk down a tree ends.**  A round takes a node from the stack, notes something of it and puts
some of its children on top; what is noted comes in the order of the tree, whatever else waits. -/
theorem halts_walk {σ β : Type} {t : Tree} {round : σ → Option σ}
    (state : List NodeId → List β → σ) {next : NodeId → List NodeId} {note : NodeId → List β}
    (out : NodeId → List β)
    (hround : ∀ k rest done,
      round (state (k :: rest) done) = some (state (next k ++ rest) (done ++ note k)))
    (hstop : ∀ done, round (state [] done) = none)
    (hnext : ∀ k, ∀ c ∈ next k, c ∈ t.children k)
    (hout : ∀ k, out k = note k ++ (next k).flatMap out) (todo : List NodeId) :
    Halts round (state todo []) (state [] (todo.flatMap out)) := by
  have hnode : ∀ k rest done, Halts round (state rest (done ++ out k)) (state [] (todo.flatMap out)) →
      Halts round (state (k :: rest) done) (state [] (todo.flatMap out)) := by
    intro k
    induction k using Tree.descendants.induct t with
    | case1 k ih =>
      intro rest done hrest
      rw [hout, ← List.append_assoc] at hrest
      exact .next (hround k rest done) (halts_append (fun c hc => ih ⟨c, hnext k c hc⟩) hrest)
  have hend : Halts round (state (todo ++ []) []) (state [] (todo.flatMap out)) :=
    halts_append (fun k _ => hnode k) (.stop (hstop _))
  rwa [List.append_nil] at hend

/-! ## arenas as trees -/

namespace Cell

@[simp] theorem toNode_attach (child : NodeId) (c : Cell) : (c.attach child).toNode = c.toNode := by
  obtain ⟨name, parent, content⟩ := c
  cases content <;> rfl

end Cell

namespace Arena

variable {a : Arena} {id k : NodeId}

theorem node?_toTree (a : Arena) (id : NodeId) :
    a.toTree.node? id = (a.cells[id]?).map Cell.toNode := Array.getElem?_map

theorem size_toTree (a : Arena) : a.toTree.nodes.size = a.cells.size := Array.size_map

theorem parent?_toTree (a : Arena) (id : NodeId) : a.toTree.parent? id = a.parent? id := by
  rw [Tree.parent?, node?_toTree, parent?]
  cases a.cells[id]? <;> rfl

theorem isFolder_toTree (a : Arena) (id : NodeId) : a.toTree.isFolder id = a.isFolder id := by
  rw [Tree.isFolder, node?_toTree, isFolder]
  rcases a.cells[id]? with - | ⟨name, parent, content⟩
  · rfl
  · cases content <;> rfl

theorem cells_add (a : Arena) (parent : NodeId) (name : Text) (content : Content) (k : NodeId) :
    (a.add parent name content).1.cells[k]? =
      (if k = a.cells.size then some ⟨name, some parent, content⟩ else a.cells[k]?).map
        fun c => if k = parent then c.attach a.cells.size else c := by
  show ((a.cells.push _).modify parent _)[k]? = _
  rw [Array.getElem?_modify, Array.getElem?_push]
  by_cases hk : k = parent
  · simp only [hk, if_true]
  · simp only [hk, Ne.symm hk, if_false, Option.map_id']

/-- without the lists, a node is just added -/
theorem toTree_add (a : Arena) (parent : NodeId) (name : Text) (content : Content) :
    (a.add parent name content).1.toTree =
      (a.toTree.add parent name (Cell.toNode ⟨name, some parent, content⟩).kind).1 := by
  refine congrArg (Tree.mk a.top) (Array.ext_getElem? fun k => ?_)
  show (a.add parent name content).1.toTree.node? k = (a.toTree.add parent name _).1.node? k
  rw [Tree.node?_add, node?_toTree, node?_toTree, size_toTree, cells_add, Option.map_map]
  have hcell : (Cell.toNode ∘ fun c => if k = parent then c.attach a.cells.size else c) =
      Cell.toNode := by
    funext c
    show Cell.toNode (if _ then _ else _) = _
    split
    · exact Cell.toNode_attach _ c
    · rfl
  rw [hcell]
  split <;> rfl

theorem cells_note (a : Arena) (id : NodeId) (f : FileState → FileState) (k : NodeId) :
    (a.note id f).cells[k]? = if id = k then (a.cells[k]?).map (Cell.note f) else a.cells[k]? :=
  Array.getElem?_modify

/-- without the lists, the bookkeeping of a file is just changed -/
theorem toTree_note (h : a.isFile id = true) (f : FileState → FileState) :
    a.toTree.modifyFile id f = .ok (a.note id f).toTree := by
  unfold isFile at h
  rcases hcell : a.cells[id]? with - | ⟨name, parent, content⟩
  · rw [hcell] at h
    exact nomatch h
  · cases content with
    | folder children =>
      rw [hcell] at h
      exact nomatch h
    | file st =>
      have hfile : a.toTree.file id = .ok st :=
        Tree.file_eq_ok_iff.mpr ⟨name, parent, by rw [node?_toTree, hcell]; rfl⟩
      unfold Tree.modifyFile
      rw [hfile]
      refine congrArg (fun nodes => Except.ok (Tree.mk a.top nodes)) (Array.ext_getElem? fun k => ?_)
      show ((a.cells.map Cell.toNode).modify id _)[k]? = ((a.note id f).cells.map Cell.toNode)[k]?
      rw [Array.getElem?_modify, Array.getElem?_map, Array.getElem?_map, cells_note]
      by_cases hk : id = k
      · subst hk
        rw [if_pos rfl, if_pos rfl, hcell]
        rfl
      · rw [if_neg hk, if_neg hk]

/-! ## what each step keeps -/

/-- the arenas that are built by adding nodes to folders; the bookkeeping of files may change -/
inductive Built : Arena → Prop where
  | empty (top : Place) : Built (Arena.empty top)
  | addFolder {a : Arena} {parent : NodeId} (ha : Built a) (hparent : a.isFolder parent = true)
    (name : Text) : Built (a.addFolder parent name).1
  | addSource {a : Arena} {parent : NodeId} (ha : Built a) (hparent : a.isFolder parent = true)
    (name : Text) : Built (a.addSource parent name).1
  | addFile {a : Arena} {parent : NodeId} (ha : Built a) (hparent : a.isFolder parent = true)
    (name content : Text) : Built (a.addFile parent name content).1
  | note {a : Arena} {id : NodeId} (ha : Built a) (hfile : a.isFile id = true)
    (f : FileState → FileState) : Built (a.note id f)

/-- the tree has one root, and a folder lists the nodes whose parent it is -/
structure Linked (a : Arena) : Prop where
  rooted : a.toTree.Rooted
  children : ∀ id, a.children id = a.toTree.children id

theorem exists_cell (h : a.isFolder id = true) :
    ∃ name parent, a.cells[id]? = some ⟨name, parent, .folder (a.children id)⟩ := by
  unfold isFolder at h
  unfold children
  rcases hcell : a.cells[id]? with - | ⟨name, parent, content⟩
  · rw [hcell] at h
    exact nomatch h
  · cases content with
    | folder children => exact ⟨name, parent, rfl⟩
    | file st =>
      rw [hcell] at h
      exact nomatch h

/-- one more node without children is put at the end of its parent's list -/
theorem children_add {parent : NodeId} (hparent : a.isFolder parent = true) (name : Text)
    {content : Content} (hcontent : ∀ l, content = .folder l → l = []) (id : NodeId) :
    (a.add parent name content).1.children id =
      a.children id ++ if id = parent then [a.cells.size] else [] := by
  obtain ⟨pname, above, hcell⟩ := exists_cell hparent
  have hlt : parent < a.cells.size := (Array.getElem?_eq_some_iff.mp hcell).1
  by_cases hid : id = parent
  · subst hid
    rw [if_pos rfl, children, cells_add, if_neg (Nat.ne_of_lt hlt), hcell]
    simp only [Option.map_some, if_true]
    rfl
  · rw [if_neg hid, List.append_nil, children, cells_add]
    simp only [hid, if_false, Option.map_id']
    by_cases hnew : id = a.cells.size
    · rw [if_pos hnew, hnew, children, Array.getElem?_eq_none (Nat.le_refl _)]
      cases content with
      | folder l => exact hcontent l rfl
      | file st => rfl
    · rw [if_neg hnew]
      rfl

theorem children_note (a : Arena) (id : NodeId) (f : FileState → FileState) (k : NodeId) :
    (a.note id f).children k = a.children k := by
  rw [children, children, cells_note]
  by_cases hk : id = k
  · rw [if_pos hk]
    rcases a.cells[k]? with - | ⟨name, parent, content⟩
    · rfl
    · cases content <;> rfl
  · rw [if_neg hk]

theorem parent?_note (a : Arena) (id : NodeId) (f : FileState → FileState) (k : NodeId) :
    (a.note id f).parent? k = a.parent? k := by
  rw [parent?, parent?, cells_note]
  by_cases hk : id = k
  · rw [if_pos hk]
    rcases a.cells[k]? with - | ⟨name, parent, content⟩
    · rfl
    · cases content <;> rfl
  · rw [if_neg hk]

theorem toTree_empty (top : Place) : (empty top).toTree = Tree.empty top := by
  simp only [toTree, empty, Tree.empty, List.map_toArray, List.map_cons, List.map_nil, Cell.toNode]

theorem linked_empty (top : Place) : Linked (empty top) := by
  have hrooted : (empty top).toTree.Rooted := toTree_empty top ▸ Tree.rooted_empty top
  refine ⟨hrooted, fun id => (Tree.children_eq_of_mem hrooted ?_ fun k => ?_).symm⟩
  · rcases id with - | id <;> exact List.Pairwise.nil
  · rw [parent?_toTree]
    rcases id with - | id <;> rcases k with - | k <;> simp [children, parent?, empty]

theorem Linked.add (h : a.Linked) {parent : NodeId} (hparent : a.isFolder parent = true)
    (name : Text) {content : Content} (hcontent : ∀ l, content = .folder l → l = []) :
    (a.add parent name content).1.Linked := by
  have hfolder : a.toTree.isFolder parent = true := (isFolder_toTree a parent).trans hparent
  refine ⟨?_, fun id => ?_⟩
  · rw [toTree_add]
    exact h.rooted.add hfolder
  · rw [toTree_add, Tree.children_add h.rooted hfolder, children_add hparent name hcontent,
      h.children, size_toTree]

theorem Linked.note (h : a.Linked) (hfile : a.isFile id = true) (f : FileState → FileState) :
    (a.note id f).Linked := by
  have hrooted : (a.note id f).toTree.Rooted := h.rooted.modifyFile (toTree_note hfile f)
  refine ⟨hrooted, fun k => ?_⟩
  rw [children_note, h.children]
  refine (Tree.children_eq_of_mem hrooted (Tree.pairwise_children _ k) fun j => ?_).symm
  rw [Tree.mem_children h.rooted, parent?_toTree, parent?_toTree, parent?_note]

theorem Built.linked (h : a.Built) : a.Linked := by
  induction h with
  | empty top => exact linked_empty top
  | addFolder _ hparent name ih => exact ih.add hparent name fun _ hl => (Content.folder.inj hl).symm
  | addSource _ hparent name ih => exact ih.add hparent name nofun
  | addFile _ hparent name content ih => exact ih.add hparent name nofun
  | note _ hfile f ih => exact ih.note hfile f

/-! ## how the loops end -/

/-- **The walk down ends**, with the descendants of the node it began at. -/
theorem Linked.halts_visit (h : a.Linked) (id : NodeId) :
    Halts a.visit ⟨a.children id, []⟩ ⟨[], a.toTree.descendants id⟩ := by
  have hround : ∀ k rest done, a.visit (Visit.mk (k :: rest) done) =
      some (Visit.mk (a.toTree.children k ++ rest) (done ++ [k])) := by
    intro k rest done
    rw [← h.children]
    rfl
  have hend := halts_walk Visit.mk (fun k => k :: a.toTree.descendants k) hround (fun _ => rfl)
    (fun _ _ hc => hc) (fun k => congrArg (k :: ·) (Tree.descendants_eq _ k)) (a.children id)
  rw [h.children, ← Tree.descendants_eq] at hend
  exact h.children id ▸ hend

theorem Linked.halts_climb (h : a.Linked) (id : NodeId) (path : List NodeId) :
    Halts a.climb ⟨some id, path⟩ ⟨none, a.toTree.ancestry id ++ path⟩ := by
  induction id using Nat.strongRecOn generalizing path with
  | _ id ih =>
    refine .next rfl ?_
    rw [Tree.ancestry, parent?_toTree]
    cases hp : a.parent? id with
    | none => exact .stop rfl
    | some p =>
      have hlt : p < id := h.rooted.parent ((parent?_toTree a id).trans hp)
      have hend := ih p hlt (id :: path)
      dsimp only
      rw [if_pos hlt, List.append_assoc]
      exact hend

/-- the walk up with names ends at the source directory, or at once where there is no node -/
theorem Linked.halts_climbNames (h : a.Linked) (id : NodeId) (path : List Text) :
    ∃ here, Halts a.climbNames ⟨some id, path⟩ ⟨here, a.toTree.names id ++ path⟩ := by
  induction id using Nat.strongRecOn generalizing path with
  | _ id ih =>
    rw [Tree.names, node?_toTree]
    rcases hcell : a.cells[id]? with - | ⟨name, parent, content⟩
    · refine ⟨some id, .stop ?_⟩
      show ((some id).bind fun id => a.cells[id]?).map _ = none
      rw [Option.bind_some, hcell]
      rfl
    · have hround : a.climbNames ⟨some id, path⟩ =
          some ⟨parent, if parent.isSome then name :: path else path⟩ := by
        show ((some id).bind fun id => a.cells[id]?).map _ = _
        rw [Option.bind_some, hcell]
        rfl
      cases parent with
      | none => exact ⟨none, .next hround (.stop rfl)⟩
      | some p =>
        have hp : a.toTree.parent? id = some p := by
          rw [parent?_toTree, parent?, hcell]
          rfl
        have hlt : p < id := h.rooted.parent hp
        obtain ⟨here, hend⟩ := ih p hlt (name :: path)
        refine ⟨here, .next hround ?_⟩
        dsimp only [Option.map_some, Cell.toNode]
        rw [if_pos hlt, List.append_assoc]
        exact hend

/-! ## scans -/

/-- reading the source directory adds nodes to folders only -/
theorem exists_built_scan {disk : Disk} {src : Text} {filter : TreeFilter} {t : Tree}
    (h : Tree.scan disk src filter = .ok t) : ∃ a : Arena, a.Built ∧ a.toTree = t := by
  have hfold : ∀ (entries : List (Place × Entry)) (s : Scan),
      (∃ a : Arena, a.Built ∧ a.toTree = s.tree) → (∀ x ∈ s.folders, s.tree.isFolder x.2 = true) →
      ∃ a : Arena, a.Built ∧ a.toTree = (entries.foldl Scan.add s).tree := by
    intro entries
    induction entries with
    | nil => exact fun _ hs _ => hs
    | cons e entries ih =>
      rintro s ⟨a, ha, htree⟩ hfolders
      rw [List.foldl_cons]
      have hparent : s.tree.isFolder
          (((s.folders.find? (·.1 == e.1.dropLast)).map (·.2)).getD Tree.root) = true := by
        cases hfind : s.folders.find? (·.1 == e.1.dropLast) with
        | none => exact htree ▸ ha.linked.rooted.isFolder_root
        | some x => exact hfolders x (List.mem_of_find?_eq_some hfind)
      have hlisted := hparent
      rw [← htree, isFolder_toTree] at hlisted
      unfold Scan.add
      cases e.2 with
      | folder =>
        refine ih _ ⟨_, ha.addFolder hlisted (e.1.getLast?.getD []), ?_⟩ fun x hx => ?_
        · exact (toTree_add a _ _ _).trans (htree ▸ rfl)
        · rcases List.mem_append.mp hx with hx | hx
          · exact Tree.isFolder_add (hfolders x hx)
          · rw [List.mem_singleton.mp hx]
            exact Tree.isFolder_iff.mpr ⟨_, _, Tree.node?_add_self⟩
      | file content =>
        refine ih _ ⟨_, ha.addSource hlisted (e.1.getLast?.getD []), ?_⟩ fun x hx => ?_
        · exact (toTree_add a _ _ _).trans (htree ▸ rfl)
        · exact Tree.isFolder_add (hfolders x hx)
  obtain ⟨top, -, rfl⟩ := Tree.scan_eq_ok h
  refine hfold _ _ ⟨_, .empty top, toTree_empty top⟩ fun x hx => ?_
  rw [List.mem_singleton.mp hx]
  exact (Tree.rooted_empty top).isFolder_root

/-! ## the whole -/

/-- **An arena is always a tree.**  However nodes are added to folders: every node but the source
directory has a folder with a smaller number for its parent and is listed there once, and nowhere else;
lists hold nothing but such children, in the order they were added, and files list nothing.  So the
walks up from any node and the walk down come to an end, with what the tree without the lists says.  The
walk down lists all that is below the node, each once, no node before its parent, and siblings in the
order they were added. -/
theorem Built.isTree (h : a.Built) :
    a.parent? Tree.root = none ∧
    (∀ k < a.cells.size, k ≠ Tree.root → ∃ p < k, a.parent? k = some p ∧ a.isFolder p = true ∧
      (a.children p).count k = 1 ∧ ∀ q, q ≠ p → k ∉ a.children q) ∧
    (∀ p, (a.children p).Pairwise (· < ·) ∧
      ∀ k ∈ a.children p, k < a.cells.size ∧ a.parent? k = some p) ∧
    (∀ id, a.isFile id = true → a.children id = []) ∧
    ∀ id, (∃ here, Halts a.climbNames ⟨some id, []⟩ ⟨here, a.toTree.names id⟩) ∧
      Halts a.climb ⟨some id, []⟩ ⟨none, a.toTree.ancestry id⟩ ∧
      ∃ nodes, Halts a.visit ⟨a.children id, []⟩ ⟨[], nodes⟩ ∧ nodes = a.toTree.descendants id ∧
        nodes.Nodup ∧ (∀ k, k ∈ nodes ↔ a.toTree.Below id k) ∧
        nodes.Pairwise fun x y =>
          a.parent? x ≠ some y ∧ (a.parent? x = a.parent? y → x < y) := by
  have hl := h.linked
  have hmem : ∀ {p k}, k ∈ a.children p ↔ a.parent? k = some p := by
    intro p k
    rw [hl.children, Tree.mem_children hl.rooted, parent?_toTree]
  have hsorted : ∀ p, (a.children p).Pairwise (· < ·) := fun p =>
    hl.children p ▸ Tree.pairwise_children _ p
  refine ⟨?_, fun k hk hroot => ?_, fun p => ⟨hsorted p, fun k hk => ?_⟩, fun id hfile => ?_,
    fun id => ⟨?_, ?_, a.toTree.descendants id, hl.halts_visit id, rfl,
      Tree.nodup_descendants hl.rooted id, fun k => Tree.mem_descendants_iff hl.rooted, ?_⟩⟩
  · obtain ⟨name, hn⟩ := hl.rooted.root
    exact (parent?_toTree a _).symm.trans (Tree.parent?_of_node? hn)
  · cases hp : a.parent? k with
    | none =>
      have hn : a.toTree.node? k = some (a.cells[k]).toNode := by
        rw [node?_toTree, Array.getElem?_eq_getElem hk, Option.map_some]
      refine absurd (hl.rooted.alone hn ?_) hroot
      rw [← hp, ← parent?_toTree, Tree.parent?, hn, Option.bind_some]
    | some p =>
      have hp' : a.toTree.parent? k = some p := (parent?_toTree a k).trans hp
      refine ⟨p, hl.rooted.parent hp', rfl, ?_, ?_, fun q hq hkq => hq ?_⟩
      · rw [← isFolder_toTree]
        exact hl.rooted.folder hp'
      · exact List.count_eq_one_of_mem ((hsorted p).imp Nat.ne_of_lt) (hmem.mpr hp)
      · exact Option.some.inj ((hmem.mp hkq).symm.trans hp)
  · refine ⟨?_, hmem.mp hk⟩
    rw [hl.children] at hk
    exact size_toTree a ▸ (Tree.lt_of_mem_children hk).2
  · unfold isFile at hfile
    unfold children
    split at hfile
    · rename_i hcell
      rw [hcell]
    · exact absurd hfile Bool.false_ne_true
  · have hend := hl.halts_climbNames id []
    rwa [List.append_nil] at hend
  · have hend := hl.halts_climb id []
    rwa [List.append_nil] at hend
  · refine ((Tree.pairwise_descendants hl.rooted id).and (Tree.pairwise_siblings hl.rooted id)).imp ?_
    rintro x y ⟨hback, hlt⟩
    rw [parent?_toTree, parent?_toTree] at hlt
    exact ⟨fun hp => hback (.step ((parent?_toTree a x).trans hp) .self), hlt⟩

/-! ## a folder in a folder -/

/-- two files in the source directory, around a folder that holds a file and a folder with a file -/
def nested : Arena :=
  let a := ((Arena.empty []).addFolder 0 "a".toList).1
  let a := (a.addSource 1 "x.js".toList).1
  let a := (a.addFolder 1 "b".toList).1
  let a := (a.addSource 0 "y.js".toList).1
  (a.addFile 3 "0.js".toList "z();".toList).1

theorem built_nested : nested.Built := by
  unfold nested
  refine .addFile (.addSource (.addFolder (.addSource (.addFolder (.empty []) ?_ _) ?_ _) ?_ _) ?_ _)
    ?_ _ _ <;> decide

theorem isTree_nested : nested.Built ∧ nested.children 0 = [1, 4] ∧
    (∃ p < 5, nested.parent? 5 = some p ∧ nested.isFolder p = true ∧
      (nested.children p).count 5 = 1 ∧ ∀ q, q ≠ p → 5 ∉ nested.children q) ∧
    Halts nested.visit ⟨[1, 4], []⟩ ⟨[], [1, 2, 3, 5, 4]⟩ ∧
    nested.toTree.descendants 0 = [1, 2, 3, 5, 4] := by
  have hlist : nested.children 0 = [1, 4] := by decide
  obtain ⟨-, hparent, -, -, hwalks⟩ := built_nested.isTree
  obtain ⟨-, -, nodes, hend, hnodes, -⟩ := hwalks 0
  have hrun : Halts nested.visit ⟨nested.children 0, []⟩ ⟨[], [1, 2, 3, 5, 4]⟩ :=
    .next rfl (.next rfl (.next rfl (.next rfl (.next rfl (.stop rfl)))))
  have hsame : nodes = [1, 2, 3, 5, 4] := congrArg Visit.done (hend.unique hrun)
  refine ⟨built_nested, hlist, hparent 5 (by decide) (by decide), hlist ▸ hrun, ?_⟩
  rw [← hnodes, hsame]

end Arena

end SiteBundle
