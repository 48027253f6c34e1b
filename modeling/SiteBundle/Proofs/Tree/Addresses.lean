import SiteBundle.Proofs.Disk.Paths
import SiteBundle.Proofs.Style.Shortest
import SiteBundle.Proofs.Tree.Rooted

/-!
# Addresses lead back

Where the nodes of each folder have names of their own that can stand in a reference
(`Tree.Addressable`), a node is known by its address, be it the reference from a directory, the place on
the disk or the path from the source directory (`addresses_lead_back`).

* `Way`                 the nodes on the way down from one node to another;
* `Way.up`, `Way.down`  as many steps up as there are nodes on it lead back, and their names lead there;
* `pathFromDirectory?_eq`   the reference goes up to the node where two ways part, and down from there;
* `length_stepsBetween_names`   no reference takes fewer steps than there are between the names.
-/

namespace SiteBundle.Tree

open Text

/-- the name of a node -/
def nameOf (t : Tree) (id : NodeId) : Text := ((t.node? id).map (·.name)).getD []

/-- the nodes can be told apart by the names on the way to them, and addressed by these -/
structure Addressable (t : Tree) : Prop where
  rooted : t.Rooted
  distinct : ∀ {j k name p kind kind'}, t.node? j = some ⟨name, some p, kind⟩ →
    t.node? k = some ⟨name, some p, kind'⟩ → j = k
  folderName : ∀ {k name p kind}, t.node? k = some ⟨name, some p, kind⟩ → IsFolderName name
  /-- white space at the end of a reference is not read -/
  ends : ∀ {k name p kind}, t.node? k = some ⟨name, some p, kind⟩ →
    ∀ c ∈ name.getLast?, isBlank c = false
  top : ∀ step ∈ t.top, isIdle step = false

/-- the part of a reference that is walked -/
def referencePath (r : Text) : Text := trim (splitSuffix r).1

/-- the steps of a reference that go up or down -/
def referenceMoves (r : Text) : Nat := moves (splitOn '/' (referencePath r))

variable {t : Tree} {id top j k p dir target : NodeId} {ks : List NodeId} {name : Text}
  {kind : NodeKind}

theorem nameOf_eq {parent : Option NodeId} (h : t.node? id = some ⟨name, parent, kind⟩) :
    t.nameOf id = name := by
  rw [nameOf, h]
  rfl

theorem resolve?_eq_some_iff {r : Text} : t.resolve? dir r = some k ↔
    referencePath r ≠ [] ∧ (splitOn '/' (referencePath r)).foldlM t.stepTo?
      (if isRooted (referencePath r) then root else dir) = some k ∧ t.isFile k = true := by
  unfold resolve? referencePath
  dsimp only
  generalize trim (splitSuffix r).1 = path
  cases path with
  | nil => exact ⟨(nofun), fun h => absurd rfl h.1⟩
  | cons c path =>
    rw [List.isEmpty_cons, if_neg Bool.false_ne_true]
    generalize (splitOn '/' (c :: path)).foldlM t.stepTo?
      (if isRooted (c :: path) = true then root else dir) = found
    refine Iff.trans ?_ (and_iff_right (List.cons_ne_nil c path)).symm
    cases found with
    | none => exact ⟨nofun, fun h => nomatch h.1⟩
    | some found =>
      show (if t.isFile found = true then some found else none) = some k ↔ _
      split
      · rename_i hfile
        exact ⟨fun h => ⟨h, Option.some.inj h ▸ hfile⟩, fun h => h.1⟩
      · rename_i hfile
        exact ⟨nofun, fun h => absurd (Option.some.inj h.1 ▸ h.2) hfile⟩

/-! ## the way down -/

/-- the nodes on the way from one node down to another, without the first one -/
inductive Way (t : Tree) (top : NodeId) : List NodeId → NodeId → Prop
  | here : Way t top [] top
  | step {ks : List NodeId} {p k : NodeId} (hp : t.parent? k = some p) (h : Way t top ks p) :
      Way t top (ks ++ [k]) k

theorem Way.names (h : t.Rooted) (hw : t.Way top ks k) :
    t.names k = t.names top ++ ks.map t.nameOf := by
  induction hw with
  | here => exact (List.append_nil _).symm
  | step hp _ ih =>
    obtain ⟨name, kind, hn⟩ := node?_of_parent? hp
    rw [names_child h hn, ih, List.map_append, List.map_singleton, nameOf_eq hn, List.append_assoc]

theorem Way.eq_of_nil (hw : t.Way top [] k) : k = top := by
  generalize hks : ([] : List NodeId) = way at hw
  cases hw with
  | here => rfl
  | step => exact absurd hks.symm (List.concat_ne_nil _ _)

/-- the way without its first node -/
theorem Way.tail (hw : t.Way top (j :: ks) k) : t.parent? j = some top ∧ t.Way j ks k := by
  generalize hks : j :: ks = way at hw
  induction hw generalizing ks with
  | here => exact nomatch hks
  | @step front p k hp h ih =>
    cases front with
    | nil =>
      obtain ⟨rfl, rfl⟩ := List.cons.inj hks
      obtain rfl := h.eq_of_nil
      exact ⟨hp, .here⟩
    | cons j' front =>
      obtain ⟨rfl, rfl⟩ := List.cons.inj hks
      obtain ⟨hj, hway⟩ := ih rfl
      exact ⟨hj, .step hp hway⟩

theorem Way.exists_concat (hw : t.Way top ks k) (hne : ks ≠ []) : ∃ front, ks = front ++ [k] := by
  cases hw with
  | here => exact absurd rfl hne
  | step => exact ⟨_, rfl⟩

/-- the nodes on the way to a folder are folders -/
theorem Way.isFolder (h : t.Rooted) (hw : t.Way j ks k) (hk : t.isFolder k = true) :
    t.isFolder j = true := by
  cases ks with
  | nil =>
    obtain rfl := hw.eq_of_nil
    exact hk
  | cons c ks => exact h.folder hw.tail.1

/-- no way to a folder begins with a file -/
theorem Way.head_ne (h : t.Rooted) (hw : t.Way top ks j) (hj : t.isFolder j = true)
    (hk : t.isFile k = true) : ∀ a ∈ ks.head?, a ≠ k := by
  intro a ha
  obtain ⟨ks, rfl⟩ := List.head?_eq_some_iff.mp ha
  rintro rfl
  exact nomatch hk.symm.trans (isFile_eq_false (hw.tail.2.isFolder h hj))

/-- as many steps up lead back -/
theorem Way.up (hw : t.Way top ks k) :
    (ks.map fun _ => (['.', '.'] : Text)).foldlM t.stepTo? k = some top := by
  induction hw with
  | here => rfl
  | @step ks p k hp _ ih =>
    have hmap : (ks ++ [k]).map (fun _ => (['.', '.'] : Text)) =
        ['.', '.'] :: ks.map fun _ => ['.', '.'] := by
      rw [List.map_const', List.map_const', List.length_append]
      rfl
    have hup : t.stepTo? k ['.', '.'] = some p := by
      rw [stepTo?, if_neg (by decide), if_pos rfl, hp]
      rfl
    rw [hmap, List.foldlM_cons, hup]
    exact ih

theorem Addressable.stepTo?_child (h : t.Addressable)
    (hn : t.node? k = some ⟨name, some p, kind⟩) : t.stepTo? p name = some k := by
  have hp := parent?_of_node? hn
  rw [stepTo?_plain (h.folderName hn).entry.1]
  exact childNamed?_of_first (h.rooted.folder hp) (h.rooted.parent hp) hn
    fun _ _ _ hj => h.distinct hj hn

/-- the names on the way lead there -/
theorem Way.down (h : t.Addressable) (hw : t.Way top ks k) :
    (ks.map t.nameOf).foldlM t.stepTo? top = some k := by
  induction hw with
  | here => rfl
  | step hp _ ih =>
    obtain ⟨name, kind, hn⟩ := node?_of_parent? hp
    rw [List.map_append, List.foldlM_append, ih, List.map_singleton, nameOf_eq hn]
    show t.stepTo? _ name >>= _ = _
    rw [h.stepTo?_child hn]
    rfl

theorem Way.node?_of_mem (hw : t.Way top ks k) : ∀ j ∈ ks, ∃ name p kind,
    t.node? j = some ⟨name, some p, kind⟩ := by
  induction hw with
  | here => exact fun _ hj => nomatch hj
  | step hp _ ih =>
    obtain ⟨name, kind, hn⟩ := node?_of_parent? hp
    exact List.forall_mem_append.mpr ⟨ih, List.forall_mem_singleton.mpr ⟨name, _, kind, hn⟩⟩

/-- the nodes above a node that come behind one of them are the way from there -/
theorem way_of_ancestry (h : t.Rooted) {front : List NodeId} (hne : front ≠ [])
    (heq : t.ancestry k = front ++ ks) : ∃ m, front.getLast? = some m ∧ t.Way m ks k := by
  induction k using Nat.strongRecOn generalizing ks with
  | _ k ih =>
    rcases List.eq_nil_or_concat ks with rfl | ⟨ks, last, rfl⟩
    · refine ⟨k, ?_, .here⟩
      rw [List.append_nil] at heq
      rw [← heq, ancestry]
      split
      · rfl
      · rename_i p hp
        rw [if_pos (h.parent hp), List.getLast?_concat]
    · rw [List.concat_eq_append, ← List.append_assoc, ancestry] at heq
      split at heq
      · have heq : [] ++ [k] = front ++ ks ++ [last] := heq
        obtain ⟨hfront, -⟩ := List.append_inj' heq rfl
        exact absurd (List.append_eq_nil_iff.mp hfront.symm).1 hne
      · rename_i p hp
        rw [if_pos (h.parent hp)] at heq
        obtain ⟨hfront, hlast⟩ := List.append_inj' heq rfl
        obtain rfl := (List.cons.inj hlast).1
        obtain ⟨m, hm, hway⟩ := ih p (h.parent hp) hfront
        exact ⟨m, hm, List.concat_eq_append ▸ .step hp hway⟩

theorem exists_ancestry (h : t.Rooted) (hk : k < t.nodes.size) :
    ∃ ks, t.ancestry k = Tree.root :: ks := by
  induction k using Nat.strongRecOn with
  | _ k ih =>
    obtain ⟨⟨name, parent, kind⟩, hn⟩ : ∃ n, t.node? k = some n :=
      ⟨_, node?_eq_some_iff.mpr ⟨hk, rfl⟩⟩
    rw [ancestry, parent?_of_node? hn]
    cases parent with
    | none =>
      obtain rfl := h.alone hn rfl
      exact ⟨[], rfl⟩
    | some p =>
      have hp := parent?_of_node? hn
      obtain ⟨ks, hks⟩ := ih p (h.parent hp) (h.parent_lt hp)
      dsimp only
      rw [if_pos (h.parent hp), hks]
      exact ⟨ks ++ [k], rfl⟩

/-- everything is on a way down from the source directory -/
theorem exists_way (h : t.Rooted) (hk : k < t.nodes.size) : ∃ ks, t.Way Tree.root ks k := by
  obtain ⟨ks, hks⟩ := exists_ancestry h hk
  obtain ⟨m, hm, hway⟩ := way_of_ancestry h (List.cons_ne_nil Tree.root []) hks
  obtain rfl := Option.some.inj hm
  exact ⟨ks, hway⟩

/-! ## two ways -/

theorem dropCommonIds_spec (as bs : List NodeId) : ∃ common,
    as = common ++ (pathFromDirectory?.dropCommonIds as bs).1 ∧
    bs = common ++ (pathFromDirectory?.dropCommonIds as bs).2 ∧
    ∀ a ∈ (pathFromDirectory?.dropCommonIds as bs).1.head?,
      ∀ b ∈ (pathFromDirectory?.dropCommonIds as bs).2.head?, a ≠ b := by
  fun_induction pathFromDirectory?.dropCommonIds as bs with
  | case1 as a bs ih =>
    obtain ⟨common, has, hbs, hne⟩ := ih
    exact ⟨a :: common, congrArg (a :: ·) has, congrArg (a :: ·) hbs, hne⟩
  | case2 a as b bs hne =>
    refine ⟨[], rfl, rfl, fun a' ha b' hb => ?_⟩
    rw [← Option.some.inj ha, ← Option.some.inj hb]
    exact hne
  | case3 as bs hno =>
    refine ⟨[], rfl, rfl, fun a ha b hb => ?_⟩
    obtain ⟨as, rfl⟩ := List.head?_eq_some_iff.mp ha
    obtain ⟨bs, rfl⟩ := List.head?_eq_some_iff.mp hb
    exact absurd rfl (hno a as b bs rfl)

/-- two nodes are below the last node that the ways to both have in common -/
theorem exists_fork (h : t.Rooted) (hdir : dir < t.nodes.size) (hp : p < t.nodes.size) :
    ∃ m up down, pathFromDirectory?.dropCommonIds (t.ancestry dir) (t.ancestry p) = (up, down) ∧
      t.Way m up dir ∧ t.Way m down p ∧ ∀ a ∈ up.head?, ∀ b ∈ down.head?, a ≠ b := by
  obtain ⟨as, has⟩ := exists_ancestry h hdir
  obtain ⟨bs, hbs⟩ := exists_ancestry h hp
  obtain ⟨common, hup, hdown, hne⟩ := dropCommonIds_spec (t.ancestry dir) (t.ancestry p)
  generalize pathFromDirectory?.dropCommonIds (t.ancestry dir) (t.ancestry p) = parts at *
  obtain ⟨up, down⟩ := parts
  have hcommon : common ≠ [] := by
    rintro rfl
    rw [List.nil_append, has] at hup
    rw [List.nil_append, hbs] at hdown
    exact hne root (by rw [← hup]; rfl) root (by rw [← hdown]; rfl) rfl
  obtain ⟨m, hm, hwayUp⟩ := way_of_ancestry h hcommon hup
  obtain ⟨m', hm', hwayDown⟩ := way_of_ancestry h hcommon hdown
  obtain rfl := Option.some.inj (hm.symm.trans hm')
  exact ⟨m, up, down, rfl, hwayUp, hwayDown, hne⟩

theorem mapM_nameOf {ids : List NodeId} (h : ∀ k ∈ ids, k < t.nodes.size) :
    ids.mapM (fun id => (t.node? id).map (·.name)) = some (ids.map t.nameOf) := by
  induction ids with
  | nil => rfl
  | cons id ids ih =>
    obtain ⟨hid, hids⟩ := List.forall_mem_cons.mp h
    obtain ⟨⟨name, parent, kind⟩, hn⟩ : ∃ n, t.node? id = some n :=
      ⟨_, node?_eq_some_iff.mpr ⟨hid, rfl⟩⟩
    rw [List.mapM_cons, ih hids, hn, List.map_cons, nameOf_eq hn]
    rfl

/-- the steps up, or `.` in their place -/
def leadOf (up : List NodeId) : List Text :=
  if up.isEmpty then [['.']] else up.map fun _ => ['.', '.']

/-- the steps of the reference that goes up one way and down another -/
def referenceSteps (t : Tree) (up down : List NodeId) : List Text := leadOf up ++ down.map t.nameOf

/-- the reference to a node goes up to where the two ways part, and down from there -/
theorem pathFromDirectory?_eq (h : t.Rooted) (hdir : dir < t.nodes.size)
    (hp : t.parent? target = some p) : ∃ m up down, t.Way m up dir ∧ t.Way m down p ∧
      (∀ a ∈ up.head?, ∀ b ∈ down.head?, a ≠ b) ∧ t.pathFromDirectory? dir target =
        some (join ['/'] (t.referenceSteps up (down ++ [target]))) := by
  obtain ⟨name, kind, hn⟩ := node?_of_parent? hp
  obtain ⟨m, up, down, hparts, hup, hdown, hne⟩ := exists_fork h hdir (h.parent_lt hp)
  have hlt : ∀ k ∈ down ++ [target], k < t.nodes.size := by
    refine List.forall_mem_append.mpr ⟨fun k hk => ?_, List.forall_mem_singleton.mpr (lt_of_node? hn)⟩
    obtain ⟨name', p', kind', hk'⟩ := hdown.node?_of_mem k hk
    exact lt_of_node? hk'
  refine ⟨m, up, down, hup, hdown, hne, ?_⟩
  unfold pathFromDirectory?
  rw [hp, Option.getD_some, hparts]
  dsimp only
  rw [mapM_nameOf hlt]
  rfl

/-! ## the steps of a reference -/

theorem moves_append (steps rest : List Text) : moves (steps ++ rest) = moves steps + moves rest := by
  rw [moves, List.filter_append, List.length_append]
  rfl

theorem moves_eq_length {steps : List Text} (h : ∀ step ∈ steps, isIdle step = false) :
    moves steps = steps.length := by
  rw [moves, List.filter_eq_self.mpr fun step hstep => by rw [h step hstep]; rfl]

theorem mem_leadOf {up : List NodeId} {step : Text} (h : step ∈ leadOf up) :
    step = ['.'] ∨ step = ['.', '.'] := by
  unfold leadOf at h
  split at h
  · exact .inl (List.mem_singleton.mp h)
  · obtain ⟨-, -, rfl⟩ := List.mem_map.mp h
    exact .inr rfl

theorem moves_leadOf (up : List NodeId) : moves (leadOf up) = up.length := by
  cases up with
  | nil => rfl
  | cons k up =>
    refine (moves_eq_length fun step hstep => ?_).trans (List.length_map _)
    obtain ⟨-, -, rfl⟩ := List.mem_map.mp hstep
    rfl

theorem Way.lead (hw : t.Way top ks k) : (leadOf ks).foldlM t.stepTo? k = some top := by
  cases ks with
  | nil =>
    obtain rfl := hw.eq_of_nil
    rfl
  | cons c ks => exact hw.up

theorem head?_join_cons (step : Text) (steps : List Text) (hne : step ≠ []) :
    (join ['/'] (step :: steps)).head? = step.head? := by
  obtain ⟨c, r, rfl⟩ := List.exists_cons_of_ne_nil hne
  cases steps with
  | nil => rfl
  | cons next steps => rw [join_cons _ (List.cons_ne_nil next steps)]; rfl

theorem getLast?_join_concat (steps : List Text) (step : Text) (hne : step ≠ []) :
    (join ['/'] (steps ++ [step])).getLast? = step.getLast? := by
  obtain ⟨c, hc⟩ : ∃ c, step.getLast? = some c :=
    Option.isSome_iff_exists.mp (List.getLast?_isSome.mpr hne)
  induction steps with
  | nil => rfl
  | cons first steps ih =>
    rw [List.cons_append, join_cons first (List.concat_ne_nil _ _), List.getLast?_append,
      List.getLast?_append, ih, hc]
    rfl

/-- a reference made of steps is read step by step -/
theorem referencePath_join {steps : List Text} {first last : Text} (hfirst : steps.head? = some first)
    (hdot : first.head? = some '.') (hlast : steps.getLast? = some last) (hne : last ≠ [])
    (hend : ∀ c ∈ last.getLast?, isBlank c = false)
    (hplain : ∀ step ∈ steps, '/' ∉ step ∧ ∀ c ∈ step, isSuffixStart c = false) :
    referencePath (join ['/'] steps) = join ['/'] steps ∧
      (join ['/'] steps).head? = some '.' ∧ splitOn '/' (join ['/'] steps) = steps := by
  obtain ⟨rest, hrest⟩ := List.head?_eq_some_iff.mp hfirst
  have hhead : (join ['/'] steps).head? = some '.' := by
    rw [hrest, head?_join_cons, hdot]
    rintro rfl
    exact nomatch hdot
  have hbare : ∀ c ∈ join ['/'] steps, isSuffixStart c = false := by
    intro c hc
    rcases mem_join hc with hc | ⟨step, hstep, hc⟩
    · rw [List.mem_singleton.mp hc]
      rfl
    · exact (hplain step hstep).2 c hc
  have htight : Tight (join ['/'] steps) := by
    refine ⟨fun c hc => ?_, ?_⟩
    · rw [hhead] at hc
      obtain rfl := Option.some.inj hc
      rfl
    · obtain ⟨front, hfront⟩ := List.getLast?_eq_some_iff.mp hlast
      rw [hfront, getLast?_join_concat front last hne]
      exact hend
  have hcut := splitSuffix_append hbare (.inl rfl)
  rw [List.append_nil] at hcut
  refine ⟨?_, hhead, splitOn_join (hrest ▸ List.cons_ne_nil _ _) fun step hstep => (hplain step hstep).1⟩
  rw [referencePath, hcut, trim_of_tight htight]

theorem Addressable.folderName_of_way (h : t.Addressable) (hw : t.Way top ks k) :
    ∀ name ∈ ks.map t.nameOf, IsFolderName name := by
  intro name hname
  obtain ⟨j, hj, rfl⟩ := List.mem_map.mp hname
  obtain ⟨name, p, kind, hn⟩ := hw.node?_of_mem j hj
  rw [nameOf_eq hn]
  exact h.folderName hn

/-- the reference to a node below another is read step by step -/
theorem Addressable.referencePath_steps (h : t.Addressable) (up : List NodeId)
    (hw : t.Way top ks k) (hne : ks ≠ []) :
    referencePath (join ['/'] (t.referenceSteps up ks)) = join ['/'] (t.referenceSteps up ks) ∧
      (join ['/'] (t.referenceSteps up ks)).head? = some '.' ∧
      splitOn '/' (join ['/'] (t.referenceSteps up ks)) = t.referenceSteps up ks := by
  have hnames := h.folderName_of_way hw
  obtain ⟨front, rfl⟩ := hw.exists_concat hne
  obtain ⟨name, p, kind, hn⟩ := hw.node?_of_mem k (List.mem_append_right _ (List.mem_singleton_self k))
  have hlast : (t.referenceSteps up (front ++ [k])).getLast? = some name := by
    rw [referenceSteps, List.map_append, List.map_singleton, nameOf_eq hn, ← List.append_assoc,
      List.getLast?_concat]
  obtain ⟨first, hfirst, hdot⟩ : ∃ first, (t.referenceSteps up (front ++ [k])).head? = some first ∧
      first.head? = some '.' := by
    cases up with
    | nil => exact ⟨['.'], rfl, rfl⟩
    | cons a up => exact ⟨['.', '.'], rfl, rfl⟩
  refine referencePath_join hfirst hdot hlast (h.folderName hn).entry.ne_nil (h.ends hn)
    (List.forall_mem_append.mpr ⟨fun step hstep => ?_, fun step hstep => ?_⟩)
  · rcases mem_leadOf hstep with rfl | rfl <;> decide
  · exact ⟨(hnames step hstep).entry.2, (hnames step hstep).plain⟩

theorem Addressable.moves_referenceSteps (h : t.Addressable) (up : List NodeId)
    (hw : t.Way top ks k) : moves (t.referenceSteps up ks) = up.length + ks.length := by
  have hnames : ∀ name ∈ ks.map t.nameOf, isIdle name = false := fun name hname =>
    (isPlainName_iff.mp (h.folderName_of_way hw name hname).entry.1).1
  rw [referenceSteps, moves_append, moves_leadOf, moves_eq_length hnames, List.length_map]

/-! ## the fewest steps -/

/-- no steps that lead from one node to another are fewer than those between their names -/
theorem length_stepsBetween_names (h : t.Rooted) {steps : List Text}
    (hk : steps.foldlM t.stepTo? j = some k) :
    (stepsBetween (t.names j) (t.names k)).length ≤ moves steps := by
  induction steps generalizing j with
  | nil =>
    obtain rfl := Option.some.inj hk
    rw [stepsBetween_self]
    exact Nat.zero_le _
  | cons step steps ih =>
    obtain ⟨next, hnext, hrest⟩ := Option.bind_eq_some_iff.mp hk
    have hle := ih hrest
    unfold stepTo? at hnext
    split at hnext
    · rename_i hidle
      obtain rfl := Option.some.inj hnext
      rwa [moves_cons_idle (isIdle_iff.mpr hidle)]
    · rename_i hidle
      rw [moves_cons (Bool.eq_false_iff.mpr fun hstep => hidle (isIdle_iff.mp hstep))]
      split at hnext
      · obtain rfl := Option.some.inj hnext
        cases hp : t.parent? j with
        | none =>
          rw [hp] at hle
          exact Nat.le_succ_of_le hle
        | some p =>
          rw [hp] at hle
          obtain ⟨name, kind, hn⟩ := node?_of_parent? hp
          rw [names_child h hn]
          exact Nat.le_trans (length_stepsBetween_concat _ _ name).1 (Nat.succ_le_succ hle)
      · obtain ⟨-, kind, hn⟩ := childNamed?_eq_some hnext
        rw [names_child h hn] at hle
        exact Nat.le_trans (length_stepsBetween_concat _ _ step).2 (Nat.succ_le_succ hle)

theorem dropCommon_append (common as bs : List Text) :
    dropCommon (common ++ as) (common ++ bs) = dropCommon as bs := by
  induction common with
  | nil => rfl
  | cons name common ih => exact (dropCommon_cons_self name _ _).trans ih

theorem dropCommon_of_ne {as bs : List Text} (h : ∀ a ∈ as.head?, ∀ b ∈ bs.head?, a ≠ b) :
    dropCommon as bs = (as, bs) := by
  cases as with
  | nil => exact dropCommon_nil bs
  | cons a as =>
    cases bs with
    | nil => rfl
    | cons b bs => rw [dropCommon, if_neg (h a rfl b rfl)]

/-- where two ways part at once, there are as many steps between their ends as they have nodes -/
theorem Addressable.length_stepsBetween_fork (h : t.Addressable) {up down : List NodeId}
    (hup : t.Way top up j) (hdown : t.Way top down k)
    (hne : ∀ a ∈ up.head?, ∀ b ∈ down.head?, a ≠ b) :
    (stepsBetween (t.names j) (t.names k)).length = up.length + down.length := by
  have hnames : ∀ a ∈ (up.map t.nameOf).head?, ∀ b ∈ (down.map t.nameOf).head?, a ≠ b := by
    cases up with
    | nil => exact nofun
    | cons a up =>
      cases down with
      | nil => exact nofun
      | cons b down =>
        intro a' ha b' hb heq
        obtain rfl := Option.some.inj ha
        obtain rfl := Option.some.inj hb
        obtain ⟨name, kind, hna⟩ := node?_of_parent? hup.tail.1
        obtain ⟨name', kind', hnb⟩ := node?_of_parent? hdown.tail.1
        rw [nameOf_eq hna, nameOf_eq hnb] at heq
        subst heq
        exact hne a rfl b rfl (h.distinct hna hnb)
  rw [length_stepsBetween, hup.names h.rooted, hdown.names h.rooted, dropCommon_append,
    dropCommon_of_ne hnames, List.length_map, List.length_map]

theorem length_stepsBetween_le_referenceMoves (h : t.Rooted) {r : Text}
    (hr : isRooted (referencePath r) = false) (hk : t.resolve? dir r = some k) :
    (stepsBetween (t.names dir) (t.names k)).length ≤ referenceMoves r := by
  obtain ⟨-, hsteps, -⟩ := resolve?_eq_some_iff.mp hk
  rw [hr, if_neg Bool.false_ne_true] at hsteps
  exact length_stepsBetween_names h hsteps

theorem Rooted.exists_parent (h : t.Rooted) (hk : t.isFile k = true) : ∃ p, t.parent? k = some p := by
  obtain ⟨⟨name, parent, kind⟩, hn⟩ : ∃ n, t.node? k = some n :=
    ⟨_, node?_eq_some_iff.mpr ⟨lt_of_isFile hk, rfl⟩⟩
  cases parent with
  | none =>
    obtain rfl := h.alone hn rfl
    exact nomatch hk.symm.trans (isFile_eq_false h.isFolder_root)
  | some p => exact ⟨p, parent?_of_node? hn⟩

/-- the reference to a file leads there, by as many steps as there are between the names -/
theorem Addressable.exists_reference (h : t.Addressable) (hdir : t.isFolder dir = true)
    (hfile : t.isFile target = true) : ∃ r, t.pathFromDirectory? dir target = some r ∧
      t.resolve? dir r = some target ∧
      referenceMoves r = (stepsBetween (t.names dir) (t.names target)).length := by
  obtain ⟨p, hp⟩ := h.rooted.exists_parent hfile
  obtain ⟨m, up, down, hup, hdown, hne, hpath⟩ := pathFromDirectory?_eq h.rooted (lt_of_isFolder hdir) hp
  have hway := hdown.step hp
  have hpart : ∀ a ∈ up.head?, ∀ b ∈ (down ++ [target]).head?, a ≠ b := by
    cases down with
    | cons b down => exact hne
    | nil =>
      intro a ha b hb
      obtain rfl := Option.some.inj hb
      exact hup.head_ne h.rooted hdir hfile a ha
  obtain ⟨hread, hhead, hcut⟩ := h.referencePath_steps up hway (List.concat_ne_nil target down)
  refine ⟨_, hpath, resolve?_eq_some_iff.mpr ⟨?_, ?_, hfile⟩, ?_⟩
  · rw [hread]
    intro hnil
    rw [hnil] at hhead
    exact nomatch hhead
  · rw [hread, hcut, isRooted, hhead, if_neg (by decide), referenceSteps, List.foldlM_append, hup.lead]
    exact hway.down h
  · rw [referenceMoves, hread, hcut, h.moves_referenceSteps up hway,
      h.length_stepsBetween_fork hup hway hpart]

/-! ## names and places -/

theorem Addressable.folderName_of_mem_names (h : t.Addressable) (hk : k < t.nodes.size) :
    ∀ name ∈ t.names k, IsFolderName name := by
  obtain ⟨ks, hw⟩ := exists_way h.rooted hk
  rw [hw.names h.rooted, names_root h.rooted]
  exact h.folderName_of_way hw

/-- the names of a node lead to it -/
theorem Addressable.foldlM_names (h : t.Addressable) (hk : k < t.nodes.size) :
    (t.names k).foldlM t.stepTo? Tree.root = some k := by
  obtain ⟨ks, hw⟩ := exists_way h.rooted hk
  rw [hw.names h.rooted, names_root h.rooted]
  exact hw.down h

theorem Addressable.nodeAt?_place (h : t.Addressable) (hk : k < t.nodes.size) :
    t.nodeAt? (t.place k) = some k := by
  have hnames := h.folderName_of_mem_names hk
  have hfilter : (t.top ++ t.names k).filter (!isIdle ·) = t.top ++ t.names k := by
    refine List.filter_eq_self.mpr (List.forall_mem_append.mpr ⟨fun step hstep => ?_,
      fun name hname => ?_⟩)
    · rw [h.top step hstep]
      rfl
    · rw [(isPlainName_iff.mp (hnames name hname).entry.1).1]
      rfl
  rw [place_eq fun name hname => (hnames name hname).entry, nodeAt?, hfilter,
    if_pos (List.isPrefixOf_iff_prefix.mpr (List.prefix_append _ _)), List.drop_left]
  exact h.foldlM_names hk

theorem Addressable.relativePath_inj (h : t.Addressable) (hj : j < t.nodes.size)
    (hk : k < t.nodes.size) (hpath : t.relativePath j = t.relativePath k) : j = k := by
  have hnames : t.names j = t.names k := by
    rw [← directoryNames_join (h.folderName_of_mem_names hj),
      ← directoryNames_join (h.folderName_of_mem_names hk)]
    exact congrArg directoryNames hpath
  have hwalk := h.foldlM_names hj
  rw [hnames, h.foldlM_names hk] at hwalk
  exact (Option.some.inj hwalk).symm

/-! ## addressable trees -/

theorem addressable_empty {top : Place} (htop : ∀ step ∈ top, isIdle step = false) :
    (empty top).Addressable := by
  have hnone : ∀ {k name p kind}, (empty top).node? k ≠ some ⟨name, some p, kind⟩ :=
    fun hn => nomatch (Node.mk.inj (node?_empty hn).2).2.1
  exact ⟨rooted_empty top, fun hj _ => absurd hj hnone, fun hk => absurd hk hnone,
    fun hk => absurd hk hnone, htop⟩

/-- a node of a new name in a folder -/
theorem Addressable.add (h : t.Addressable) {parent : NodeId} (hparent : t.isFolder parent = true)
    (hname : IsFolderName name) (hend : ∀ c ∈ name.getLast?, isBlank c = false)
    (hnew : t.childNamed? parent name = none) : (t.add parent name kind).1.Addressable := by
  have hcases : ∀ {k n}, (t.add parent name kind).1.node? k = some n →
      k = t.nodes.size ∧ n = ⟨name, some parent, kind⟩ ∨ t.node? k = some n := by
    intro k n hn
    rw [node?_add] at hn
    split at hn
    · rename_i hk
      exact .inl ⟨hk, (Option.some.inj hn).symm⟩
    · exact .inr hn
  have hother : ∀ {k kind'}, t.node? k ≠ some ⟨name, some parent, kind'⟩ := by
    intro k kind' hn
    have hchild : k ∈ t.children parent :=
      mem_children_iff.mpr ⟨hparent, h.rooted.parent (parent?_of_node? hn), parent?_of_node? hn⟩
    refine List.find?_eq_none.mp hnew k hchild ?_
    rw [hn]
    exact beq_self_eq_true name
  refine ⟨h.rooted.add hparent, fun {j k name' p kind' kind''} hj hk => ?_,
    fun {k name' p kind'} hk => ?_, fun {k name' p kind'} hk => ?_, h.top⟩
  · rcases hcases hj with ⟨rfl, hjn⟩ | hjn
    · obtain ⟨rfl, hp, -⟩ := Node.mk.inj hjn
      obtain rfl := Option.some.inj hp
      rcases hcases hk with ⟨rfl, -⟩ | hkn
      · rfl
      · exact absurd hkn hother
    · rcases hcases hk with ⟨rfl, hkn⟩ | hkn
      · obtain ⟨rfl, hp, -⟩ := Node.mk.inj hkn
        obtain rfl := Option.some.inj hp
        exact absurd hjn hother
      · exact h.distinct hjn hkn
  · rcases hcases hk with ⟨-, hn⟩ | hn
    · obtain ⟨rfl, -, -⟩ := Node.mk.inj hn
      exact hname
    · exact h.folderName hn
  · rcases hcases hk with ⟨-, hn⟩ | hn
    · obtain ⟨rfl, -, -⟩ := Node.mk.inj hn
      exact hend
    · exact h.ends hn

/-- **Every node is known by its address.**  A reference leads to a file and does not depend on what
begins with a `?` or `#`.  Where nodes have names of their own, the reference from a directory to a file
leads there, and none that is read from the directory takes fewer steps; every node is found at its
place on the disk, and no two nodes have the same path. -/
theorem addresses_lead_back (t : Tree) :
    (∀ dir r k, t.resolve? dir r = some k → t.isFile k = true) ∧
    (∀ dir path suffix, (∀ c ∈ path, isSuffixStart c = false) →
      (suffix = [] ∨ ∃ c r, suffix = c :: r ∧ isSuffixStart c = true) →
      t.resolve? dir (path ++ suffix) = t.resolve? dir path) ∧
    (t.Addressable →
      (∀ dir target, t.isFolder dir = true → t.isFile target = true →
        ∃ r, t.pathFromDirectory? dir target = some r ∧ t.resolve? dir r = some target ∧
          ∀ r', isRooted (referencePath r') = false → t.resolve? dir r' = some target →
            referenceMoves r ≤ referenceMoves r') ∧
      (∀ k < t.nodes.size, t.nodeAt? (t.place k) = some k) ∧
      ∀ j k, j < t.nodes.size → k < t.nodes.size → t.relativePath j = t.relativePath k → j = k) := by
  refine ⟨fun dir r k hk => (resolve?_eq_some_iff.mp hk).2.2, fun dir path suffix hpath hsuffix => ?_,
    fun h => ⟨fun dir target hdir hfile => ?_, fun k hk => h.nodeAt?_place hk,
      fun j k hj hk => h.relativePath_inj hj hk⟩⟩
  · have hbare := splitSuffix_append hpath (.inl rfl)
    rw [List.append_nil] at hbare
    rw [resolve?, resolve?, splitSuffix_append hpath hsuffix, hbare]
  · obtain ⟨r, hr, hlead, hmoves⟩ := h.exists_reference hdir hfile
    refine ⟨r, hr, hlead, fun r' hr' hlead' => ?_⟩
    rw [hmoves]
    exact length_stepsBetween_le_referenceMoves h.rooted hr' hlead'

/-- the folders `a` and `a/b`, and a file beside them -/
def nested : Tree :=
  ((((empty ["site".toList]).addFolder 0 ['a']).1.addFolder 1 ['b']).1.addSource 0 ['f']).1

theorem addressable_nested : nested.Addressable := by
  have hletter : ∀ c ∈ ['a', 'b', 'f'], (isPlainName [c] = true ∧ '/' ∉ [c]) ∧
      isSuffixStart c = false ∧ isBlank c = false := by
    decide
  have hadd : ∀ {t : Tree} {parent : NodeId} {kind : NodeKind} {c : Char}, t.Addressable →
      c ∈ ['a', 'b', 'f'] → t.isFolder parent = true → t.childNamed? parent [c] = none →
      (t.add parent [c] kind).1.Addressable := by
    intro t parent kind c h hc hparent hnew
    obtain ⟨hentry, hplain, hblank⟩ := hletter c hc
    refine h.add hparent ⟨hentry, List.forall_mem_singleton.mpr hplain⟩ (fun d hd => ?_) hnew
    rwa [← Option.some.inj hd]
  have hempty : (empty ["site".toList]).Addressable := addressable_empty (by decide)
  exact hadd (hadd (hadd hempty (by decide) rfl rfl) (by decide) rfl rfl) (by decide) rfl rfl

/-- from a folder two below the root to a file in it -/
theorem addresses_lead_back_nested :
    nested.Addressable ∧ nested.isFolder 2 = true ∧ nested.isFile 3 = true ∧
    nested.pathFromDirectory? 2 3 = some "../../f".toList ∧
    nested.resolve? 2 "../../f".toList = some 3 ∧
    nested.resolve? 2 "../../f?v=/".toList = some 3 ∧
    (∀ r, isRooted (referencePath r) = false → nested.resolve? 2 r = some 3 →
      3 ≤ referenceMoves r) ∧
    nested.nodeAt? (nested.place 2) = some 2 := by
  obtain ⟨hfile, hsuffix, hrest⟩ := addresses_lead_back nested
  obtain ⟨hreference, hplace, -⟩ := hrest addressable_nested
  obtain ⟨r, hr, hlead, hfewest⟩ := hreference 2 3 rfl rfl
  have hpath : nested.pathFromDirectory? 2 3 = some "../../f".toList := by cbv
  obtain rfl := Option.some.inj (hpath.symm.trans hr)
  refine ⟨addressable_nested, rfl, rfl, hpath, hlead, ?_, fun r' h h' => ?_, hplace 2 (by decide)⟩
  · rw [← hlead]
    exact hsuffix 2 "../../f".toList "?v=/".toList (by decide) (.inr ⟨'?', _, rfl, rfl⟩)
  · exact hfewest r' h h'

/-- a slash behind white space leads to the root, by fewer steps -/
theorem not_fewest_behind_blank : ¬ ∀ (t : Tree) (dir target : NodeId) (r r' : Text),
    t.Addressable → t.isFolder dir = true → t.isFile target = true →
    t.pathFromDirectory? dir target = some r → r'.head? ≠ some '/' →
    t.resolve? dir r' = some target → referenceMoves r ≤ referenceMoves r' := by
  intro h
  have hle := h nested 2 3 "../../f".toList " /f".toList addressable_nested rfl rfl (by cbv)
    (by decide) (by decide)
  exact absurd hle (by decide)

end SiteBundle.Tree
