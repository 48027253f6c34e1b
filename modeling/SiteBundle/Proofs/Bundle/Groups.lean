import SiteBundle.Bundle.Group
import SiteBundle.Proofs.Bundle.Segments

/-!
# Every asset is in one group

Groups are made segment by segment, the deferred members of each last.  The members of the groups,
one behind the other, are the *running order* of the assets.

* `Group.Compatible`      the members may share one element;
* `Asset.isFirst order`   no module before this one has its file;
* `Grouped`               what grouping gives: the members of each segment without repeated modules,
  in compatible groups, and one group for each module.

`scriptGroups_plain` and `scriptGroups_lone` say once what one asset does to the groups; the rest
follows from them (`scriptGroups_cons`).
-/

namespace SiteBundle

def Asset.moduleFile? (a : Asset) : Option NodeId := if a.module then a.source.file? else none

/-- a script whose code can be merged with that of others -/
def Asset.Plain (a : Asset) : Prop :=
  a.source.isAbsolute = false ∧ a.module = false ∧ a.async = false

/-- the kind of the group that a script has for itself -/
def Asset.loneKind (a : Asset) : GroupKind :=
  if a.source.isAbsolute then .standalone else if a.module then .module else .merged false true

/-- the members may share one element -/
def Group.Compatible (g : Group) : Prop :=
  match g.kind with
  | .standalone => ∃ a, g.members = [a] ∧ a.source.isAbsolute = true
  | .module => ∃ a, g.members = [a] ∧ a.module = true ∧ a.source.isAbsolute = false
  | .merged _ true => ∃ a, g.members = [a] ∧ a.async = true ∧ a.module = false ∧
      a.source.isAbsolute = false
  | .merged deferred false => g.members ≠ [] ∧ ∀ a ∈ g.members, a.Plain ∧ a.deferred = deferred

theorem Group.compatible_lone {a : Asset} (h : ¬ a.Plain) : Group.Compatible ⟨a.loneKind, [a]⟩ := by
  unfold Asset.loneKind
  cases habs : a.source.isAbsolute with
  | true => exact ⟨a, rfl, habs⟩
  | false =>
    cases hmod : a.module with
    | true => exact ⟨a, rfl, hmod, habs⟩
    | false =>
      cases hasync : a.async with
      | true => exact ⟨a, rfl, hasync, hmod, habs⟩
      | false => exact absurd ⟨habs, hmod, hasync⟩ h

/-! ## one asset -/

namespace Asset

/-- whether the asset is a module whose file was seen -/
def repeats (seen : List NodeId) (a : Asset) : Bool := a.moduleFile?.any fun f => seen.contains f

/-- the files of modules seen after the asset -/
def sees (seen : List NodeId) (a : Asset) : List NodeId :=
  match a.moduleFile? with
  | none => seen
  | some f => if seen.contains f then seen else f :: seen

theorem moduleFile?_of_not_module {a : Asset} (h : a.module = false) : a.moduleFile? = none := by
  unfold moduleFile?
  rw [h]
  rfl

theorem moduleFile?_of_absolute {a : Asset} (h : a.source.isAbsolute = true) :
    a.moduleFile? = none := by
  unfold moduleFile?
  cases hs : a.source with
  | absolute url => exact ite_self none
  | inline => rw [hs] at h; cases h
  | file id => rw [hs] at h; cases h
  | missing url => rw [hs] at h; cases h

theorem moduleFile?_eq_some {a : Asset} {f : NodeId} :
    a.moduleFile? = some f ↔ a.module = true ∧ a.source = .file f := by
  unfold moduleFile?
  cases a.module with
  | false => exact ⟨nofun, fun h => nomatch h.1⟩
  | true => cases a.source <;> simp [Source.file?]

theorem repeats_of_none {seen : List NodeId} {a : Asset} (h : a.moduleFile? = none) :
    a.repeats seen = false := by
  unfold repeats
  rw [h]
  rfl

theorem module_of_repeats {seen : List NodeId} {a : Asset} (h : a.repeats seen = true) :
    a.module = true := by
  cases hmod : a.module with
  | true => rfl
  | false =>
    rw [repeats_of_none (moduleFile?_of_not_module hmod)] at h
    cases h

theorem sees_of_none {seen : List NodeId} {a : Asset} (h : a.moduleFile? = none) :
    a.sees seen = seen := by
  unfold sees
  rw [h]

theorem mem_sees {seen : List NodeId} {a : Asset} {f : NodeId} :
    f ∈ a.sees seen ↔ f ∈ seen ∨ a.moduleFile? = some f := by
  unfold sees
  cases h : a.moduleFile? with
  | none => simp
  | some g =>
    show (f ∈ if seen.contains g = true then seen else g :: seen) ↔ _
    by_cases hg : seen.contains g = true
    · rw [if_pos hg]
      have hg' : g ∈ seen := List.contains_iff_mem.mp hg
      constructor
      · exact .inl
      · rintro (h | h)
        · exact h
        · cases h
          exact hg'
    · rw [if_neg hg, List.mem_cons, Option.some.injEq, or_comm, eq_comm]

end Asset

section
variable {seen : List NodeId} {run : List Asset} {a : Asset} {l : List Asset}

def inFront (groups : List Group) (p : List Group × List NodeId) : List Group × List NodeId :=
  (groups ++ p.1, p.2)

theorem scriptGroups_plain (h : a.Plain) : scriptGroups seen run (a :: l) =
    if run.head?.any fun b => b.deferred != a.deferred then
      inFront (gathered run) (scriptGroups seen [a] l)
    else scriptGroups seen (run ++ [a]) l := by
  obtain ⟨habs, hmod, hasync⟩ := h
  rw [scriptGroups, habs, hmod, hasync]
  rfl

theorem scriptGroups_lone (h : ¬ a.Plain) : scriptGroups seen run (a :: l) =
    if a.repeats seen then inFront (gathered run) (scriptGroups seen [] l)
    else inFront (gathered run ++ [⟨a.loneKind, [a]⟩]) (scriptGroups (a.sees seen) [] l) := by
  have halone : ∀ kind seen', (gathered run ++ ⟨kind, [a]⟩ :: (scriptGroups seen' [] l).1,
      (scriptGroups seen' [] l).2) =
        inFront (gathered run ++ [⟨kind, [a]⟩]) (scriptGroups seen' [] l) := fun kind seen' => by
    rw [inFront, List.append_assoc]
    rfl
  rw [scriptGroups]
  unfold Asset.loneKind
  by_cases habs : a.source.isAbsolute = true
  · have hfile := Asset.moduleFile?_of_absolute habs
    rw [Asset.repeats_of_none hfile, Asset.sees_of_none hfile, if_pos habs, if_pos habs]
    exact halone _ _
  rw [if_neg habs, if_neg habs]
  by_cases hmod : a.module = true
  · have hfile : a.moduleFile? = a.source.file? := if_pos hmod
    rw [if_pos hmod, if_pos hmod]
    unfold Asset.repeats Asset.sees
    rw [hfile]
    cases a.source.file? with
    | none => exact halone _ _
    | some f =>
      show (if seen.contains f = true then _ else _) = if seen.contains f = true then _ else _
      by_cases hseen : seen.contains f = true
      · rw [if_pos hseen, if_pos hseen]
        rfl
      · have hsees : (if seen.contains f = true then seen else f :: seen) = f :: seen :=
          if_neg hseen
        rw [if_neg hseen, if_neg hseen]
        show _ = inFront _ (scriptGroups (if seen.contains f = true then seen else f :: seen) [] l)
        rw [hsees]
        exact halone _ _
  · have hfile := Asset.moduleFile?_of_not_module (Bool.eq_false_iff.mpr hmod)
    have hasync : a.async = true := by
      cases hasync : a.async with
      | true => rfl
      | false => exact absurd ⟨Bool.eq_false_iff.mpr habs, Bool.eq_false_iff.mpr hmod, hasync⟩ h
    rw [Asset.repeats_of_none hfile, Asset.sees_of_none hfile, if_neg hmod, if_neg hmod,
      if_pos hasync]
    exact halone _ _

/-- what one script does: it is dropped as a repeated module, or stands alone behind the run, or
begins a new run, or joins the run -/
theorem scriptGroups_cons (seen : List NodeId) (run : List Asset) (a : Asset) (l : List Asset) :
    (a.repeats seen = true ∧ a.module = true ∧
      scriptGroups seen run (a :: l) = inFront (gathered run) (scriptGroups seen [] l)) ∨
    (∃ kind, a.repeats seen = false ∧ Group.Compatible ⟨kind, [a]⟩ ∧
      scriptGroups seen run (a :: l) =
        inFront (gathered run ++ [⟨kind, [a]⟩]) (scriptGroups (a.sees seen) [] l)) ∨
    (a.Plain ∧ scriptGroups seen run (a :: l) =
        inFront (gathered run) (scriptGroups seen [a] l)) ∨
    (a.Plain ∧ (∀ b, run.head? = some b → b.deferred = a.deferred) ∧
      scriptGroups seen run (a :: l) = scriptGroups seen (run ++ [a]) l) := by
  by_cases hplain : a.Plain
  · rw [scriptGroups_plain hplain]
    split
    · exact .inr (.inr (.inl ⟨hplain, rfl⟩))
    · next hagree =>
      refine .inr (.inr (.inr ⟨hplain, fun b hb => ?_, rfl⟩))
      rw [hb] at hagree
      simpa using hagree
  · rw [scriptGroups_lone hplain]
    split
    · next hrep => exact .inl ⟨hrep, Asset.module_of_repeats hrep, rfl⟩
    · next hrep =>
      exact .inr (.inl ⟨a.loneKind, Bool.eq_false_iff.mpr hrep, Group.compatible_lone hplain, rfl⟩)

/-! ## one segment -/

/-- the scripts without modules whose files were seen -/
def withoutRepeats (seen : List NodeId) : List Asset → List Asset
  | [] => []
  | a :: l =>
    if a.repeats seen then withoutRepeats seen l else a :: withoutRepeats (a.sees seen) l

theorem members_gathered (run : List Asset) : (gathered run).flatMap (·.members) = run := by
  cases run with
  | nil => rfl
  | cons a r => exact List.append_nil _

theorem members_inFront (groups : List Group) (p : List Group × List NodeId) :
    (inFront groups p).1.flatMap (·.members) =
      groups.flatMap (·.members) ++ p.1.flatMap (·.members) := List.flatMap_append

theorem Asset.Plain.moduleFile? (h : a.Plain) : a.moduleFile? = none :=
  moduleFile?_of_not_module h.2.1

theorem withoutRepeats_plain (h : a.Plain) :
    withoutRepeats seen (a :: l) = a :: withoutRepeats seen l := by
  rw [withoutRepeats, Asset.repeats_of_none h.moduleFile?, Asset.sees_of_none h.moduleFile?]
  rfl

theorem members_scriptGroups (seen : List NodeId) (run l : List Asset) :
    (scriptGroups seen run l).1.flatMap (·.members) = run ++ withoutRepeats seen l := by
  induction l generalizing seen run with
  | nil =>
    rw [scriptGroups, withoutRepeats, List.append_nil]
    exact members_gathered run
  | cons a l ih =>
    rcases scriptGroups_cons seen run a l with ⟨hrep, _, e⟩ | ⟨kind, hrep, _, e⟩ | ⟨hplain, e⟩ |
      ⟨hplain, _, e⟩
    · rw [e, members_inFront, members_gathered, ih, withoutRepeats, if_pos hrep, List.nil_append]
    · rw [e, members_inFront, List.flatMap_append, members_gathered, ih, withoutRepeats,
        if_neg (Bool.eq_false_iff.mp hrep), List.nil_append, List.append_assoc]
      rfl
    · rw [e, members_inFront, members_gathered, ih, withoutRepeats_plain hplain]
      rfl
    · rw [e, ih, withoutRepeats_plain hplain, List.append_assoc]
      rfl

def seenAfter (seen : List NodeId) (l : List Asset) : List NodeId := l.foldl Asset.sees seen

theorem mem_seenAfter {f : NodeId} :
    f ∈ seenAfter seen l ↔ f ∈ seen ∨ ∃ a ∈ l, a.moduleFile? = some f := by
  induction l generalizing seen with
  | nil => simp [seenAfter]
  | cons a l ih =>
    show f ∈ seenAfter (a.sees seen) l ↔ _
    rw [ih, Asset.mem_sees]
    simp [or_assoc]

theorem sees_of_repeats (h : a.repeats seen = true) : a.sees seen = seen := by
  unfold Asset.sees
  cases hf : a.moduleFile? with
  | none => rfl
  | some f =>
    unfold Asset.repeats at h
    rw [hf] at h
    exact if_pos h

theorem seen_scriptGroups (seen : List NodeId) (run l : List Asset) :
    (scriptGroups seen run l).2 = seenAfter seen l := by
  induction l generalizing seen run with
  | nil => rfl
  | cons a l ih =>
    have hcons : seenAfter seen (a :: l) = seenAfter (a.sees seen) l := rfl
    rw [hcons]
    rcases scriptGroups_cons seen run a l with ⟨hrep, _, e⟩ | ⟨kind, _, _, e⟩ | ⟨hplain, e⟩ |
      ⟨hplain, _, e⟩
    · rw [e, sees_of_repeats hrep]
      exact ih _ _
    · rw [e]
      exact ih _ _
    · rw [e, Asset.sees_of_none hplain.moduleFile?]
      exact ih _ _
    · rw [e, Asset.sees_of_none hplain.moduleFile?]
      exact ih _ _

/-- plain scripts that agree on being deferred -/
def Agreeing (run : List Asset) : Prop :=
  ∀ a ∈ run, a.Plain ∧ ∀ b, run.head? = some b → b.deferred = a.deferred

theorem compatible_gathered (h : Agreeing run) : ∀ g ∈ gathered run, g.Compatible := by
  intro g hg
  cases run with
  | nil => cases hg
  | cons a r =>
    rw [List.mem_singleton.mp hg]
    exact ⟨List.cons_ne_nil _ _, fun b hb => ⟨(h b hb).1, ((h b hb).2 a rfl).symm⟩⟩

theorem agreeing_nil : Agreeing [] := nofun

theorem agreeing_singleton (h : a.Plain) : Agreeing [a] := by
  intro b hb
  rw [List.mem_singleton.mp hb]
  exact ⟨h, fun c hc => by cases hc; rfl⟩

theorem Agreeing.concat (hrun : Agreeing run) (h : a.Plain)
    (hagree : ∀ b, run.head? = some b → b.deferred = a.deferred) : Agreeing (run ++ [a]) := by
  cases run with
  | nil => exact agreeing_singleton h
  | cons c r =>
    intro b hb
    rcases List.mem_append.mp hb with hb | hb
    · exact hrun b hb
    · rw [List.mem_singleton.mp hb]
      exact ⟨h, hagree⟩

theorem compatible_scriptGroups (seen : List NodeId) (hrun : Agreeing run) (l : List Asset) :
    ∀ g ∈ (scriptGroups seen run l).1, g.Compatible := by
  have hfront : ∀ {groups : List Group} {p : List Group × List NodeId},
      (∀ g ∈ groups, g.Compatible) → (∀ g ∈ p.1, g.Compatible) →
        ∀ g ∈ (inFront groups p).1, g.Compatible := fun h1 h2 g hg =>
    (List.mem_append.mp hg).elim (h1 g) (h2 g)
  induction l generalizing seen run with
  | nil => exact compatible_gathered hrun
  | cons a l ih =>
    rcases scriptGroups_cons seen run a l with ⟨_, _, e⟩ | ⟨kind, _, hcomp, e⟩ | ⟨hplain, e⟩ |
      ⟨hplain, hagree, e⟩
    · rw [e]
      exact hfront (compatible_gathered hrun) (ih seen agreeing_nil)
    · rw [e]
      refine hfront (fun g hg => ?_) (ih _ agreeing_nil)
      rcases List.mem_append.mp hg with hg | hg
      · exact compatible_gathered hrun g hg
      · rw [List.mem_singleton.mp hg]
        exact hcomp
    · rw [e]
      exact hfront (compatible_gathered hrun) (ih seen (agreeing_singleton hplain))
    · rw [e]
      exact ih seen (hrun.concat hplain hagree)

end

/-! ## several segments -/

/-- the running order: the members of the segments one behind the other, the deferred ones of each
last -/
def runningOrder (members : List (List Asset)) : List Asset := members.flatMap deferLast

/-- the asset is no module, or the first one of its file in the running order -/
def Asset.isFirst (order : List Asset) (a : Asset) : Bool :=
  a.moduleFile?.all fun f => order.find? (·.moduleFile? == some f) == some a

theorem perm_deferLast (l : List Asset) : (deferLast l).Perm l :=
  List.perm_append_comm.trans (List.filter_append_perm (·.deferred) l)

theorem perm_runningOrder (members : List (List Asset)) :
    (runningOrder members).Perm members.flatten := by
  induction members with
  | nil => exact .nil
  | cons m members ih => exact (perm_deferLast m).append ih

section
variable {before l after : List Asset} {seen : List NodeId}

theorem isFirst_iff {a : Asset} (hnodup : (before ++ a :: after).Nodup)
    (hseen : ∀ f, f ∈ seen ↔ ∃ b ∈ before, b.moduleFile? = some f) :
    a.isFirst (before ++ a :: after) = !a.repeats seen := by
  unfold Asset.isFirst Asset.repeats
  cases hf : a.moduleFile? with
  | none => rfl
  | some f =>
    show (List.find? _ _ == some a) = !seen.contains f
    rw [List.find?_append, List.find?_cons_of_pos (by rw [hf]; exact beq_self_eq_true _)]
    cases hb : before.find? (·.moduleFile? == some f) with
    | none =>
      have hnot : f ∉ seen := fun h => by
        obtain ⟨b, hb', hfb⟩ := (hseen f).mp h
        exact absurd (List.find?_eq_none.mp hb b hb') (by rw [hfb]; simp)
      rw [List.contains_eq_mem, decide_eq_false hnot]
      exact beq_self_eq_true _
    | some b =>
      have hmem := List.mem_of_find?_eq_some hb
      have hfb : b.moduleFile? = some f := by simpa using List.find?_some hb
      have hin : f ∈ seen := (hseen f).mpr ⟨b, hmem, hfb⟩
      have hne : b ≠ a := (List.nodup_append.mp hnodup).2.2 b hmem a List.mem_cons_self
      rw [List.contains_eq_mem, decide_eq_true hin]
      show (some b == some a) = false
      exact beq_eq_false_iff_ne.mpr fun h => hne (Option.some.inj h)

theorem withoutRepeats_eq_filter (hnodup : (before ++ l ++ after).Nodup)
    (hseen : ∀ f, f ∈ seen ↔ ∃ b ∈ before, b.moduleFile? = some f) :
    withoutRepeats seen l = l.filter (·.isFirst (before ++ l ++ after)) := by
  induction l generalizing before seen with
  | nil => rfl
  | cons a l ih =>
    have hassoc : before ++ a :: l ++ after = before ++ a :: (l ++ after) := by
      rw [List.append_assoc, List.cons_append]
    have hnext : before ++ a :: l ++ after = before ++ [a] ++ l ++ after := by simp
    have hfirst : a.isFirst (before ++ a :: l ++ after) = !a.repeats seen := by
      rw [hassoc] at hnodup ⊢
      exact isFirst_iff hnodup hseen
    have hrest : withoutRepeats (a.sees seen) l =
        l.filter (·.isFirst (before ++ a :: l ++ after)) := by
      rw [hnext]
      refine ih (hnext ▸ hnodup) fun f => ?_
      rw [Asset.mem_sees, hseen]
      simp [or_and_right, exists_or]
    rw [withoutRepeats]
    by_cases hrep : a.repeats seen = true
    · rw [if_pos hrep, List.filter_cons_of_neg (by rw [hfirst, hrep]; decide), ← hrest,
        sees_of_repeats hrep]
    · rw [if_neg hrep, List.filter_cons_of_pos (by rw [hfirst]; simpa using hrep), hrest]

theorem groupsOf_cons (m : List Asset) (members : List (List Asset)) :
    Family.script.groupsOf seen (m :: members) = (scriptGroups seen [] (deferLast m)).1 ::
      Family.script.groupsOf (seenAfter seen (deferLast m)) members := by
  rw [← seen_scriptGroups seen [] (deferLast m)]
  rfl

theorem members_groupsOf {members : List (List Asset)}
    (hnodup : (before ++ runningOrder members).Nodup)
    (hseen : ∀ f, f ∈ seen ↔ ∃ b ∈ before, b.moduleFile? = some f) :
    (Family.script.groupsOf seen members).map (·.flatMap (·.members)) =
      members.map fun m => (deferLast m).filter (·.isFirst (before ++ runningOrder members)) := by
  induction members generalizing before seen with
  | nil => rfl
  | cons m members ih =>
    have hnext : before ++ runningOrder (m :: members) =
        before ++ deferLast m ++ runningOrder members := by
      rw [List.append_assoc]
      rfl
    rw [hnext] at hnodup ⊢
    rw [groupsOf_cons, List.map_cons, List.map_cons, members_scriptGroups, List.nil_append,
      withoutRepeats_eq_filter hnodup hseen, ih hnodup fun f => ?_]
    rw [mem_seenAfter, hseen]
    simp [or_and_right, exists_or]

end

theorem compatible_groupsOf (seen : List NodeId) (members : List (List Asset)) :
    ∀ gs ∈ Family.script.groupsOf seen members, ∀ g ∈ gs, g.Compatible := by
  induction members generalizing seen with
  | nil => exact nofun
  | cons m members ih =>
    rw [groupsOf_cons]
    intro gs hgs
    rcases List.mem_cons.mp hgs with rfl | hgs
    · exact compatible_scriptGroups seen agreeing_nil (deferLast m)
    · exact ih _ gs hgs

/-! ## one group for each module -/

/-- the group is a module that satisfies `q` -/
def Group.isModuleOf (q : Asset → Bool) (g : Group) : Bool := g.kind == .module && g.members.any q

/-- a compatible group holds a module alone -/
theorem countP_members {q : Asset → Bool}
    (hq : ∀ a, q a = true → a.module = true ∧ a.source.isAbsolute = false) {g : Group}
    (h : g.Compatible) : g.members.countP q = if g.isModuleOf q then 1 else 0 := by
  obtain ⟨kind, members⟩ := g
  have hzero : (∀ a ∈ members, q a = false) → members.countP q = 0 := fun h =>
    List.countP_eq_zero.mpr fun a ha => by rw [h a ha]; decide
  have hno : ∀ a : Asset, a.module = false ∨ a.source.isAbsolute = true → q a = false := by
    intro a ha
    cases hqa : q a with
    | false => rfl
    | true =>
      have := hq a hqa
      rcases ha with ha | ha
      · rw [ha] at this
        cases this.1
      · rw [ha] at this
        cases this.2
  cases kind with
  | standalone =>
    obtain ⟨a, rfl, habs⟩ := h
    exact hzero fun b hb => hno b (.inr (List.mem_singleton.mp hb ▸ habs))
  | module =>
    obtain ⟨a, rfl, _⟩ := h
    show List.countP q [a] = if (true && (q a || false)) = true then 1 else 0
    rw [List.countP_cons, List.countP_nil, Bool.true_and, Bool.or_false, Nat.zero_add]
  | merged deferred async =>
    cases async with
    | true =>
      obtain ⟨a, rfl, _, hmod, _⟩ := h
      exact hzero fun b hb => hno b (.inl (List.mem_singleton.mp hb ▸ hmod))
    | false => exact hzero fun b hb => hno b (.inl (h.2 b hb).1.2.1)

theorem countP_isModuleOf {q : Asset → Bool}
    (hq : ∀ a, q a = true → a.module = true ∧ a.source.isAbsolute = false) {groups : List Group}
    (h : ∀ g ∈ groups, g.Compatible) :
    groups.countP (·.isModuleOf q) = (groups.flatMap (·.members)).countP q := by
  induction groups with
  | nil => rfl
  | cons g groups ih =>
    rw [List.countP_cons, List.flatMap_cons, List.countP_append,
      ih fun g' hg' => h g' (List.mem_cons_of_mem _ hg'),
      countP_members hq (h g List.mem_cons_self), Nat.add_comm]

/-- what grouping the members of segments gives -/
structure Grouped (members : List (List Asset)) (groups : List (List Group)) : Prop where
  /-- the members of each segment, those not deferred first, without repeated modules -/
  members_eq : groups.map (·.flatMap (·.members)) = members.map fun m =>
    (m.filter (fun a => !a.deferred) ++ m.filter (·.deferred)).filter
      (·.isFirst (runningOrder members))
  compatible : ∀ gs ∈ groups, ∀ g ∈ gs, g.Compatible
  /-- one group holds the module of a file -/
  one_module : ∀ file, (∃ m ∈ members, ∃ a ∈ m, a.module = true ∧ a.source = .file file) →
    groups.flatten.countP (·.isModuleOf (·.moduleFile? == some file)) = 1
  /-- one group holds a module without a file -/
  one_inline : ∀ m ∈ members, ∀ a ∈ m, a.module = true → a.source.isAbsolute = false →
    a.source.file? = none → groups.flatten.countP (·.isModuleOf (· == a)) = 1

section
variable {members : List (List Asset)} {order : List Asset}

theorem flatMap_members_flatten (groups : List (List Group)) :
    groups.flatten.flatMap (·.members) = (groups.map (·.flatMap (·.members))).flatten := by
  induction groups with
  | nil => rfl
  | cons gs groups ih => rw [List.flatten_cons, List.flatMap_append, ih, List.map_cons,
      List.flatten_cons]

theorem members_flatten_groupsOf (hnodup : (runningOrder members).Nodup) :
    (Family.script.groupsOf [] members).flatten.flatMap (·.members) =
      (runningOrder members).filter (·.isFirst (runningOrder members)) := by
  rw [flatMap_members_flatten, @members_groupsOf [] [] members hnodup (by simp), runningOrder,
    List.filter_flatMap, List.flatMap_def]
  rfl

theorem countP_first_file (hnodup : order.Nodup) {file : NodeId}
    (h : ∃ a ∈ order, a.moduleFile? = some file) :
    (order.filter (·.isFirst order)).countP (·.moduleFile? == some file) = 1 := by
  obtain ⟨a, ha, hfa⟩ := h
  obtain ⟨b, hb⟩ : ∃ b, order.find? (·.moduleFile? == some file) = some b := by
    refine Option.isSome_iff_exists.mp (List.find?_isSome.mpr ⟨a, ha, ?_⟩)
    rw [hfa]
    exact beq_self_eq_true _
  have hfb : b.moduleFile? = some file := by simpa using List.find?_some hb
  have hiff : ∀ x ∈ order, (x.moduleFile? == some file && x.isFirst order) = true ↔
      (x == b) = true := by
    intro x _
    rw [Bool.and_eq_true, beq_iff_eq, beq_iff_eq]
    constructor
    · rintro ⟨hx, hfirst⟩
      unfold Asset.isFirst at hfirst
      rw [hx] at hfirst
      replace hfirst : (order.find? (·.moduleFile? == some file) == some x) = true := hfirst
      rw [hb, beq_iff_eq, Option.some.injEq] at hfirst
      exact hfirst.symm
    · rintro rfl
      refine ⟨hfb, ?_⟩
      unfold Asset.isFirst
      rw [hfb]
      show (order.find? (·.moduleFile? == some file) == some x) = true
      rw [hb]
      exact beq_self_eq_true _
  rw [List.countP_filter, List.countP_congr hiff]
  exact hnodup.count.trans (if_pos (List.mem_of_find?_eq_some hb))

theorem grouped_groupsOf (hnodup : members.flatten.Nodup) :
    Grouped members (Family.script.groupsOf [] members) := by
  have horder := (perm_runningOrder members).nodup_iff.mpr hnodup
  have hcomp : ∀ g ∈ (Family.script.groupsOf [] members).flatten, g.Compatible := fun g hg => by
    obtain ⟨gs, hgs, hg⟩ := List.mem_flatten.mp hg
    exact compatible_groupsOf [] members gs hgs g hg
  have hmem : ∀ m ∈ members, ∀ a ∈ m, a ∈ runningOrder members := fun m hm a ha =>
    (perm_runningOrder members).mem_iff.mpr (List.mem_flatten.mpr ⟨m, hm, ha⟩)
  refine ⟨@members_groupsOf [] [] members horder (by simp), compatible_groupsOf [] members, ?_, ?_⟩
  · rintro file ⟨m, hm, a, ha, hmod, hs⟩
    rw [countP_isModuleOf (fun b hb => ?_) hcomp, members_flatten_groupsOf horder]
    · exact countP_first_file horder ⟨a, hmem m hm a ha, Asset.moduleFile?_eq_some.mpr ⟨hmod, hs⟩⟩
    · obtain ⟨hmod, hs⟩ := Asset.moduleFile?_eq_some.mp (beq_iff_eq.mp hb)
      exact ⟨hmod, by rw [hs]; rfl⟩
  · intro m hm a ha hmod habs hs
    rw [countP_isModuleOf (fun b hb => ?_) hcomp, members_flatten_groupsOf horder]
    · have hfirst : a.isFirst (runningOrder members) = true := by
        unfold Asset.isFirst Asset.moduleFile?
        rw [hs, ite_self]
        rfl
      exact (List.count_filter hfirst).trans (horder.count.trans (if_pos (hmem m hm a ha)))
    · rw [beq_iff_eq.mp hb]
      exact ⟨hmod, habs⟩

end

/-- **Every asset is placed once, and only with assets that it may share an element with.**  The
assets are dealt out to segments, and the scripts of the segments are grouped; what both give is
`Dealt` and `Grouped`. -/
theorem dealt_and_grouped {d : Document} {assets : List Asset} (h : Scanned d assets)
    (position : Position) :
    ∃ segments, segments? d position assets = some segments ∧ Dealt d position assets segments ∧
      Grouped (segments.map (·.members)) (Family.script.groupsOf [] (segments.map (·.members))) := by
  obtain ⟨segments, hs, hdealt⟩ := dealt_segments? h position
  refine ⟨segments, hs, hdealt, grouped_groupsOf ?_⟩
  rw [← List.flatMap_def]
  exact hdealt.once.nodup_iff.mpr h.nodup

/-- a document with a module, something to read, and the module again -/
def Document.loadingTwice : Document :=
  .ofText "<script></script>\n<p>\n<script></script>".toList false

/-- its scripts, as modules of one file -/
def modulesOfOneFile : List Asset :=
  (Document.loadingTwice.elements .script).map fun e => ⟨e, .file 1, true, false, true⟩

/-- the module becomes one group, although its assets are two segments -/
theorem dealt_and_grouped_loadingTwice :
    Scanned .loadingTwice modulesOfOneFile ∧
      ∃ segments, segments? .loadingTwice .inPlace modulesOfOneFile = some segments ∧
        segments.length = 2 ∧ (Family.script.groupsOf [] (segments.map (·.members))).flatten.countP
          (·.isModuleOf (·.moduleFile? == some 1)) = 1 := by
  have hscan : Scanned .loadingTwice modulesOfOneFile := by
    refine ⟨fun a ha => ?_, by decide +kernel, by decide +kernel⟩
    obtain ⟨e, he, rfl⟩ := List.mem_map.mp ha
    exact ⟨.script, he⟩
  obtain ⟨segments, hs, hdealt, hgrouped⟩ := dealt_and_grouped hscan .inPlace
  refine ⟨hscan, segments, hs, ?_, hgrouped.one_module 1 ?_⟩
  · have hlen : (segments? .loadingTwice .inPlace modulesOfOneFile).map List.length = some 2 := by
      decide +kernel
    rw [hs] at hlen
    exact Option.some.inj hlen
  · obtain ⟨a, ha, hfile⟩ : ∃ a ∈ modulesOfOneFile, a.module = true ∧ a.source = .file 1 := by
      decide +kernel
    obtain ⟨s, hs, ha⟩ := List.mem_flatMap.mp (hdealt.once.mem_iff.mpr ha)
    exact ⟨_, List.mem_map_of_mem hs, a, ha, hfile⟩

end SiteBundle
