import Mathlib.Data.List.Chain
import SiteBundle.Proofs.Bundle.Groups

/-!
# What a dropped module leaves in the groups

A module whose file was seen is dropped, but it closes the run of scripts before it all the same.  Two
scripts that might share a group are therefore kept apart when nothing but dropped modules stands
between them.

* `Asset.Joins run`     the script goes on the run; any other script closes it;
* `Parted seen l`       dropped modules stand between two scripts that may share a group;
* `Group.Differ`        two groups that cannot be one.

`scriptGroups_induction` goes through the scripts one by one.  With it, the groups of the scripts that
are kept are the same (`groups_withoutRepeats`) and as large as they can be (`isChain_scriptGroups`)
when no run is parted; a parted run shows in two neighbours that might be one
(`not_isChain_of_parted`).
-/

namespace SiteBundle

/-! ## one script -/

namespace Asset

/-- the script joins the run: it can be merged, and agrees with the run on being deferred -/
def Joins (run : List Asset) (a : Asset) : Prop :=
  a.Plain ∧ ∀ b, run.head? = some b → b.deferred = a.deferred

variable {seen : List NodeId} {run : List Asset} {a : Asset}

theorem joins_nil : a.Joins [] ↔ a.Plain := ⟨And.left, fun h => ⟨h, nofun⟩⟩

theorem Plain.not_repeats (h : a.Plain) : a.repeats seen = false := repeats_of_none h.moduleFile?

theorem not_plain_of_repeats (h : a.repeats seen = true) : ¬ a.Plain := fun hplain => by
  rw [hplain.not_repeats] at h
  cases h

theorem loneKind_ne (a : Asset) (deferred : Bool) : a.loneKind ≠ .merged deferred false := by
  unfold loneKind
  split
  · nofun
  · split
    · nofun
    · exact fun h => nomatch (GroupKind.merged.inj h).2

end Asset

section
variable {seen : List NodeId} {run : List Asset} {a : Asset} {l : List Asset}

theorem inFront_inFront (g g' : List Group) (p : List Group × List NodeId) :
    inFront g (inFront g' p) = inFront (g ++ g') p := by
  unfold inFront
  rw [List.append_assoc]

theorem scriptGroups_joins (h : a.Joins run) :
    scriptGroups seen run (a :: l) = scriptGroups seen (run ++ [a]) l := by
  rw [scriptGroups_plain h.1, if_neg]
  cases hr : run.head? with
  | none => exact Bool.false_ne_true
  | some b => simp [h.2 b hr]

/-- a script that does not join the run closes it -/
theorem scriptGroups_closes (h : ¬ a.Joins run) :
    scriptGroups seen run (a :: l) = inFront (gathered run) (scriptGroups seen [] (a :: l)) := by
  by_cases hplain : a.Plain
  · have hparts : (run.head?.any fun b => b.deferred != a.deferred) = true := by
      cases hr : run.head? with
      | none => exact absurd ⟨hplain, fun b hb => by rw [hr] at hb; cases hb⟩ h
      | some c =>
        refine bne_iff_ne.mpr fun hc => h ⟨hplain, fun b hb => ?_⟩
        rw [hr] at hb
        exact Option.some.inj hb ▸ hc
    rw [scriptGroups_plain hplain, if_pos hparts, scriptGroups_plain hplain]
    rfl
  · rw [scriptGroups_lone hplain, scriptGroups_lone hplain]
    split
    · rfl
    · rw [inFront_inFront]
      rfl

theorem scriptGroups_dropped (h : a.repeats seen = true) :
    scriptGroups seen [] (a :: l) = scriptGroups seen [] l := by
  rw [scriptGroups_lone (Asset.not_plain_of_repeats h), if_pos h]
  rfl

theorem scriptGroups_alone (hplain : ¬ a.Plain) (h : a.repeats seen = false) :
    scriptGroups seen [] (a :: l) =
      inFront [⟨a.loneKind, [a]⟩] (scriptGroups (a.sees seen) [] l) := by
  rw [scriptGroups_lone hplain, if_neg (Bool.eq_false_iff.mp h)]
  rfl

/-- what holds of the groups of scripts behind a run, shown script by script: a script joins the run,
or closes it; behind a closed run it is dropped or stands alone -/
theorem scriptGroups_induction {P : List NodeId → List Asset → List Asset → Prop}
    (nil : ∀ seen run, P seen run [])
    (joins : ∀ seen run a l, a.Joins run → P seen (run ++ [a]) l → P seen run (a :: l))
    (closes : ∀ seen run a l, ¬ a.Joins run → P seen [] (a :: l) → P seen run (a :: l))
    (dropped : ∀ seen a l, a.repeats seen = true → P seen [] l → P seen [] (a :: l))
    (alone : ∀ seen a l, ¬ a.Plain → a.repeats seen = false → P (a.sees seen) [] l →
      P seen [] (a :: l)) (seen : List NodeId) (run l : List Asset) : P seen run l := by
  induction l generalizing seen run with
  | nil => exact nil seen run
  | cons a l ih =>
    by_cases hj : a.Joins run
    · exact joins _ _ _ _ hj (ih _ _)
    · refine closes _ _ _ _ hj ?_
      by_cases hplain : a.Plain
      · exact joins _ _ _ _ (Asset.joins_nil.mpr hplain) (ih _ _)
      · cases hrep : a.repeats seen with
        | true => exact dropped _ _ _ hrep (ih _ _)
        | false => exact alone _ _ _ hplain hrep (ih _ _)

end

/-! ## where a dropped module stands between two scripts -/

/-- dropped modules, and nothing else, stand between two scripts that may share a group -/
def Parted (seen : List NodeId) (l : List Asset) : Prop :=
  ∃ front a dropped b back, l = front ++ a :: (dropped ++ b :: back) ∧ dropped ≠ [] ∧
    (∀ m ∈ dropped, m.repeats (seenAfter seen front) = true) ∧ a.Plain ∧ b.Plain ∧
    a.deferred = b.deferred

/-- not both are groups of merged scripts that agree on being deferred -/
def Group.Differ (g g' : Group) : Prop :=
  ∀ deferred, g.kind = .merged deferred false → g'.kind ≠ .merged deferred false

section
variable {seen : List NodeId} {run : List Asset} {a b : Asset} {l front dropped : List Asset}

theorem seenAfter_append (seen : List NodeId) (front l : List Asset) :
    seenAfter seen (front ++ l) = seenAfter (seenAfter seen front) l := List.foldl_append

theorem Parted.prepend (front : List Asset) (h : Parted (seenAfter seen front) l) :
    Parted seen (front ++ l) := by
  obtain ⟨front', a, dropped, b, back, rfl, hne, hrep, h⟩ := h
  refine ⟨front ++ front', a, dropped, b, back, (List.append_assoc _ _ _).symm, hne, fun m hm => ?_, h⟩
  rw [seenAfter_append]
  exact hrep m hm

theorem not_parted_of_cons (h : ¬ Parted seen (a :: l)) : ¬ Parted (a.sees seen) l :=
  mt (Parted.prepend [a]) h

theorem seenAfter_plain (h : ∀ a ∈ run, a.Plain) : seenAfter seen run = seen := by
  induction run with
  | nil => rfl
  | cons a run ih =>
    show seenAfter (a.sees seen) run = seen
    rw [Asset.sees_of_none (h a List.mem_cons_self).moduleFile?]
    exact ih fun b hb => h b (List.mem_cons_of_mem _ hb)

theorem not_parted_of_run (hrun : Agreeing run) (h : ¬ Parted seen (run ++ l)) :
    ¬ Parted seen l := by
  refine fun hp => h (Parted.prepend run ?_)
  rwa [seenAfter_plain fun a ha => (hrun a ha).1]

/-- dropped modules stand between the run and a script that joins it -/
theorem parted_of_joins (hrun : Agreeing run) (hne : run ≠ []) (hdropped : dropped ≠ [])
    (hrep : ∀ m ∈ dropped, m.repeats seen = true) (hb : b.Joins run) (back : List Asset) :
    Parted seen (run ++ (dropped ++ b :: back)) := by
  obtain ⟨init, a, rfl⟩ := List.eq_nil_or_concat' run |>.resolve_left hne
  obtain ⟨ha, hagree⟩ := hrun a (by simp)
  obtain ⟨c, hc⟩ : ∃ c, (init ++ [a]).head? = some c :=
    Option.isSome_iff_exists.mp (List.isSome_head?.mpr hne)
  refine ⟨init, a, dropped, b, back, by simp, hdropped, fun m hm => ?_, ha, hb.1,
    (hagree c hc).symm.trans (hb.2 c hc)⟩
  rw [seenAfter_plain fun x hx => (hrun x (List.mem_append_left _ hx)).1]
  exact hrep m hm

/-- without parting, what follows a script that closes the run does not join it either -/
theorem not_joins_of_not_parted {l back : List Asset} (hrun : Agreeing run) (hne : run ≠ [])
    (h : ¬ Parted seen (run ++ a :: l)) (ha : ¬ a.Joins run) (hl : a :: l = dropped ++ b :: back)
    (hrep : ∀ m ∈ dropped, m.repeats seen = true) : ¬ b.Joins run := by
  intro hb
  cases dropped with
  | nil =>
    cases hl
    exact ha hb
  | cons m ms =>
    rw [hl] at h
    exact h (parted_of_joins hrun hne (List.cons_ne_nil _ _) hrep hb back)

theorem withoutRepeats_eq_cons {rest : List Asset} (h : withoutRepeats seen l = b :: rest) :
    ∃ dropped back, l = dropped ++ b :: back ∧ ∀ m ∈ dropped, m.repeats seen = true := by
  induction l with
  | nil => cases h
  | cons a l ih =>
    rw [withoutRepeats] at h
    cases hrep : a.repeats seen with
    | false =>
      rw [hrep] at h
      cases h
      exact ⟨[], l, rfl, List.forall_mem_nil _⟩
    | true =>
      rw [hrep] at h
      obtain ⟨dropped, back, rfl, hdropped⟩ := ih h
      exact ⟨a :: dropped, back, rfl, List.forall_mem_cons.mpr ⟨hrep, hdropped⟩⟩

theorem scriptGroups_closed (h : ∀ b rest, l = b :: rest → ¬ b.Joins run) :
    scriptGroups seen run l = inFront (gathered run) (scriptGroups seen [] l) := by
  cases l with
  | nil => exact congrArg (·, seen) (List.append_nil _).symm
  | cons b rest => exact scriptGroups_closes (h b rest rfl)

theorem groups_withoutRepeats (seen : List NodeId) (run l : List Asset) :
    Agreeing run → ¬ Parted seen (run ++ l) →
      (scriptGroups seen run l).1 = (scriptGroups seen run (withoutRepeats seen l)).1 := by
  induction seen, run, l using scriptGroups_induction with
  | nil seen run => exact fun _ _ => rfl
  | joins seen run a l hj ih =>
    intro hrun h
    rw [withoutRepeats_plain hj.1, scriptGroups_joins hj, scriptGroups_joins hj]
    exact ih (hrun.concat hj.1 hj.2) (by rwa [List.append_assoc])
  | closes seen run a l hj ih =>
    intro hrun h
    have htail := not_parted_of_run hrun h
    by_cases hne : run = []
    · rw [hne]
      exact ih agreeing_nil htail
    · -- what is kept behind the run does not join it, or dropped modules would part it
      have hclosed : scriptGroups seen run (withoutRepeats seen (a :: l)) =
          inFront (gathered run) (scriptGroups seen [] (withoutRepeats seen (a :: l))) := by
        refine scriptGroups_closed fun b rest hb => ?_
        obtain ⟨dropped, back, hl, hrep⟩ := withoutRepeats_eq_cons hb
        exact not_joins_of_not_parted hrun hne h hj hl hrep
      rw [scriptGroups_closes hj, hclosed]
      exact congrArg (gathered run ++ ·) (ih agreeing_nil htail)
  | dropped seen a l hrep ih =>
    intro _ h
    rw [scriptGroups_dropped hrep, withoutRepeats, if_pos hrep]
    have hrest := not_parted_of_cons h
    rw [sees_of_repeats hrep] at hrest
    exact ih agreeing_nil hrest
  | alone seen a l hplain hrep ih =>
    intro _ h
    rw [scriptGroups_alone hplain hrep, withoutRepeats, if_neg (Bool.eq_false_iff.mp hrep),
      scriptGroups_alone hplain hrep]
    exact congrArg (_ ++ ·) (ih agreeing_nil (not_parted_of_cons h))

/-! ## neighbours -/

/-- a run goes into the first group -/
theorem exists_head_scriptGroups (seen : List NodeId) (run l : List Asset) :
    ∀ b r, run = b :: r → ∃ g gs, (scriptGroups seen run l).1 = g :: gs ∧
      g.kind = .merged b.deferred false := by
  induction seen, run, l using scriptGroups_induction with
  | nil seen run =>
    rintro b r rfl
    exact ⟨_, [], rfl, rfl⟩
  | joins seen run a l hj ih =>
    rintro b r rfl
    rw [scriptGroups_joins hj]
    exact ih b (r ++ [a]) rfl
  | closes seen run a l hj ih =>
    rintro b r rfl
    rw [scriptGroups_closes hj]
    exact ⟨_, _, rfl, rfl⟩
  | dropped => nofun
  | alone => nofun

/-- a group of merged scripts comes first only when dropped modules alone stand before its scripts -/
theorem of_head_merged {g : Group} {gs : List Group} {deferred : Bool}
    (h : (scriptGroups seen [] l).1 = g :: gs) (hg : g.kind = .merged deferred false) :
    ∃ dropped b back, l = dropped ++ b :: back ∧ (∀ m ∈ dropped, m.repeats seen = true) ∧
      b.Plain ∧ b.deferred = deferred := by
  induction l with
  | nil => cases h
  | cons a l ih =>
    by_cases hplain : a.Plain
    · rw [scriptGroups_joins (Asset.joins_nil.mpr hplain)] at h
      obtain ⟨g', gs', h', hg'⟩ := exists_head_scriptGroups seen [a] l a [] rfl
      rw [List.nil_append, h'] at h
      cases h
      rw [hg] at hg'
      exact ⟨[], a, l, rfl, nofun, hplain, (GroupKind.merged.inj hg').1.symm⟩
    · cases hrep : a.repeats seen with
      | true =>
        rw [scriptGroups_dropped hrep] at h
        obtain ⟨dropped, b, back, rfl, hdropped, hb⟩ := ih h
        exact ⟨a :: dropped, b, back, rfl, List.forall_mem_cons.mpr ⟨hrep, hdropped⟩, hb⟩
      | false =>
        rw [scriptGroups_alone hplain hrep] at h
        cases h
        exact absurd hg (a.loneKind_ne deferred)

theorem gathered_of_ne_nil (hne : run ≠ []) :
    ∃ b, run.head? = some b ∧ gathered run = [⟨.merged b.deferred false, run⟩] := by
  cases run with
  | nil => exact absurd rfl hne
  | cons b r => exact ⟨b, rfl, rfl⟩

theorem isChain_scriptGroups (seen : List NodeId) (run l : List Asset) :
    Agreeing run → ¬ Parted seen (run ++ l) →
      (scriptGroups seen run l).1.IsChain Group.Differ := by
  induction seen, run, l using scriptGroups_induction with
  | nil seen run =>
    intro _ _
    show (gathered run).IsChain _
    cases run with
    | nil => exact .nil
    | cons a r => exact .singleton _
  | joins seen run a l hj ih =>
    intro hrun h
    rw [scriptGroups_joins hj]
    exact ih (hrun.concat hj.1 hj.2) (by rwa [List.append_assoc])
  | closes seen run a l hj ih =>
    intro hrun h
    have htail := not_parted_of_run hrun h
    by_cases hne : run = []
    · rw [hne]
      exact ih agreeing_nil htail
    · obtain ⟨c, hc, hrun'⟩ := gathered_of_ne_nil hne
      rw [scriptGroups_closes hj]
      show (gathered run ++ _).IsChain _
      rw [hrun', List.singleton_append]
      -- only the run and the group behind it are new neighbours
      refine List.IsChain.cons (ih agreeing_nil htail) fun g hg deferred hrun' hg' => ?_
      obtain ⟨gs, hgs⟩ : ∃ gs, (scriptGroups seen [] (a :: l)).1 = g :: gs :=
        ⟨_, List.eq_cons_of_mem_head? hg⟩
      obtain ⟨dropped, b, back, hl, hrep, hb, hdef⟩ := of_head_merged hgs hg'
      refine not_joins_of_not_parted hrun hne h hj hl hrep ⟨hb, fun c' hc' => ?_⟩
      rw [hc] at hc'
      cases hc'
      exact (GroupKind.merged.inj hrun').1.trans hdef.symm
  | dropped seen a l hrep ih =>
    intro _ h
    rw [scriptGroups_dropped hrep]
    have hrest := not_parted_of_cons h
    rw [sees_of_repeats hrep] at hrest
    exact ih agreeing_nil hrest
  | alone seen a l hplain hrep ih =>
    intro _ h
    rw [scriptGroups_alone hplain hrep]
    refine List.IsChain.cons (ih agreeing_nil (not_parted_of_cons h)) ?_
    exact fun g _ deferred hkind => absurd hkind (a.loneKind_ne deferred)

/-- a script that can be merged goes into the last group -/
theorem exists_last_scriptGroups (ha : a.Plain) (seen : List NodeId) (run front : List Asset) :
    ∃ gs g, (scriptGroups seen run (front ++ [a])).1 = gs ++ [g] ∧
      g.kind = .merged a.deferred false := by
  have hprepend : ∀ {groups : List Group} {p : List Group × List NodeId},
      (∃ gs g, p.1 = gs ++ [g] ∧ g.kind = .merged a.deferred false) →
        ∃ gs g, (inFront groups p).1 = gs ++ [g] ∧ g.kind = .merged a.deferred false := by
    rintro groups p ⟨gs, g, hp, hg⟩
    refine ⟨groups ++ gs, g, ?_, hg⟩
    rw [List.append_assoc, ← hp]
    rfl
  induction seen, run, front using scriptGroups_induction with
  | nil seen run =>
    have hlast : ∀ seen, ∃ gs g, (scriptGroups seen [] [a]).1 = gs ++ [g] ∧
        g.kind = .merged a.deferred false := fun seen => by
      rw [scriptGroups_joins (Asset.joins_nil.mpr ha)]
      exact ⟨[], _, rfl, rfl⟩
    by_cases hj : a.Joins run
    · rw [List.nil_append, scriptGroups_joins hj]
      have hne : run ++ [a] ≠ [] := by simp
      obtain ⟨b, hb, hrun⟩ := gathered_of_ne_nil hne
      refine ⟨[], _, hrun, congrArg (GroupKind.merged · false) ?_⟩
      cases run with
      | nil =>
        cases hb
        rfl
      | cons c r =>
        cases hb
        exact hj.2 _ rfl
    · rw [List.nil_append, scriptGroups_closes hj]
      exact hprepend (hlast seen)
  | joins seen run b front hj ih =>
    rw [List.cons_append, scriptGroups_joins hj]
    exact ih
  | closes seen run b front hj ih =>
    rw [List.cons_append, scriptGroups_closes hj]
    exact hprepend ih
  | dropped seen b front hrep ih =>
    rw [List.cons_append, scriptGroups_dropped hrep]
    exact ih
  | alone seen b front hplain hrep ih =>
    rw [List.cons_append, scriptGroups_alone hplain hrep]
    exact hprepend ih

/-- a dropped module closes the groups before it -/
theorem scriptGroups_append_dropped {m : Asset} {back : List Asset} (seen : List NodeId)
    (run front : List Asset) : m.repeats (seenAfter seen front) = true →
      scriptGroups seen run (front ++ m :: back) =
        inFront (scriptGroups seen run front).1 (scriptGroups (seenAfter seen front) [] back) := by
  induction seen, run, front using scriptGroups_induction with
  | nil seen run =>
    intro hm
    have hrep : m.repeats seen = true := hm
    rw [List.nil_append, scriptGroups_closes fun hj => Asset.not_plain_of_repeats hrep hj.1,
      scriptGroups_dropped hrep]
    rfl
  | joins seen run b front hj ih =>
    intro hm
    have hseen : seenAfter seen (b :: front) = seenAfter seen front := by
      show seenAfter (b.sees seen) front = _
      rw [Asset.sees_of_none hj.1.moduleFile?]
    rw [hseen] at hm ⊢
    rw [List.cons_append, scriptGroups_joins hj, scriptGroups_joins hj]
    exact ih hm
  | closes seen run b front hj ih =>
    intro hm
    rw [List.cons_append, scriptGroups_closes hj, scriptGroups_closes hj, ← List.cons_append,
      ih hm, inFront_inFront]
    rfl
  | dropped seen b front hrep ih =>
    intro hm
    have hseen : seenAfter seen (b :: front) = seenAfter seen front := by
      show seenAfter (b.sees seen) front = _
      rw [sees_of_repeats hrep]
    rw [hseen] at hm ⊢
    rw [List.cons_append, scriptGroups_dropped hrep, scriptGroups_dropped hrep]
    exact ih hm
  | alone seen b front hplain hrep ih =>
    intro hm
    rw [List.cons_append, scriptGroups_alone hplain hrep, scriptGroups_alone hplain hrep, ih hm,
      inFront_inFront]
    rfl

theorem scriptGroups_skip (h : ∀ m ∈ dropped, m.repeats seen = true) :
    scriptGroups seen [] (dropped ++ l) = scriptGroups seen [] l := by
  induction dropped with
  | nil => rfl
  | cons m ms ih =>
    rw [List.cons_append, scriptGroups_dropped (h m List.mem_cons_self)]
    exact ih fun x hx => h x (List.mem_cons_of_mem _ hx)

theorem not_isChain_of_parted (h : Parted seen l) :
    ¬ (scriptGroups seen [] l).1.IsChain Group.Differ := by
  obtain ⟨front, a, dropped, b, back, rfl, hne, hrep, ha, hb, hdef⟩ := h
  obtain ⟨m, ms, rfl⟩ := List.exists_cons_of_ne_nil hne
  have hseen : seenAfter seen (front ++ [a]) = seenAfter seen front := by
    rw [seenAfter_append]
    exact seenAfter_plain (List.forall_mem_singleton.mpr ha)
  have hsplit : front ++ a :: (m :: ms ++ b :: back) =
      front ++ [a] ++ m :: (ms ++ b :: back) := by simp
  rw [← hseen] at hrep
  rw [hsplit, scriptGroups_append_dropped _ _ _ (hrep m List.mem_cons_self),
    scriptGroups_skip fun x hx => hrep x (List.mem_cons_of_mem _ hx),
    scriptGroups_joins (Asset.joins_nil.mpr hb)]
  obtain ⟨gs, g, hlast, hg⟩ := exists_last_scriptGroups ha seen [] front
  obtain ⟨g', gs', hfirst, hg'⟩ :=
    exists_head_scriptGroups (seenAfter seen (front ++ [a])) [b] back b [] rfl
  show ¬ ((scriptGroups seen [] (front ++ [a])).1 ++ _).IsChain _
  rw [hlast, List.nil_append, hfirst]
  intro hchain
  have hdiffer := (List.isChain_append.mp hchain).2.2 g (by simp) g' (by simp)
  exact hdiffer _ hg (hdef ▸ hg')

/-! ## the scripts without the dropped modules -/

theorem not_repeats_of_withoutRepeats {m : Asset} {back : List Asset}
    (h : withoutRepeats seen l = front ++ m :: back) :
    m.repeats (seenAfter seen front) = false := by
  induction l generalizing seen front with
  | nil =>
    rw [withoutRepeats] at h
    simp at h
  | cons a l ih =>
    rw [withoutRepeats] at h
    cases hrep : a.repeats seen with
    | true =>
      rw [hrep] at h
      exact ih h
    | false =>
      rw [hrep] at h
      replace h : a :: withoutRepeats (a.sees seen) l = front ++ m :: back := h
      cases front with
      | nil =>
        cases h
        exact hrep
      | cons c front =>
        obtain ⟨hc, hrest⟩ := List.cons.inj h
        show m.repeats (seenAfter (c.sees seen) front) = false
        rw [← hc]
        exact ih hrest

theorem not_parted_withoutRepeats (seen : List NodeId) (l : List Asset) :
    ¬ Parted seen (withoutRepeats seen l) := by
  rintro ⟨front, a, dropped, b, back, hl, hne, hrep, ha, _⟩
  obtain ⟨m, ms, rfl⟩ := List.exists_cons_of_ne_nil hne
  have hsplit : front ++ a :: (m :: ms ++ b :: back) =
      front ++ [a] ++ m :: (ms ++ b :: back) := by simp
  have hno := not_repeats_of_withoutRepeats (hl.trans hsplit)
  rw [seenAfter_append, seenAfter_plain (List.forall_mem_singleton.mpr ha),
    hrep m List.mem_cons_self] at hno
  cases hno

end

/-- **Dropped modules leave no trace in the groups just when none of them parts two scripts that may
share one**; just then the runs of scripts are as long as they can be. -/
theorem scriptGroups_traceless (seen : List NodeId) (l : List Asset) :
    (scriptGroups seen [] l).1.flatMap (·.members) = withoutRepeats seen l ∧
    ((scriptGroups seen [] l).1 = (scriptGroups seen [] (withoutRepeats seen l)).1 ↔
      ¬ Parted seen l) ∧
    ((scriptGroups seen [] l).1.IsChain Group.Differ ↔ ¬ Parted seen l) := by
  have hequal := groups_withoutRepeats seen [] l agreeing_nil
  have hchain := isChain_scriptGroups seen [] l agreeing_nil
  have hkept : (scriptGroups seen [] (withoutRepeats seen l)).1.IsChain Group.Differ :=
    isChain_scriptGroups seen [] _ agreeing_nil (not_parted_withoutRepeats seen l)
  refine ⟨members_scriptGroups seen [] l, ⟨fun h hparted => ?_, hequal⟩,
    fun h hparted => not_isChain_of_parted hparted h, hchain⟩
  exact not_isChain_of_parted hparted (h ▸ hkept)

/-- a script of a file that runs when the document is read -/
def deferredScript (start : Nat) (file : NodeId) (module : Bool) : Asset :=
  ⟨⟨.script, start, ⟨"<script defer>".toList, [], "</script>".toList⟩⟩, .file file, true, false,
    module⟩

/-- two scripts with a module between them -/
def partedScripts : List Asset :=
  [deferredScript 0 1 false, deferredScript 23 2 true, deferredScript 46 3 false]

/-- when the module was there before, it leaves two groups where there is one without it -/
theorem scriptGroups_parted :
    withoutRepeats [2] partedScripts = [deferredScript 0 1 false, deferredScript 46 3 false] ∧
    (scriptGroups [2] [] partedScripts).1 ≠
      (scriptGroups [2] [] (withoutRepeats [2] partedScripts)).1 ∧
    ¬ (scriptGroups [2] [] partedScripts).1.IsChain Group.Differ := by
  refine ⟨rfl, fun h => ?_, fun h => ?_⟩
  · have hlength : (2 : Nat) = 1 := congrArg List.length h
    cases hlength
  · exact (List.isChain_cons_cons.mp h).1 true rfl rfl

end SiteBundle
