import SiteBundle.Proofs.Style.Address

/-!
# Addresses lead there by the fewest steps

What a path leads to is told step by step, without the place that walking keeps (`Leads`,
`walkSteps?_eq_some_iff`).  Only steps up and names count as moves (`moves`).  A move changes the way
between two places by one step at most (`length_stepsBetween_concat`), so no path is shorter than the
way itself (`Leads.length_stepsBetween_le`).

An address is left as it is when it is not read from where it stands, or leads above the root; any
other one is written for the other directory such that it leads to the same place, with the same
suffix, by the fewest moves (`rebaseReference?_exact`).
-/

namespace SiteBundle

open Text

/-! ## where steps lead -/

/-- the steps lead from one place to another, the places given by their names from the root -/
inductive Leads : List Text → List Text → List Text → Prop
  | arrived (place : List Text) : Leads place [] place
  | stay {dir steps place : List Text} {step : Text} (h : isIdle step = true)
      (rest : Leads dir steps place) : Leads dir (step :: steps) place
  | up {dir steps place : List Text} (name : Text) (rest : Leads dir steps place) :
      Leads (dir ++ [name]) (['.', '.'] :: steps) place
  | down {dir steps place : List Text} {name : Text} (h : isPlainName name = true)
      (rest : Leads (dir ++ [name]) steps place) : Leads dir (name :: steps) place

section
variable {dir place steps : List Text} {step name : Text}

theorem walkSteps?_nil (dir : List Text) : walkSteps? dir [] = some dir := by
  rw [walkSteps?, List.foldlM_nil]
  exact congrArg some (List.reverse_reverse dir)

/-- walking on after a step that is possible -/
theorem walkSteps?_cons {d : List Text} (h : step? dir.reverse step = some d.reverse)
    (steps : List Text) : walkSteps? dir (step :: steps) = walkSteps? d steps := by
  unfold walkSteps?
  rw [List.foldlM_cons, h]
  rfl

theorem Leads.walkSteps? (h : Leads dir steps place) : walkSteps? dir steps = some place := by
  induction h with
  | arrived place => exact walkSteps?_nil place
  | stay h _ ih => rw [walkSteps?_cons (step?_idle h _), ih]
  | @up dir _ _ name _ ih =>
    rw [walkSteps?_cons (d := dir) (by rw [List.reverse_concat]; rfl), ih]
  | @down dir _ _ name h _ ih =>
    rw [walkSteps?_cons (d := dir ++ [name]) (by rw [List.reverse_concat]; exact step?_plain h _),
      ih]

theorem leads_of_walkSteps? (h : walkSteps? dir steps = some place) : Leads dir steps place := by
  induction steps generalizing dir with
  | nil =>
    rw [walkSteps?_nil] at h
    exact Option.some.inj h ▸ .arrived dir
  | cons step steps ih =>
    by_cases hidle : isIdle step = true
    · rw [walkSteps?_cons (step?_idle hidle _)] at h
      exact .stay hidle (ih h)
    · by_cases hup : step = ['.', '.']
      · subst hup
        rcases List.eq_nil_or_concat dir with rfl | ⟨dir, name, rfl⟩
        · exact nomatch h
        · rw [List.concat_eq_append] at h ⊢
          rw [walkSteps?_cons (d := dir) (by rw [List.reverse_concat]; rfl)] at h
          exact .up name (ih h)
      · have hplain : isPlainName step = true :=
          isPlainName_iff.mpr ⟨Bool.eq_false_iff.mpr hidle, hup⟩
        rw [walkSteps?_cons (d := dir ++ [step])
          (by rw [List.reverse_concat]; exact step?_plain hplain _)] at h
        exact .down hplain (ih h)

theorem walkSteps?_eq_some_iff : walkSteps? dir steps = some place ↔ Leads dir steps place :=
  ⟨leads_of_walkSteps?, Leads.walkSteps?⟩

/-- a place is reached by names that were there and by names that are steps -/
theorem Leads.mem (h : Leads dir steps place) (hname : name ∈ place) :
    name ∈ dir ∨ name ∈ steps ∧ isPlainName name = true := by
  induction h with
  | arrived place => exact .inl hname
  | stay _ _ ih => exact (ih hname).imp_right fun ⟨h, hp⟩ => ⟨List.mem_cons_of_mem _ h, hp⟩
  | up _ _ ih =>
    exact (ih hname).imp (List.mem_append_left _) fun ⟨h, hp⟩ => ⟨List.mem_cons_of_mem _ h, hp⟩
  | down hplain _ ih =>
    rcases ih hname with h | ⟨h, hp⟩
    · rcases List.mem_append.mp h with h | h
      · exact .inl h
      · obtain rfl := List.mem_singleton.mp h
        exact .inr ⟨List.mem_cons_self, hplain⟩
    · exact .inr ⟨List.mem_cons_of_mem _ h, hp⟩

/-! ## the fewest steps -/

/-- the steps that go up or down -/
def moves (steps : List Text) : Nat := (steps.filter (!isIdle ·)).length

theorem moves_cons_idle (h : isIdle step = true) (steps : List Text) :
    moves (step :: steps) = moves steps := by
  rw [moves, List.filter_cons_of_neg (by rw [h]; exact Bool.false_ne_true)]
  rfl

theorem moves_cons (h : isIdle step = false) (steps : List Text) :
    moves (step :: steps) = moves steps + 1 := by
  rw [moves, List.filter_cons_of_pos (by rw [h]; rfl)]
  rfl

theorem length_stepsBetween (base place : List Text) : (stepsBetween base place).length =
    (dropCommon base place).1.length + (dropCommon base place).2.length := by
  rw [stepsBetween, List.length_append, List.length_map]

theorem dropCommon_cons_self (name : Text) (base place : List Text) :
    dropCommon (name :: base) (name :: place) = dropCommon base place := by
  rw [dropCommon, if_pos rfl]

theorem stepsBetween_self (place : List Text) : stepsBetween place place = [] := by
  induction place with
  | nil => rfl
  | cons name place ih =>
    rw [stepsBetween, dropCommon_cons_self]
    exact ih

theorem dropCommon_nil (place : List Text) : dropCommon [] place = ([], place) := by
  cases place with
  | nil => rfl
  | cons name place => rfl

/-- one folder further down, the way changes by one step -/
theorem length_stepsBetween_concat (dir place : List Text) (name : Text) :
    (stepsBetween (dir ++ [name]) place).length ≤ (stepsBetween dir place).length + 1 ∧
      (stepsBetween dir place).length ≤ (stepsBetween (dir ++ [name]) place).length + 1 := by
  rw [length_stepsBetween, length_stepsBetween]
  induction dir generalizing place with
  | nil =>
    cases place with
    | nil => exact ⟨Nat.le_refl _, Nat.zero_le _⟩
    | cons next place =>
      rw [List.nil_append, dropCommon, dropCommon_nil, dropCommon_nil]
      split
      · simp only [List.length_nil, List.length_cons]
        omega
      · simp only [List.length_nil, List.length_cons]
        omega
  | cons first dir ih =>
    cases place with
    | nil =>
      rw [List.cons_append, dropCommon, dropCommon]
      · simp only [List.length_nil, List.length_cons, List.length_append]
        omega
      · exact nofun
      · exact nofun
    | cons next place =>
      rw [List.cons_append, dropCommon, dropCommon]
      split
      · exact ih place
      · simp only [List.length_cons, List.length_append, List.length_nil]
        omega

/-- **No path between two places has fewer moves than there are steps between them.** -/
theorem Leads.length_stepsBetween_le (h : Leads dir steps place) :
    (stepsBetween dir place).length ≤ moves steps := by
  induction h with
  | arrived place =>
    rw [stepsBetween_self]
    exact Nat.le_refl _
  | stay h _ ih => rwa [moves_cons_idle h]
  | @up dir _ place name _ ih =>
    rw [moves_cons rfl]
    exact Nat.le_trans (length_stepsBetween_concat dir place name).1 (Nat.succ_le_succ ih)
  | @down dir _ place name h _ ih =>
    rw [moves_cons (isPlainName_iff.mp h).1]
    exact Nat.le_trans (length_stepsBetween_concat dir place name).2 (Nat.succ_le_succ ih)

end

/-! ## addresses -/

/-- a name of a folder that neither goes up nor stays, and can stand before a query or a fragment -/
structure IsFolderName (name : Text) : Prop where
  entry : IsEntryName name
  plain : ∀ c ∈ name, isSuffixStart c = false

/-- the steps of an address, without its query or fragment -/
def addressSteps (url : Text) : List Text := splitOn '/' (splitSuffix url).1

section
variable {source target place names : List Text} {url : Text}

theorem directoryNames_join (h : ∀ name ∈ names, IsFolderName name) :
    directoryNames (join ['/'] names) = names :=
  pathPieces_join fun name hname => (h name hname).entry

theorem isRelative_eq_false_iff : isRelative url = false ↔
    trim url = [] ∨ (trim url).head? = some '#' ∨ (trim url).head? = some '/' ∨
      isAbsolute (trim url) = true := by
  unfold isRelative
  generalize trim url = t
  cases t with
  | nil => exact ⟨fun _ => .inl rfl, fun _ => rfl⟩
  | cons c r =>
    show (!(c == '#' || c == '/' || isAbsolute (c :: r))) = false ↔ _
    rw [Bool.not_eq_false', Bool.or_eq_true, Bool.or_eq_true, beq_iff_eq, beq_iff_eq, or_assoc]
    simp

theorem resolve?_eq : resolve? source url =
    (walkSteps? source (addressSteps (trim url))).map fun place =>
      (place, (splitSuffix (trim url)).2) := rfl

/-- the steps of an address are names between slashes, and no suffix begins in them -/
theorem plain_addressSteps {step : Text} (h : step ∈ addressSteps url) :
    '/' ∉ step ∧ ∀ c ∈ step, isSuffixStart c = false := by
  refine ⟨fun hslash => (mem_of_mem_splitOn h hslash).1 rfl, fun c hc => ?_⟩
  have hpath := (mem_of_mem_splitOn h hc).2
  rw [splitSuffix_eq] at hpath
  exact Bool.not_eq_true' _ |>.mp (List.all_eq_true.mp List.all_takeWhile c hpath)

/-- a place that an address leads to has names of folders only -/
theorem Leads.isFolderName (hsource : ∀ name ∈ source, IsFolderName name)
    (h : Leads source (addressSteps url) place) : ∀ name ∈ place, IsFolderName name := by
  intro name hname
  rcases h.mem hname with hmem | ⟨hmem, hplain⟩
  · exact hsource name hmem
  · obtain ⟨hslash, hsuffix⟩ := plain_addressSteps hmem
    exact ⟨⟨hplain, hslash⟩, hsuffix⟩

/-- the address of a place leads there, and goes the way that leads there -/
theorem leads_addressOf (target : List Text) {suffix : Text}
    (hplace : ∀ name ∈ place, IsFolderName name)
    (hsuffix : suffix = [] ∨ ∃ c r, suffix = c :: r ∧ isSuffixStart c = true) :
    Leads target (addressSteps (addressOf target place suffix)) place ∧
      (splitSuffix (addressOf target place suffix)).2 = suffix ∧
      moves (addressSteps (addressOf target place suffix)) = (stepsBetween target place).length := by
  have hplainNames : ∀ name ∈ place, isPlainName name = true := fun name hname =>
    (hplace name hname).entry.1
  have hsteps : ∀ step ∈ stepsBetween target place,
      isIdle step = false ∧ '/' ∉ step ∧ ∀ c ∈ step, isSuffixStart c = false := by
    intro step hstep
    rcases mem_stepsBetween hstep with rfl | hmem
    · decide
    · have hname := hplace step hmem
      exact ⟨(isPlainName_iff.mp hname.entry.1).1, hname.entry.2, hname.plain⟩
  have hwalk : walkSteps? target (stepsBetween target place) = some place :=
    walkSteps?_stepsBetween hplainNames
  unfold addressOf addressSteps
  generalize stepsBetween target place = steps at hsteps hwalk ⊢
  have hpath : ∀ c ∈ join ['/'] steps, isSuffixStart c = false := by
    intro c hc
    rcases mem_join hc with hc | ⟨step, hstep, hc⟩
    · rw [List.mem_singleton.mp hc]
      rfl
    · exact (hsteps step hstep).2.2 c hc
  rw [splitSuffix_append hpath hsuffix]
  by_cases hnil : steps = []
  · subst hnil
    refine ⟨.stay rfl (walkSteps?_eq_some_iff.mp hwalk), rfl, rfl⟩
  · rw [splitOn_join hnil fun step hstep => (hsteps step hstep).2.1]
    refine ⟨walkSteps?_eq_some_iff.mp hwalk, rfl, ?_⟩
    rw [moves, List.filter_eq_self.mpr fun step hstep => by rw [(hsteps step hstep).1]; rfl]

end

/-- **An address is written for another directory so that it leads where it led, by the fewest
moves.**  It is left as it is exactly when it is empty, a fragment or a path from the root, when it is
absolute, or when it leads above the root. -/
theorem rebaseReference?_exact {source target : List Text}
    (hsource : ∀ name ∈ source, IsFolderName name) (htarget : ∀ name ∈ target, IsFolderName name)
    (url : Text) :
    (rebaseReference? url (join ['/'] source) (join ['/'] target) = none ↔
      (trim url = [] ∨ (trim url).head? = some '#' ∨ (trim url).head? = some '/' ∨
        isAbsolute (trim url) = true) ∨ ∀ place, ¬ Leads source (addressSteps (trim url)) place) ∧
    ∀ u, rebaseReference? url (join ['/'] source) (join ['/'] target) = some u →
      ∃ place, Leads source (addressSteps (trim url)) place ∧ Leads target (addressSteps u) place ∧
        (splitSuffix u).2 = (splitSuffix (trim url)).2 ∧
        ∀ steps, Leads target steps place → moves (addressSteps u) ≤ moves steps := by
  rw [rebaseReference?_eq, directoryNames_join hsource, directoryNames_join htarget, resolve?_eq,
    ← isRelative_eq_false_iff]
  cases hrelative : isRelative url with
  | false => exact ⟨⟨fun _ => .inl rfl, fun _ => rfl⟩, nofun⟩
  | true =>
    rw [if_pos rfl]
    cases hwalk : walkSteps? source (addressSteps (trim url)) with
    | none =>
      refine ⟨⟨fun _ => .inr fun place h => ?_, fun _ => rfl⟩, nofun⟩
      exact nomatch hwalk.symm.trans (walkSteps?_eq_some_iff.mpr h)
    | some place =>
      have hleads := walkSteps?_eq_some_iff.mp hwalk
      obtain ⟨hto, hsuffix, hmoves⟩ := leads_addressOf target
        (hleads.isFolderName hsource) (splitSuffix_cases (trim url)).2
      refine ⟨⟨nofun, fun h => absurd hleads (h.resolve_left nofun place)⟩, fun u hu => ?_⟩
      obtain rfl := Option.some.inj hu
      refine ⟨place, hleads, hto, hsuffix, fun steps hsteps => ?_⟩
      rw [hmoves]
      exact hsteps.length_stepsBetween_le

/-- from one folder below the root to another one two below it; two steps up lead out of the site -/
theorem rebaseReference?_exact_deeper :
    (∀ name ∈ ["css".toList], IsFolderName name) ∧
    (∀ name ∈ ["bundles".toList, "v2".toList], IsFolderName name) ∧
    rebaseReference? " ../img/./a.png?v=1 ".toList "css".toList "bundles/v2".toList =
      some "../../img/a.png?v=1".toList ∧
    Leads ["css".toList] [['.', '.'], "img".toList, ['.'], "a.png".toList]
      ["img".toList, "a.png".toList] ∧
    (∀ steps, Leads ["bundles".toList, "v2".toList] steps ["img".toList, "a.png".toList] →
      4 ≤ moves steps) ∧
    rebaseReference? "../../a.png".toList "css".toList "bundles/v2".toList = none ∧
    ∀ place, ¬ Leads ["css".toList] [['.', '.'], ['.', '.'], "a.png".toList] place := by
  have hsource : ∀ name ∈ ["css".toList], IsFolderName name :=
    List.forall_mem_singleton.mpr ⟨⟨rfl, by decide⟩, by decide⟩
  have htarget : ∀ name ∈ ["bundles".toList, "v2".toList], IsFolderName name :=
    List.forall_mem_cons.mpr ⟨⟨⟨rfl, by decide⟩, by decide⟩,
      List.forall_mem_singleton.mpr ⟨⟨rfl, by decide⟩, by decide⟩⟩
  have hsome : rebaseReference? " ../img/./a.png?v=1 ".toList "css".toList "bundles/v2".toList =
      some "../../img/a.png?v=1".toList := by decide
  have hnone : rebaseReference? "../../a.png".toList "css".toList "bundles/v2".toList = none := by
    decide
  obtain ⟨place, hfrom, -, -, hfewest⟩ :=
    (rebaseReference?_exact hsource htarget " ../img/./a.png?v=1 ".toList).2 _ hsome
  obtain rfl : ["img".toList, "a.png".toList] = place :=
    Option.some.inj (walkSteps?_eq_some_iff.mpr hfrom)
  refine ⟨hsource, htarget, hsome, hfrom, hfewest, hnone, ?_⟩
  exact ((rebaseReference?_exact hsource htarget "../../a.png".toList).1.mp hnone).resolve_left
    (by decide)

end SiteBundle
