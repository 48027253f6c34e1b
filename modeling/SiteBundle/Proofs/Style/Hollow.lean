import SiteBundle.Proofs.Style.Semicolons

/-!
# Rows of empty rules

A rule goes when its block holds nothing but white space, and so in the end does a rule whose block holds
nothing but such rules:

* `Hollow m`          `m` is a row of rules with nothing in their blocks, at any depth;
* `Thinned b s u`     `u` is `s` without some hollow rows, each from the beginning of a rule on; `b` tells
                      whether a rule may begin at the front;
* `Thinned.trans`     taking out rows in turns is taking out rows;
* `thinned_dropEmptyRules`   one round takes out hollow rows;
* `dropEmptyRules_hollow`    and it leaves hollow what was hollow.
-/

namespace SiteBundle

open Text

variable {b : Bool} {c : Char} {m s t u v x selector blanks rest new : Text}

/-- a row of rules with nothing in their blocks but such rules and white space -/
inductive Hollow : Text → Prop
  | nil : Hollow []
  | rule {selector inside blanks rest : Text} (hne : selector ≠ [])
      (hselector : ∀ c ∈ selector, isSelectorChar c = true) (hinside : Hollow inside)
      (hblanks : ∀ c ∈ blanks, isBlank c = true) (hrest : Hollow rest) :
      Hollow (selector ++ '\x7b' :: (inside ++ (blanks ++ '\x7d' :: rest)))

/-- a text without some hollow rows; a row is taken out where a rule may begin -/
inductive Thinned : Bool → Text → Text → Prop
  | done {b : Bool} : Thinned b [] []
  | keep {b : Bool} {c : Char} {s u : Text} (h : Thinned (!isSelectorChar c) s u) :
      Thinned b (c :: s) (c :: u)
  | drop {m s u : Text} (hm : Hollow m) (h : Thinned true s u) : Thinned true (m ++ s) u

theorem Hollow.append (hm : Hollow m) (hx : Hollow x) : Hollow (m ++ x) := by
  induction hm with
  | nil => exact hx
  | rule hne hselector hinside hblanks _ _ ih =>
    rw [List.append_assoc, List.cons_append, List.append_assoc, List.append_assoc, List.cons_append]
    exact .rule hne hselector hinside hblanks ih

theorem isSelectorChar_of_isBlank (h : isBlank c = true) : isSelectorChar c = true := by
  have hne : ∀ d, isBlank d = false → c ≠ d := by
    rintro d hd rfl
    exact nomatch h.symm.trans hd
  simp [isSelectorChar, hne '\x7b' rfl, hne '\x7d' rfl, hne ';' rfl]

/-! ## thinning -/

theorem Thinned.refl (b : Bool) (t : Text) : Thinned b t t := by
  induction t generalizing b with
  | nil => exact .done
  | cons c t ih => exact .keep (ih _)

/-- what is kept was there, behind a row that is taken out -/
theorem Thinned.of_cons (h : Thinned b s (c :: u)) : ∃ m s', s = m ++ c :: s' ∧ Hollow m ∧
    (b = false → m = []) ∧ Thinned (!isSelectorChar c) s' u := by
  generalize hv : c :: u = v at h
  induction h with
  | done => exact nomatch hv
  | keep h _ =>
    obtain ⟨rfl, rfl⟩ := List.cons.inj hv
    exact ⟨[], _, rfl, .nil, fun _ => rfl, h⟩
  | @drop m s u hm _ ih =>
    obtain ⟨m', s', rfl, hm', -, h⟩ := ih hv
    exact ⟨m ++ m', s', by rw [List.append_assoc], hm.append hm', nofun, h⟩

/-- within a selector nothing is taken out -/
theorem Thinned.of_run (hselector : ∀ c ∈ selector, isSelectorChar c = true)
    (h : Thinned false s (selector ++ c :: u)) :
    ∃ s', s = selector ++ c :: s' ∧ Thinned (!isSelectorChar c) s' u := by
  induction selector generalizing s with
  | nil =>
    obtain ⟨m, s', rfl, -, hnil, hrest⟩ := h.of_cons
    obtain rfl := hnil rfl
    exact ⟨s', rfl, hrest⟩
  | cons d selector ih =>
    obtain ⟨hd, hselector⟩ := List.forall_mem_cons.mp hselector
    obtain ⟨m, s₁, rfl, -, hnil, hnext⟩ := h.of_cons
    obtain rfl := hnil rfl
    rw [hd] at hnext
    obtain ⟨s', rfl, hrest⟩ := ih hselector hnext
    exact ⟨s', rfl, hrest⟩

/-- before a selector rows may be taken out -/
theorem Thinned.of_selector (hselector : ∀ c ∈ selector, isSelectorChar c = true)
    (h : Thinned true s (selector ++ c :: u)) : ∃ m s', s = m ++ (selector ++ c :: s') ∧ Hollow m ∧
      Thinned (!isSelectorChar c) s' u := by
  cases selector with
  | nil =>
    obtain ⟨m, s', rfl, hm, -, hrest⟩ := h.of_cons
    exact ⟨m, s', rfl, hm, hrest⟩
  | cons d selector =>
    obtain ⟨hd, hselector⟩ := List.forall_mem_cons.mp hselector
    obtain ⟨m, s₁, rfl, hm, -, hnext⟩ := h.of_cons
    rw [hd] at hnext
    obtain ⟨s', rfl, hrest⟩ := hnext.of_run hselector
    exact ⟨m, s', rfl, hm, hrest⟩

/-- what becomes a hollow row by thinning was one -/
theorem Thinned.of_hollow (hm : Hollow m) (h : Thinned true s (m ++ x)) :
    ∃ m' s', s = m' ++ s' ∧ Hollow m' ∧ Thinned true s' x := by
  induction hm generalizing s x with
  | nil => exact ⟨[], s, rfl, .nil, h⟩
  | @rule selector inside blanks rest hne hselector _ hblanks _ ihinside ihrest =>
    rw [List.append_assoc, List.cons_append, List.append_assoc, List.append_assoc,
      List.cons_append] at h
    obtain ⟨m₀, s₁, rfl, hm₀, h₁⟩ := h.of_selector hselector
    obtain ⟨inside', s₂, rfl, hinside', h₂⟩ := ihinside h₁
    obtain ⟨m₁, s₃, rfl, hm₁, h₃⟩ := h₂.of_selector fun c hc =>
      isSelectorChar_of_isBlank (hblanks c hc)
    obtain ⟨rest', s₄, rfl, hrest', h₄⟩ := ihrest h₃
    refine ⟨m₀ ++ (selector ++ '\x7b' :: ((inside' ++ m₁) ++ (blanks ++ '\x7d' :: rest'))), s₄, ?_,
      hm₀.append (.rule hne hselector (hinside'.append hm₁) hblanks hrest'), h₄⟩
    simp only [List.append_assoc, List.cons_append]

/-- **Taking out hollow rows in turns is taking out hollow rows.** -/
theorem Thinned.trans (h : Thinned b s u) (h' : Thinned b u v) : Thinned b s v := by
  induction h' generalizing s with
  | done => exact h
  | @keep b c u v _ ih =>
    obtain ⟨m, s', rfl, hm, hnil, hrest⟩ := h.of_cons
    cases b with
    | false =>
      obtain rfl := hnil rfl
      exact .keep (ih hrest)
    | true => exact .drop hm (.keep (ih hrest))
  | drop hm _ ih =>
    obtain ⟨m', s', rfl, hm', hrest⟩ := h.of_hollow hm
    exact .drop hm' (ih hrest)

/-- a character that is kept stands in the text, with a thinned text behind it -/
theorem Thinned.of_append (h : Thinned b s (t ++ c :: u)) :
    ∃ t' s', s = t' ++ c :: s' ∧ Thinned (!isSelectorChar c) s' u := by
  induction t generalizing b s with
  | nil =>
    obtain ⟨m, s', rfl, -, -, hrest⟩ := h.of_cons
    exact ⟨m, s', rfl, hrest⟩
  | cons d t ih =>
    obtain ⟨m, s₁, rfl, -, -, hnext⟩ := h.of_cons
    obtain ⟨t', s', rfl, hrest⟩ := ih hnext
    exact ⟨m ++ d :: t', s', by rw [List.append_assoc]; rfl, hrest⟩

/-! ## rules that are empty -/

theorem of_emptyRule? (h : emptyRule? t = some (new, rest)) : new = [] ∧ ∃ selector blanks,
    t = selector ++ '\x7b' :: (blanks ++ '\x7d' :: rest) ∧ selector ≠ [] ∧
      (∀ c ∈ selector, isSelectorChar c = true) ∧ ∀ c ∈ blanks, isBlank c = true := by
  unfold emptyRule? at h
  split at h
  · rename_i d selector r htake hdrop
    split at h
    · rename_i rest' hrest
      obtain ⟨rfl, rfl⟩ := Prod.mk.inj (Option.some.inj h)
      refine ⟨rfl, t.takeWhile isSelectorChar, r.takeWhile isBlank, ?_, ?_,
        List.all_eq_true.mp List.all_takeWhile, List.all_eq_true.mp List.all_takeWhile⟩
      · rw [← hrest, List.takeWhile_append_dropWhile, ← hdrop, List.takeWhile_append_dropWhile]
      · rw [htake]
        exact List.cons_ne_nil _ _
    · exact nomatch h
  · exact nomatch h

theorem emptyRule?_selector (hselector : ∀ c ∈ selector, isSelectorChar c = true)
    (hc : isSelectorChar c = false) (t : Text) :
    (selector ++ c :: t).takeWhile isSelectorChar = selector ∧
      (selector ++ c :: t).dropWhile isSelectorChar = c :: t := by
  have hc : ¬ isSelectorChar c = true := Bool.eq_false_iff.mp hc
  rw [List.takeWhile_append_of_pos hselector, List.dropWhile_append_of_pos hselector,
    List.takeWhile_cons_of_neg hc, List.dropWhile_cons_of_neg hc, List.append_nil]
  exact ⟨rfl, rfl⟩

/-- an empty rule is read with any text behind it -/
theorem emptyRule?_rule (hne : selector ≠ []) (hselector : ∀ c ∈ selector, isSelectorChar c = true)
    (hblanks : ∀ c ∈ blanks, isBlank c = true) (rest : Text) :
    emptyRule? (selector ++ '\x7b' :: (blanks ++ '\x7d' :: rest)) = some ([], rest) := by
  obtain ⟨htake, hdrop⟩ := emptyRule?_selector hselector (c := '\x7b') rfl (blanks ++ '\x7d' :: rest)
  obtain ⟨d, selector, rfl⟩ := List.exists_cons_of_ne_nil hne
  have hinside : (blanks ++ '\x7d' :: rest).dropWhile isBlank = '\x7d' :: rest :=
    List.dropWhile_append_of_pos hblanks
  unfold emptyRule?
  simp only [htake, hdrop, hinside]

/-- no empty rule where the selector leads to something else -/
theorem emptyRule?_eq_none (hselector : ∀ c ∈ selector, isSelectorChar c = true)
    (hc : isSelectorChar c = false) (h : c = '\x7b' → firstSign t ≠ some '\x7d') :
    emptyRule? (selector ++ c :: t) = none := by
  obtain ⟨htake, hdrop⟩ := emptyRule?_selector hselector hc t
  unfold emptyRule?
  rw [htake, hdrop]
  split
  · rename_i heq
    obtain ⟨rfl, rfl⟩ := List.cons.inj heq
    split
    · rename_i hrest
      refine absurd ?_ (h rfl)
      rw [firstSign, hrest]
      rfl
    · rfl
  · rfl

theorem shrinks_emptyRule? : Shrinks emptyRule? := by
  intro t new rest h
  obtain ⟨rfl, selector, blanks, rfl, -⟩ := of_emptyRule? h
  refine ⟨selector ++ '\x7b' :: (blanks ++ ['\x7d']), by simp, ?_⟩
  simp only [List.length_append, List.length_cons]
  omega

/-- an empty rule is read from the beginning of its selector on -/
theorem emptyRule?_of_cons (hc : isSelectorChar c = true) (h : emptyRule? (c :: t) = none) :
    emptyRule? t = none := by
  cases hread : emptyRule? t with
  | none => rfl
  | some r =>
    obtain ⟨-, selector, blanks, rfl, -, hselector, hblanks⟩ := of_emptyRule? hread
    have hcons := emptyRule?_rule (List.cons_ne_nil c selector)
      (List.forall_mem_cons.mpr ⟨hc, hselector⟩) hblanks r.2
    exact nomatch h.symm.trans hcons

/-! ## one round -/

/-- **One round takes out hollow rows.** -/
theorem thinned_dropEmptyRules (t : Text) : Thinned true t (dropEmptyRules t) := by
  -- inside a selector at which no empty rule was read, none is read
  refine (replace_induction shrinks_emptyRule? (motive := fun t u => Thinned true t u ∧
    (emptyRule? t = none → Thinned false t u)) ?_ ?_ ?_ t).1
  · exact ⟨.done, fun _ => .done⟩
  · intro c t hc ih
    have hrest : Thinned (!isSelectorChar c) t (replace (fun _ => emptyRule?) t) := by
      cases hselector : isSelectorChar c with
      | false => exact ih.1
      | true => exact ih.2 (emptyRule?_of_cons hselector hc)
    exact ⟨.keep hrest, fun _ => .keep hrest⟩
  · intro m new t hread _ ih
    refine ⟨?_, fun hno => nomatch hno.symm.trans hread⟩
    obtain ⟨rfl, selector, blanks, heq, hne, hselector, hblanks⟩ := of_emptyRule? hread
    rw [heq, show selector ++ '\x7b' :: (blanks ++ '\x7d' :: t) =
      (selector ++ '\x7b' :: ([] ++ (blanks ++ '\x7d' :: []))) ++ t by simp]
    exact .drop (.rule hne hselector .nil hblanks .nil) ih.1

theorem dropEmptyRules_rule (hne : selector ≠ [])
    (hselector : ∀ c ∈ selector, isSelectorChar c = true) (hblanks : ∀ c ∈ blanks, isBlank c = true)
    (t : Text) :
    dropEmptyRules (selector ++ '\x7b' :: (blanks ++ '\x7d' :: t)) = dropEmptyRules t := by
  have hread := emptyRule?_rule hne hselector hblanks t
  rw [show selector ++ '\x7b' :: (blanks ++ '\x7d' :: t) =
    (selector ++ '\x7b' :: (blanks ++ ['\x7d'])) ++ t by simp] at hread ⊢
  exact replace_found (by simp) hread

/-- a selector that leads to something else is passed over -/
theorem dropEmptyRules_run (hselector : ∀ c ∈ selector, isSelectorChar c = true)
    (hc : isSelectorChar c = false) (h : c = '\x7b' → firstSign t ≠ some '\x7d') :
    dropEmptyRules (selector ++ c :: t) = selector ++ c :: dropEmptyRules t := by
  have hover : dropEmptyRules (selector ++ c :: t) = selector ++ dropEmptyRules (c :: t) := by
    refine replace_over fun m₁ m₂ e _ => emptyRule?_eq_none (fun d hd => ?_) hc h
    exact hselector d (e ▸ List.mem_append_right m₁ hd)
  rw [hover]
  have hnone : emptyRule? ([] ++ c :: t) = none := emptyRule?_eq_none nofun hc h
  exact congrArg (selector ++ ·) (replace_cons hnone)

/-- no empty rule reaches over a semicolon -/
theorem dropEmptyRules_semicolon (t u : Text) :
    ∃ t', dropEmptyRules (t ++ ';' :: u) = t' ++ ';' :: dropEmptyRules u := by
  refine replace_induction shrinks_emptyRule? (motive := fun s v => ∀ t u, s = t ++ ';' :: u →
    ∃ t', v = t' ++ ';' :: dropEmptyRules u) ?_ ?_ ?_ (t ++ ';' :: u) t u rfl
  · intro t u e
    exact absurd (List.append_eq_nil_iff.mp e.symm).2 (List.cons_ne_nil _ _)
  · intro c s _ ih t u e
    cases t with
    | nil =>
      obtain ⟨rfl, rfl⟩ := List.cons.inj e
      exact ⟨[], rfl⟩
    | cons d t =>
      obtain ⟨rfl, hs⟩ := List.cons.inj e
      obtain ⟨t', ht'⟩ := ih t u hs
      exact ⟨c :: t', congrArg (c :: ·) ht'⟩
  · intro m new s hread _ ih t u e
    obtain ⟨rfl, selector, blanks, hm, -, hselector, hblanks⟩ := of_emptyRule? hread
    have hno : ';' ∉ m := by
      obtain rfl : m = selector ++ '\x7b' :: (blanks ++ ['\x7d']) := by
        refine (List.append_left_inj s).mp ?_
        rw [hm]
        simp
      intro hmem
      simp only [List.mem_append, List.mem_cons, List.not_mem_nil, or_false] at hmem
      rcases hmem with hmem | hmem | hmem | hmem
      · exact absurd (hselector _ hmem) (by decide)
      · exact absurd hmem (by decide)
      · exact absurd (hblanks _ hmem) (by decide)
      · exact absurd hmem (by decide)
    rcases List.append_eq_append_iff.mp e with ⟨t₁, rfl, rfl⟩ | ⟨m₁, rfl, hm₁⟩
    · exact ih t₁ u rfl
    · cases m₁ with
      | nil => exact ih [] u hm₁.symm
      | cons d m₁ =>
        obtain ⟨rfl, -⟩ := List.cons.inj hm₁
        exact absurd (by simp) hno

/-- a selector before a block does not lead to the end of one -/
theorem firstSign_selector (hselector : ∀ c ∈ selector, isSelectorChar c = true) (t : Text) :
    firstSign (selector ++ '\x7b' :: t) ≠ some '\x7d' := by
  induction selector with
  | nil => exact nofun
  | cons d selector ih =>
    obtain ⟨hd, hselector⟩ := List.forall_mem_cons.mp hselector
    cases hblank : isBlank d with
    | true =>
      rw [List.cons_append, firstSign_blank hblank]
      exact ih hselector
    | false =>
      rw [List.cons_append, firstSign_sign hblank]
      intro he
      rw [Option.some.inj he] at hd
      exact nomatch hd

theorem Hollow.firstSign_ne (hm : Hollow m) (hne : m ≠ []) (x : Text) :
    firstSign (m ++ x) ≠ some '\x7d' := by
  cases hm with
  | nil => exact absurd rfl hne
  | rule _ hselector =>
    rw [List.append_assoc, List.cons_append]
    exact firstSign_selector hselector _

/-- **A round leaves of a hollow row a hollow row**, whatever stands behind it. -/
theorem dropEmptyRules_hollow (hm : Hollow m) :
    ∃ m', Hollow m' ∧ ∀ x, dropEmptyRules (m ++ x) = m' ++ dropEmptyRules x := by
  induction hm with
  | nil => exact ⟨[], .nil, fun _ => rfl⟩
  | @rule selector inside blanks rest hne hselector hinside hblanks _ ihinside ihrest =>
    obtain ⟨inside', hinside', hin⟩ := ihinside
    obtain ⟨rest', hrest', hre⟩ := ihrest
    have hassoc : ∀ x, (selector ++ '\x7b' :: (inside ++ (blanks ++ '\x7d' :: rest))) ++ x =
        selector ++ '\x7b' :: (inside ++ (blanks ++ '\x7d' :: (rest ++ x))) := fun x => by
      simp only [List.append_assoc, List.cons_append]
    by_cases hempty : inside = []
    · refine ⟨rest', hrest', fun x => ?_⟩
      rw [hassoc, hempty, List.nil_append, dropEmptyRules_rule hne hselector hblanks, hre]
    · refine ⟨selector ++ '\x7b' :: (inside' ++ (blanks ++ '\x7d' :: rest')),
        .rule hne hselector hinside' hblanks hrest', fun x => ?_⟩
      have hblanks' : ∀ c ∈ blanks, isSelectorChar c = true := fun c hc =>
        isSelectorChar_of_isBlank (hblanks c hc)
      have hend : '\x7d' = '\x7b' → firstSign (rest ++ x) ≠ some '\x7d' := fun he =>
        absurd he (by decide)
      rw [hassoc, dropEmptyRules_run hselector rfl fun _ => hinside.firstSign_ne hempty _, hin,
        dropEmptyRules_run hblanks' rfl hend, hre]
      simp only [List.append_assoc, List.cons_append]

/-- some rule of a hollow row is empty -/
theorem Hollow.reads (hm : Hollow m) (hne : m ≠ []) :
    ∃ s t, m = s ++ t ∧ ∀ x, emptyRule? (t ++ x) ≠ none := by
  induction hm with
  | nil => exact absurd rfl hne
  | @rule selector inside blanks rest hselne hselector _ hblanks _ ihinside _ =>
    by_cases hempty : inside = []
    · refine ⟨[], selector ++ '\x7b' :: (inside ++ (blanks ++ '\x7d' :: rest)), rfl, fun x => ?_⟩
      have hassoc : (selector ++ '\x7b' :: ([] ++ (blanks ++ '\x7d' :: rest))) ++ x =
          selector ++ '\x7b' :: (blanks ++ '\x7d' :: (rest ++ x)) := by simp
      rw [hempty, hassoc, emptyRule?_rule hselne hselector hblanks]
      exact nofun
    · obtain ⟨s, t, rfl, hread⟩ := ihinside hempty
      refine ⟨selector ++ '\x7b' :: s, t ++ (blanks ++ '\x7d' :: rest), by simp, fun x => ?_⟩
      rw [List.append_assoc]
      exact hread _

end SiteBundle
