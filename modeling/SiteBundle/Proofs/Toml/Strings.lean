import SiteBundle.Toml.Read

/-!
# Strings, written and read

Whatever form a string is written in, it is read as the string it was written from, with the text that
follows; only a quote must not follow (`Unquoted`).  Each form has its own reader, and each reader is
told by what it does with one character as it is written:

* `escape_read`           an escape is read as the character it stands for;
* `basicInside_cases`     a character inside a basic string stands as it is, or as an escape;
* `Run`                   a text by the quotes it begins with, which are two at most inside a string
                          that may run over several lines;
* `string?_stringText`    the whole.
-/

namespace SiteBundle.Toml

open Text

/-- no quote comes next -/
def Unquoted (rest : Text) : Prop := rest.head? ≠ some '"' ∧ rest.head? ≠ some '\''

theorem unquoted_cons {c : Char} (hdouble : c ≠ '"') (hsingle : c ≠ '\'') (r : Text) :
    Unquoted (c :: r) :=
  ⟨fun h => hdouble (Option.some.inj h), fun h => hsingle (Option.some.inj h)⟩

/-! ## escapes -/

theorem isAllowed_of_not_needsCode {c : Char} (h : needsCode c = false) (hc : c ≠ '\n') :
    isAllowed c = true := by
  simp only [needsCode, Bool.or_eq_false_iff, Bool.and_eq_false_iff, decide_eq_false_iff_not,
    bne_eq_false_iff_eq, beq_eq_false_iff_ne] at h
  simp only [isAllowed, Bool.or_eq_true, Bool.and_eq_true, beq_iff_eq, decide_eq_true_eq,
    bne_iff_ne]
  obtain ⟨(h1 | h1) | h1, h2⟩ := h
  · exact .inr ⟨by omega, h2⟩
  · exact .inl h1
  · exact absurd h1 hc

theorem hexValue?_hexDigit : ∀ n < 16, hexValue? (hexDigit n) = some n := by decide

/-- a control character is read back from its code -/
theorem escaped?_code {c : Char} (h : c.toNat < 256) (r : Text) :
    escaped? ('u' :: '0' :: '0' :: hexDigit (c.toNat / 16) :: hexDigit (c.toNat % 16) :: r) =
      some (c, r) := by
  have hhigh := hexValue?_hexDigit (c.toNat / 16) (by omega)
  have hlow := hexValue?_hexDigit (c.toNat % 16) (by omega)
  have hzero : hexValue? '0' = some 0 := rfl
  have hcode : 16 * (16 * (16 * (16 * 0 + 0) + 0) + c.toNat / 16) + c.toNat % 16 = c.toNat := by
    omega
  show codeChar? 4 ('0' :: '0' :: hexDigit (c.toNat / 16) :: hexDigit (c.toNat % 16) :: r) = _
  unfold codeChar?
  simp only [List.take_succ_cons, List.take_zero, List.length_cons, List.length_nil, Nat.lt_irrefl,
    if_false, List.mapM_cons, List.mapM_nil, hzero, hhigh, hlow, List.drop_succ_cons, List.drop_zero,
    List.foldl_cons, List.foldl_nil, hcode, Option.pure_def, Option.bind_eq_bind, Option.bind_some]
  have hvalid : c.toNat.isValidChar := c.valid
  rw [if_pos hvalid, Char.ofNat_toNat]

/-- the characters that a basic string holds as escapes -/
def IsEscaped (c : Char) : Prop := c = '"' ∨ c = '\t' ∨ c = '\\' ∨ c = '\n' ∨ needsCode c = true

/-- an escape is a backslash and what is read as the character; no line is folded there -/
theorem escape_read {c : Char} (h : IsEscaped c) : ∃ e, escape c = '\\' :: e ∧
    (∀ r, escaped? (e ++ r) = some (c, r)) ∧ ∀ r, skipFold? (e ++ r) = none := by
  unfold escape
  -- the seven short escapes
  iterate 7
    split
    · subst_vars
      exact ⟨_, rfl, fun _ => rfl, fun _ => rfl⟩
  · next hb ht hn hf hr hquote hslash =>
    have hcode : needsCode c = true := by
      rcases h with h | h | h | h | h
      · exact absurd h hquote
      · exact absurd h ht
      · exact absurd h hslash
      · exact absurd h hn
      · exact h
    have hlt : c.toNat < 256 := by
      simp only [needsCode, Bool.or_eq_true, Bool.and_eq_true, decide_eq_true_eq, beq_iff_eq] at hcode
      omega
    exact ⟨_, rfl, escaped?_code hlt, fun _ => rfl⟩

/-- inside a basic string a character stands as it is, or as an escape; a quote may only stand as it is
behind fewer than two others -/
theorem basicInside_cases (multiline : Bool) (quotes : Nat) (c : Char) (t : Text) :
    (IsEscaped c ∧
      basicInside multiline quotes (c :: t) = escape c ++ basicInside multiline 0 t) ∨
    (c ≠ '\\' ∧ c ≠ '\r' ∧ (c = '\n' ∧ multiline = true ∨ isAllowed c = true) ∧
      ∃ quotes', basicInside multiline quotes (c :: t) = c :: basicInside multiline quotes' t ∧
        (c = '"' ∧ multiline = true ∧ quotes < 2 ∧ quotes' = quotes + 1 ∨ c ≠ '"' ∧ quotes' = 0)) := by
  rw [basicInside]
  split
  · next hc =>
    split
    · next hraw =>
      rw [Bool.and_eq_true, decide_eq_true_iff] at hraw
      refine .inr ⟨?_, ?_, .inr ?_, quotes + 1, rfl, .inl ⟨hc, hraw.1, hraw.2, rfl⟩⟩
      · rw [hc]
        decide
      · rw [hc]
        decide
      · rw [hc]
        rfl
    · exact .inl ⟨.inl hc, rfl⟩
  · next hquote =>
    split
    · next hc =>
      refine .inl ⟨.inr ?_, rfl⟩
      rcases hc with hc | hc | hc
      · exact .inl hc
      · exact .inr (.inl hc)
      · exact .inr (.inr (.inr hc))
    · next hplain =>
      obtain ⟨-, hslash, hcode⟩ := not_or.mp (fun h => hplain h) |>.imp_right not_or.mp
      split
      · next hc => exact .inl ⟨.inr (.inr (.inr (.inl hc.1))), rfl⟩
      · next hc =>
        rw [Bool.not_eq_true] at hcode
        refine .inr ⟨hslash, ?_, ?_, 0, rfl, .inr ⟨hquote, rfl⟩⟩
        · rintro rfl
          exact absurd hcode (by decide)
        · by_cases hline : c = '\n'
          · exact .inl ⟨hline, by simpa [hline] using hc⟩
          · exact .inr (isAllowed_of_not_needsCode hcode hline)

/-! ## strings on one line -/

/-- **A basic string is read back.** -/
theorem basicRest?_inside (t rest : Text) {fuel : Nat} (h : t.length < fuel) :
    basicRest? fuel (basicInside false 0 t ++ '"' :: rest) = some (t, rest) := by
  induction t generalizing fuel with
  | nil =>
    obtain ⟨n, rfl⟩ := Nat.exists_eq_succ_of_ne_zero (Nat.ne_of_gt h)
    rfl
  | cons c t ih =>
    obtain ⟨n, rfl⟩ := Nat.exists_eq_add_of_le' (Nat.lt_of_le_of_lt (Nat.zero_le _) h)
    have hrest := ih (Nat.lt_of_succ_lt_succ h)
    rcases basicInside_cases false 0 c t with ⟨hc, heq⟩ | ⟨hslash, -, hallowed, quotes, heq, hquote⟩
    · obtain ⟨e, he, hread, -⟩ := escape_read hc
      rw [heq, he, List.append_assoc, List.cons_append, basicRest?, if_neg (by decide), if_pos rfl,
        hread]
      show (basicRest? n _).bind _ = _
      rw [hrest]
      rfl
    · obtain ⟨hne, rfl⟩ := hquote.resolve_left fun hq => nomatch hq.2.1
      have hok := hallowed.resolve_left fun hline => nomatch hline.2
      rw [heq, List.cons_append, basicRest?, if_neg hne, if_neg hslash, if_pos hok, hrest]
      rfl

theorem literalRest?_inside {t : Text} (rest : Text) (h : ∀ c ∈ t, c ≠ '\'' ∧ isAllowed c = true) :
    literalRest? (t ++ '\'' :: rest) = some (t, rest) := by
  induction t with
  | nil => rfl
  | cons c t ih =>
    obtain ⟨⟨hquote, hallowed⟩, ht⟩ := List.forall_mem_cons.mp h
    rw [List.cons_append, literalRest?, if_neg hquote, if_pos hallowed, ih ht]
    rfl

/-! ## strings over several lines -/

/-- a text that begins with `n` quotes: it is nothing else, or goes on with another character -/
inductive Run (quote : Char) : Nat → Text → Prop where
  | all (n : Nat) : Run quote n (List.replicate n quote)
  | more (n : Nat) {c : Char} (hc : c ≠ quote) (t : Text) :
    Run quote n (List.replicate n quote ++ c :: t)

theorem Run.cons {quote : Char} {n : Nat} {t : Text} (h : Run quote n t) :
    Run quote (n + 1) (quote :: t) := by
  cases h with
  | all => exact .all (n + 1)
  | more hc t => exact .more (n + 1) hc t

/-- the closing quotes are found, with the quotes of the string before them -/
theorem longEnd?_all {quote : Char} {n : Nat} (hn : n ≤ 2) {rest : Text}
    (hrest : rest.head? ≠ some quote) :
    longEnd? quote (List.replicate n quote ++ (triple quote ++ rest)) =
      some (List.replicate n quote, rest) := by
  rcases rest with - | ⟨c, r⟩
  · match n, hn with
    | 0, _ => simp [triple, longEnd?]
    | 1, _ => simp [triple, longEnd?]
    | 2, _ => simp [triple, longEnd?, List.replicate]
  · have hc : c ≠ quote := fun h => hrest (h ▸ rfl)
    match n, hn with
    | 0, _ => rcases r with - | ⟨d, r⟩ <;> simp [triple, longEnd?, hc]
    | 1, _ => simp [triple, longEnd?, hc]
    | 2, _ => simp [triple, longEnd?, List.replicate]

/-- up to two quotes are no end, unless nothing else is left -/
theorem Run.longEnd? {quote : Char} {n : Nat} {t : Text} (h : Run quote n t) (hn : n ≤ 2)
    (rest : Text) :
    t = List.replicate n quote ∨ longEnd? quote (t ++ rest) = none := by
  cases h with
  | all => exact .inl rfl
  | more hc t =>
    refine .inr ?_
    rw [List.append_assoc, List.cons_append]
    generalize t ++ rest = t
    match n, hn with
    | 0, _ => rcases t with - | ⟨d, - | ⟨e, r⟩⟩ <;> simp [Toml.longEnd?, hc]
    | 1, _ => rcases t with - | ⟨d, r⟩ <;> simp [Toml.longEnd?, hc]
    | 2, _ => simp [Toml.longEnd?, List.replicate, hc]

/-- inside a basic string over several lines no more than two quotes stand together; where nothing else
is left, they are the rest of the string -/
theorem run_basicInside (t : Text) {quotes : Nat} (hquotes : quotes ≤ 2) :
    ∃ n, quotes + n ≤ 2 ∧ Run '"' n (basicInside true quotes t) ∧
      (basicInside true quotes t = List.replicate n '"' → t = List.replicate n '"') := by
  induction t generalizing quotes with
  | nil => exact ⟨0, hquotes, .all 0, fun _ => rfl⟩
  | cons c t ih =>
    rcases basicInside_cases true quotes c t with ⟨hc, heq⟩ | ⟨-, -, -, quotes', heq, hquote⟩
    · obtain ⟨e, he, -⟩ := escape_read hc
      rw [heq, he]
      exact ⟨0, hquotes, .more 0 (by decide) _, nofun⟩
    · rw [heq]
      rcases hquote with ⟨rfl, -, hlt, rfl⟩ | ⟨hne, rfl⟩
      · obtain ⟨n, hn, hrun, hall⟩ := ih (Nat.succ_le_of_lt hlt)
        refine ⟨n + 1, by omega, hrun.cons, fun h => ?_⟩
        rw [List.replicate_succ] at h ⊢
        rw [hall (List.cons.inj h).2]
      · exact ⟨0, hquotes, .more 0 hne _, nofun⟩

section
variable {n : Nat} {c : Char} {r : Text}

theorem longBasicRest?_end {found : Text × Text} (h : longEnd? '"' (c :: r) = some found) :
    longBasicRest? (n + 1) (c :: r) = some found := by
  unfold longBasicRest?
  simp only [h]

theorem longBasicRest?_plain (h : longEnd? '"' (c :: r) = none) (hslash : c ≠ '\\') (hcr : c ≠ '\r')
    (hallowed : c = '\n' ∨ isAllowed c = true) :
    longBasicRest? (n + 1) (c :: r) = (longBasicRest? n r).map fun p => (c :: p.1, p.2) := by
  conv => lhs; unfold longBasicRest?
  simp only [h, hslash, hcr, hallowed, if_false, if_true]

theorem longBasicRest?_escape {d : Char} {e : Text} (h : longEnd? '"' ('\\' :: r) = none)
    (hfold : skipFold? r = none) (hread : escaped? r = some (d, e)) :
    longBasicRest? (n + 1) ('\\' :: r) = (longBasicRest? n e).map fun p => (d :: p.1, p.2) := by
  conv => lhs; unfold longBasicRest?
  simp only [h, hfold, hread, if_true]
  show (longBasicRest? n e).bind _ = _
  cases longBasicRest? n e <;> rfl

end

/-- **A basic string over several lines is read back.** -/
theorem longBasicRest?_inside (t : Text) {rest : Text} (hrest : rest.head? ≠ some '"')
    {quotes fuel : Nat} (hquotes : quotes ≤ 2) (h : t.length < fuel) :
    longBasicRest? fuel (basicInside true quotes t ++ (triple '"' ++ rest)) = some (t, rest) := by
  induction t generalizing quotes fuel with
  | nil =>
    obtain ⟨n, rfl⟩ := Nat.exists_eq_succ_of_ne_zero (Nat.ne_of_gt h)
    exact longBasicRest?_end (longEnd?_all (Nat.zero_le 2) hrest)
  | cons c t ih =>
    obtain ⟨n, rfl⟩ := Nat.exists_eq_add_of_le' (Nat.lt_of_le_of_lt (Nat.zero_le _) h)
    have hlt : t.length < n := Nat.lt_of_succ_lt_succ h
    obtain ⟨k, hk, hrun, hall⟩ := run_basicInside (c :: t) hquotes
    -- the end is found where only quotes are left, and nowhere else
    rcases hrun.longEnd? (by omega) (triple '"' ++ rest) with hquoted | hend
    · rw [hquoted, hall hquoted]
      obtain ⟨r, hr⟩ : ∃ r, List.replicate k '"' ++ (triple '"' ++ rest) = '"' :: r := by
        cases k with
        | zero => exact ⟨_, rfl⟩
        | succ k => exact ⟨_, rfl⟩
      rw [hr]
      exact longBasicRest?_end (hr ▸ longEnd?_all (by omega) hrest)
    · rcases basicInside_cases true quotes c t with
        ⟨hc, heq⟩ | ⟨hslash, hcr, hallowed, quotes', heq, hquote⟩
      · obtain ⟨e, he, hread, hfold⟩ := escape_read hc
        rw [heq, he, List.cons_append, List.cons_append, List.append_assoc] at hend ⊢
        rw [longBasicRest?_escape hend (hfold _) (hread _), ih (Nat.zero_le 2) hlt]
        rfl
      · rw [heq, List.cons_append] at hend ⊢
        rw [longBasicRest?_plain hend hslash hcr (hallowed.imp_left And.left), ih ?_ hlt]
        · rfl
        · omega

/-! ## literal strings over several lines -/

theorem le_go_longestRun (c : Char) (t : Text) (run best : Nat) :
    run ≤ longestRun.go c run best t ∧ best ≤ longestRun.go c run best t := by
  induction t generalizing run best with
  | nil => exact ⟨Nat.le_max_left _ _, Nat.le_max_right _ _⟩
  | cons d t ih =>
    rw [longestRun.go]
    split
    · exact ⟨Nat.le_of_succ_le (ih (run + 1) best).1, (ih (run + 1) best).2⟩
    · have h := (ih 0 (max run best)).2
      exact ⟨Nat.le_trans (Nat.le_max_left _ _) h, Nat.le_trans (Nat.le_max_right _ _) h⟩

theorem not_mem_of_longestRun {c : Char} {t : Text} (h : longestRun c t = 0) : c ∉ t := by
  have hgo : ∀ {run best}, longestRun.go c run best t = 0 → c ∉ t := by
    clear h
    induction t with
    | nil => exact fun _ => List.not_mem_nil
    | cons d t ih =>
      intro run best h
      rw [longestRun.go] at h
      split at h
      · have hle := (le_go_longestRun c t (run + 1) best).1
        omega
      · next hd => exact fun hmem => (List.mem_cons.mp hmem).elim (fun hc => hd hc.symm) (ih h)
  exact hgo h

/-- no more than two quotes stand together, behind those that come before -/
theorem run_of_longestRun {quote : Char} {t : Text} {run best : Nat}
    (h : longestRun.go quote run best t ≤ 2) : ∃ n, run + n ≤ 2 ∧ Run quote n t := by
  induction t generalizing run best with
  | nil => exact ⟨0, Nat.le_trans (le_go_longestRun quote [] run best).1 h, .all 0⟩
  | cons d t ih =>
    have hrun := Nat.le_trans (le_go_longestRun quote (d :: t) run best).1 h
    rw [longestRun.go] at h
    split at h
    · next hd =>
      obtain ⟨n, hn, ht⟩ := ih h
      exact ⟨n + 1, by omega, hd ▸ ht.cons⟩
    · next hd => exact ⟨0, hrun, .more 0 hd t⟩

section
variable {n : Nat} {c : Char} {r : Text}

theorem longLiteralRest?_end {found : Text × Text} (h : longEnd? '\'' (c :: r) = some found) :
    longLiteralRest? (n + 1) (c :: r) = some found := by
  unfold longLiteralRest?
  simp only [h]

theorem longLiteralRest?_plain (h : longEnd? '\'' (c :: r) = none) (hcr : c ≠ '\r')
    (hallowed : c = '\n' ∨ isAllowed c = true) :
    longLiteralRest? (n + 1) (c :: r) = (longLiteralRest? n r).map fun p => (c :: p.1, p.2) := by
  conv => lhs; unfold longLiteralRest?
  simp only [h, hcr, hallowed, if_false, if_true]

end

/-- **A literal string over several lines is read back.** -/
theorem longLiteralRest?_inside {t rest : Text} (hrest : rest.head? ≠ some '\'')
    (hcodes : ∀ c ∈ t, needsCode c = false) {run best fuel : Nat}
    (hquotes : longestRun.go '\'' run best t ≤ 2) (h : t.length < fuel) :
    longLiteralRest? fuel (t ++ (triple '\'' ++ rest)) = some (t, rest) := by
  induction t generalizing run best fuel with
  | nil =>
    obtain ⟨n, rfl⟩ := Nat.exists_eq_succ_of_ne_zero (Nat.ne_of_gt h)
    exact longLiteralRest?_end (longEnd?_all (Nat.zero_le 2) hrest)
  | cons c t ih =>
    obtain ⟨n, rfl⟩ := Nat.exists_eq_add_of_le' (Nat.lt_of_le_of_lt (Nat.zero_le _) h)
    obtain ⟨hcode, hcodes⟩ := List.forall_mem_cons.mp hcodes
    obtain ⟨k, hk, hrun⟩ := run_of_longestRun hquotes
    rcases hrun.longEnd? (by omega) (triple '\'' ++ rest) with hquoted | hend
    · have hfound := longEnd?_all (show k ≤ 2 by omega) hrest
      rw [← hquoted] at hfound
      exact longLiteralRest?_end hfound
    · have hcr : c ≠ '\r' := by
        rintro rfl
        exact absurd hcode (by decide)
      have hallowed : c = '\n' ∨ isAllowed c = true :=
        (Decidable.em (c = '\n')).imp_right fun hc => isAllowed_of_not_needsCode hcode hc
      have htail : ∃ run best, longestRun.go '\'' run best t ≤ 2 := by
        rw [longestRun.go] at hquotes
        split at hquotes
        · exact ⟨_, _, hquotes⟩
        · exact ⟨_, _, hquotes⟩
      obtain ⟨run', best', htail⟩ := htail
      rw [List.cons_append] at hend ⊢
      rw [longLiteralRest?_plain hend hcr hallowed, ih hcodes htail (Nat.lt_of_succ_lt_succ h)]
      rfl

/-! ## the forms of a string -/

section
variable {t r rest : Text}

theorem string?_basic (h : ∀ u, r ≠ '"' :: '"' :: u) :
    string? ('"' :: r) = basicRest? (r.length + 2) r := by
  unfold string?
  split
  · next u heq => exact absurd (List.cons.inj heq).2 (h u)
  · next u _ heq =>
    rw [(List.cons.inj heq).2]
    rfl
  · next heq => exact nomatch heq
  · next heq => exact nomatch heq
  · next hno _ _ => exact absurd rfl (hno r)

theorem string?_literal (h : ∀ u, r ≠ '\'' :: '\'' :: u) : string? ('\'' :: r) = literalRest? r := by
  unfold string?
  split
  · next heq => exact nomatch heq
  · next heq => exact nomatch heq
  · next u heq => exact absurd (List.cons.inj heq).2 (h u)
  · next u _ heq => rw [(List.cons.inj heq).2]
  · next hno => exact absurd rfl (hno r)

theorem length_le_basicInside (multiline : Bool) (quotes : Nat) (t : Text) :
    t.length ≤ (basicInside multiline quotes t).length := by
  induction t generalizing quotes with
  | nil => exact Nat.zero_le _
  | cons c t ih =>
    rcases basicInside_cases multiline quotes c t with ⟨hc, heq⟩ | ⟨-, -, -, quotes', heq, -⟩
    · obtain ⟨e, he, -⟩ := escape_read hc
      have := ih 0
      rw [heq, he, List.cons_append, List.length_cons, List.length_cons, List.length_append]
      omega
    · have := ih quotes'
      rw [heq, List.length_cons, List.length_cons]
      omega

theorem string?_basicString (t : Text) (h : rest.head? ≠ some '"') :
    string? (basicString t ++ rest) = some (t, rest) := by
  show string? ('"' :: ((basicInside false 0 t ++ ['"']) ++ rest)) = _
  rw [List.append_assoc, List.singleton_append, string?_basic]
  · refine basicRest?_inside t rest ?_
    have := length_le_basicInside false 0 t
    rw [List.length_append]
    omega
  · -- a quote behind the first one closes the string
    intro u heq
    cases t with
    | nil => exact h (by rw [(List.cons.inj heq).2]; rfl)
    | cons c t =>
      rcases basicInside_cases false 0 c t with ⟨hc, hinside⟩ | ⟨-, -, -, quotes, hinside, hquote⟩
      · obtain ⟨e, he, -⟩ := escape_read hc
        rw [hinside, he] at heq
        exact absurd (List.cons.inj heq).1 (by decide)
      · rw [hinside] at heq
        exact (hquote.resolve_left fun hq => nomatch hq.2.1).1 (List.cons.inj heq).1

theorem string?_literalString (hne : t ≠ []) (h : ∀ c ∈ t, c ≠ '\'' ∧ isAllowed c = true) :
    string? (literalString t ++ rest) = some (t, rest) := by
  show string? ('\'' :: ((t ++ ['\'']) ++ rest)) = _
  rw [List.append_assoc, List.singleton_append, string?_literal]
  · exact literalRest?_inside rest h
  · intro u heq
    cases t with
    | nil => exact hne rfl
    | cons c t => exact (h c List.mem_cons_self).1 (List.cons.inj heq).1

theorem skipLineEnd?_eq_none {c : Char} (hlf : c ≠ '\n') (hcr : c ≠ '\r') (r : Text) :
    skipLineEnd? (c :: r) = none := by
  unfold skipLineEnd?
  split
  · next heq => exact absurd (List.cons.inj heq).1 hlf
  · next heq => exact absurd (List.cons.inj heq).1 hcr
  · rfl

/-- the line end behind the opening quotes is passed over, and no other -/
theorem skipFirstLineEnd_opened {c : Char} {r inside : Text} (hinside : inside = c :: r)
    (hcr : c ≠ '\r') (hlf : c = '\n' → '\n' ∈ t) :
    skipFirstLineEnd ((if t.contains '\n' then ['\n'] else []) ++ inside) = inside := by
  split
  · rfl
  · next hno =>
    have hline : c ≠ '\n' := fun hc => hno (by simpa using hlf hc)
    rw [List.nil_append, hinside, skipFirstLineEnd, skipLineEnd?_eq_none hline hcr]
    rfl

theorem string?_longBasicString (t : Text) (h : rest.head? ≠ some '"') :
    string? (longBasicString t ++ rest) = some (t, rest) := by
  obtain ⟨c, r, hinside, hcr, hlf⟩ : ∃ c r, basicInside true 0 t ++ (triple '"' ++ rest) = c :: r ∧
      c ≠ '\r' ∧ (c = '\n' → '\n' ∈ t) := by
    cases t with
    | nil => exact ⟨'"', _, rfl, by decide, nofun⟩
    | cons c t =>
      rcases basicInside_cases true 0 c t with ⟨hc, heq⟩ | ⟨-, hcr, -, quotes, heq, -⟩
      · obtain ⟨e, he, -⟩ := escape_read hc
        exact ⟨'\\', _, by rw [heq, he]; rfl, by decide, nofun⟩
      · exact ⟨c, _, by rw [heq]; rfl, hcr, fun hc => hc ▸ List.mem_cons_self⟩
  have hlength : t.length < (longBasicString t ++ rest).length + 1 := by
    have := length_le_basicInside true 0 t
    unfold longBasicString
    simp only [List.length_append]
    omega
  rw [← longBasicRest?_inside t h (Nat.zero_le 2) hlength, ← skipFirstLineEnd_opened hinside hcr hlf]
  unfold longBasicString
  simp only [List.append_assoc]
  rfl

theorem string?_longLiteralString (hcodes : ∀ c ∈ t, needsCode c = false)
    (hquotes : longestRun '\'' t ≤ 2) (h : rest.head? ≠ some '\'') :
    string? (longLiteralString t ++ rest) = some (t, rest) := by
  obtain ⟨c, r, hinside, hcr, hlf⟩ : ∃ c r, t ++ (triple '\'' ++ rest) = c :: r ∧
      c ≠ '\r' ∧ (c = '\n' → '\n' ∈ t) := by
    cases t with
    | nil => exact ⟨'\'', _, rfl, by decide, nofun⟩
    | cons c t =>
      refine ⟨c, _, rfl, ?_, fun hc => hc ▸ List.mem_cons_self⟩
      rintro rfl
      exact absurd (hcodes _ List.mem_cons_self) (by decide)
  have hlength : t.length < (longLiteralString t ++ rest).length + 1 := by
    unfold longLiteralString
    simp only [List.length_append]
    omega
  rw [← longLiteralRest?_inside h hcodes hquotes hlength, ← skipFirstLineEnd_opened hinside hcr hlf]
  unfold longLiteralString
  simp only [List.append_assoc]
  rfl

/-- **A string is read back from the form it was written in.** -/
theorem string?_stringText (t : Text) (h : Unquoted rest) :
    string? (stringText t ++ rest) = some (t, rest) := by
  unfold stringText
  dsimp only
  split
  · exact string?_basicString t h.1
  split
  · next hbasic hliteral =>
    simp only [Bool.and_eq_true, Bool.not_eq_true', beq_iff_eq, List.any_eq_false,
      List.contains_eq_mem, decide_eq_false_iff_not] at hliteral
    obtain ⟨⟨hcodes, hquotes⟩, hline⟩ := hliteral
    refine string?_literalString ?_ fun c hc => ⟨?_, ?_⟩
    · rintro rfl
      exact hbasic rfl
    · rintro rfl
      exact not_mem_of_longestRun hquotes hc
    · refine isAllowed_of_not_needsCode (by simpa using hcodes c hc) ?_
      rintro rfl
      exact hline hc
  split
  · exact string?_longBasicString t h.1
  split
  · next hliteral =>
    simp only [Bool.and_eq_true, Bool.not_eq_true', List.any_eq_false, decide_eq_true_eq] at hliteral
    exact string?_longLiteralString (fun c hc => by simpa using hliteral.1 c hc) hliteral.2 h.2
  split
  · exact string?_longBasicString t h.1
  · exact string?_basicString t h.1

end

end SiteBundle.Toml
