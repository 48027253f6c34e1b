import SiteBundle.Proofs.Style.Address

/-!
# Tokens and what stands between them

A code text is read as tokens and gaps, one behind the other.  To compact it is to write the tokens
again, with what is left of the gaps between two neighbours.

* `tokens`      the tokens without the gaps;
* `runs`        each token with the gaps in front of it;
* `Joint`       two neighbours and the gaps between them;
* `joints`      all of them, in order;
* `spread sep`  the tokens written again, with `sep` between neighbours;
* `bare`        the row without the tokens at its ends that are white space themselves;
* `trim_spread`  trimming what was written takes just these away.
-/

namespace SiteBundle

open Text

variable {γ τ : Type}

/-- the tokens in order -/
def tokens (parts : List (γ ⊕ τ)) : List τ := parts.filterMap Sum.getRight?

/-- the tokens, each with the gaps in front of it; `gaps` are those already passed -/
def runs : List γ → List (γ ⊕ τ) → List (List γ × τ)
  | _, [] => []
  | gaps, .inl g :: parts => runs (gaps ++ [g]) parts
  | gaps, .inr a :: parts => (gaps, a) :: runs [] parts

/-- two tokens one behind the other -/
structure Joint (γ τ : Type) where
  front : τ
  gaps : List γ
  back : τ

/-- the neighbours in a row of tokens behind the token `last`, if there is one -/
def joints : Option τ → List (List γ × τ) → List (Joint γ τ)
  | _, [] => []
  | none, (_, a) :: row => joints (some a) row
  | some last, (gaps, a) :: row => ⟨last, gaps, a⟩ :: joints (some a) row

/-- the tokens written behind the token `last`, if there is one -/
def spread (sep : Joint γ τ → Text) (text : τ → Text) : Option τ → List (List γ × τ) → Text
  | _, [] => []
  | none, (_, a) :: row => text a ++ spread sep text (some a) row
  | some last, (gaps, a) :: row => sep ⟨last, gaps, a⟩ ++ (text a ++ spread sep text (some a) row)

section
variable {sep sep' : Joint γ τ → Text} {text : τ → Text} {last : Option τ} {gaps : List γ}
  {parts : List (γ ⊕ τ)} {row : List (List γ × τ)}

theorem tokens_eq (gaps : List γ) (parts : List (γ ⊕ τ)) :
    tokens parts = (runs gaps parts).map (·.2) := by
  induction parts generalizing gaps with
  | nil => rfl
  | cons part parts ih =>
    cases part with
    | inl g => exact ih (gaps ++ [g])
    | inr a => exact congrArg (a :: ·) (ih [])

theorem spread_some (b a : τ) (gaps : List γ) (row : List (List γ × τ)) :
    spread sep text (some b) ((gaps, a) :: row) =
      sep ⟨b, gaps, a⟩ ++ (text a ++ spread sep text (some a) row) := rfl

theorem spread_congr (h : ∀ j ∈ joints last row, sep j = sep' j) :
    spread sep text last row = spread sep' text last row := by
  induction row generalizing last with
  | nil => rfl
  | cons run row ih =>
    cases last with
    | none =>
      rw [spread, spread, ih h]
    | some b =>
      obtain ⟨hfirst, hrest⟩ := List.forall_mem_cons.mp h
      rw [spread, spread, ih hrest, hfirst]

end

/-! ## white space at the ends -/

/-- a row without the tokens of a class at its ends -/
def bare (white : τ → Bool) (row : List (List γ × τ)) : List (List γ × τ) :=
  ((row.dropWhile fun run => white run.2).reverse.dropWhile fun run => white run.2).reverse

/-- tokens of the class are white space, the others neither begin nor end with any -/
structure Trims (white : τ → Bool) (text : τ → Text) (a : τ) : Prop where
  blank : white a = true → ∀ c ∈ text a, isBlank c = true
  tight : white a = false → text a ≠ [] ∧ Tight (text a)

theorem dropWhile_of_blank {t : Text} (h : ∀ c ∈ t, isBlank c = true) (u : Text) :
    (t ++ u).dropWhile isBlank = u.dropWhile isBlank := by
  rw [List.dropWhile_append_of_pos h]

theorem trimEnd_of_blank (t : Text) {u : Text} (h : ∀ c ∈ u, isBlank c = true) :
    trimEnd (t ++ u) = trimEnd t := by
  rw [trimEnd, trimEndBy, List.reverse_append, dropWhile_of_blank fun c hc => h c (List.mem_reverse.mp hc)]
  rfl

theorem dropWhile_of_tight {t : Text} (h : Tight t) (hne : t ≠ []) (u : Text) :
    (t ++ u).dropWhile isBlank = t ++ u := by
  obtain ⟨c, t, rfl⟩ := List.exists_cons_of_ne_nil hne
  exact List.dropWhile_cons_of_neg (Bool.eq_false_iff.mp (h.1 c rfl))

theorem trimEnd_of_tight (t : Text) {u : Text} (h : Tight u) (hne : u ≠ []) :
    trimEnd (t ++ u) = t ++ u := by
  obtain ⟨u, c, rfl⟩ := (List.eq_nil_or_concat u).resolve_left hne
  rw [List.concat_eq_append] at h ⊢
  rw [← List.append_assoc]
  exact trimEndBy_concat _ (h.2 c List.getLast?_concat)

section
variable {sep : Joint γ τ → Text} {text : τ → Text} {white : τ → Bool} {last : Option τ}
  {row : List (List γ × τ)} {run : List γ × τ} {j : Joint γ τ}

theorem dropWhile_spread (hsep : ∀ j, ∀ c ∈ sep j, isBlank c = true)
    (hrow : ∀ run ∈ row, Trims white text run.2) : (spread sep text last row).dropWhile isBlank =
      spread sep text none (row.dropWhile fun run => white run.2) := by
  induction row generalizing last with
  | nil => rfl
  | cons run row ih =>
    obtain ⟨gaps, a⟩ := run
    obtain ⟨ha, hrow⟩ := List.forall_mem_cons.mp hrow
    have hlead : (spread sep text last ((gaps, a) :: row)).dropWhile isBlank =
        (text a ++ spread sep text (some a) row).dropWhile isBlank := by
      cases last with
      | none => rfl
      | some b => exact dropWhile_of_blank (hsep _) _
    rw [hlead]
    cases hblank : white a with
    | true =>
      rw [dropWhile_of_blank (ha.blank hblank), ih hrow,
        List.dropWhile_cons_of_pos (p := fun run : List γ × τ => white run.2) hblank]
    | false =>
      obtain ⟨hne, htight⟩ := ha.tight hblank
      rw [dropWhile_of_tight htight hne, List.dropWhile_cons_of_neg
        (p := fun run : List γ × τ => white run.2) (Bool.eq_false_iff.mp hblank)]
      rfl

/-- the last token stands behind what is left of the gaps before it -/
theorem exists_spread_concat (hsep : ∀ j, ∀ c ∈ sep j, isBlank c = true) (text : τ → Text)
    (last : Option τ) (row : List (List γ × τ)) (run : List γ × τ) : ∃ w, (∀ c ∈ w, isBlank c = true) ∧
      spread sep text last (row ++ [run]) = spread sep text last row ++ (w ++ text run.2) := by
  induction row generalizing last with
  | nil =>
    obtain ⟨gaps, a⟩ := run
    cases last with
    | none => exact ⟨[], fun _ hc => (nomatch hc), List.append_nil _⟩
    | some b =>
      refine ⟨sep ⟨b, gaps, a⟩, hsep _, ?_⟩
      exact congrArg (sep ⟨b, gaps, a⟩ ++ ·) (List.append_nil (text a))
  | cons first row ih =>
    obtain ⟨gaps, a⟩ := first
    obtain ⟨w, hw, heq⟩ := ih (some a)
    refine ⟨w, hw, ?_⟩
    cases last with
    | none => rw [List.cons_append, spread, spread, heq, List.append_assoc]
    | some b =>
      rw [List.cons_append, spread, spread, heq, List.append_assoc, List.append_assoc]

theorem trimEnd_spread (hsep : ∀ j, ∀ c ∈ sep j, isBlank c = true)
    (hrow : ∀ run ∈ row, Trims white text run.2) (last : Option τ) :
    trimEnd (spread sep text last row) =
      spread sep text last (row.reverse.dropWhile fun run => white run.2).reverse := by
  induction hn : row.length generalizing row with
  | zero =>
    rw [List.length_eq_zero_iff.mp hn]
    rfl
  | succ n ih =>
    obtain ⟨row, run, rfl⟩ := (List.eq_nil_or_concat row).resolve_left (by rintro rfl; exact nomatch hn)
    rw [List.concat_eq_append] at hrow hn ⊢
    obtain ⟨hfront, hlast⟩ := List.forall_mem_append.mp hrow
    have hlast := hlast run (List.mem_singleton_self run)
    obtain ⟨w, hw, heq⟩ := exists_spread_concat hsep text last row run
    rw [List.length_append] at hn
    rw [heq, List.reverse_append, List.reverse_singleton, List.singleton_append]
    cases hblank : white run.2 with
    | true =>
      have hall : ∀ c ∈ w ++ text run.2, isBlank c = true :=
        List.forall_mem_append.mpr ⟨hw, hlast.blank hblank⟩
      rw [trimEnd_of_blank _ hall, ih hfront (Nat.succ.inj hn),
        List.dropWhile_cons_of_pos (p := fun run : List γ × τ => white run.2) hblank]
    | false =>
      obtain ⟨hne, htight⟩ := hlast.tight hblank
      rw [← List.append_assoc, trimEnd_of_tight _ htight hne, List.append_assoc, ← heq,
        List.dropWhile_cons_of_neg (p := fun run : List γ × τ => white run.2)
          (Bool.eq_false_iff.mp hblank), List.reverse_cons, List.reverse_reverse]

/-- **Trimming takes away the tokens at the ends that are white space, and the gaps next to them.** -/
theorem trim_spread (hsep : ∀ j, ∀ c ∈ sep j, isBlank c = true)
    (hrow : ∀ run ∈ row, Trims white text run.2) :
    trim (spread sep text none row) = spread sep text none (bare white row) := by
  have hkept : ∀ run ∈ row.dropWhile fun run => white run.2, Trims white text run.2 :=
    fun run hrun => hrow run ((List.dropWhile_suffix _).subset hrun)
  rw [trim, trimStart, dropWhile_spread hsep hrow, trimEnd_spread hsep hkept]
  rfl

theorem mem_of_mem_bare (h : run ∈ bare white row) : run ∈ row :=
  (List.dropWhile_suffix _).subset (List.mem_reverse.mp
    ((List.dropWhile_suffix _).subset (List.mem_reverse.mp h)))

/-! ### what stays between neighbours -/

/-- what holds of any two tokens one behind the other holds of neighbours -/
theorem rel_of_mem_joints {R : τ → τ → Prop} (hchain : (last.toList ++ row.map (·.2)).IsChain R)
    (h : j ∈ joints last row) : R j.front j.back := by
  induction row generalizing last with
  | nil => cases last <;> exact nomatch h
  | cons run row ih =>
    cases last with
    | none => exact @ih (some run.2) hchain h
    | some b =>
      obtain ⟨hfirst, hrest⟩ := List.isChain_cons_cons.mp hchain
      rcases List.mem_cons.mp h with rfl | h
      · exact hfirst
      · exact @ih (some run.2) hrest h

theorem joints_subset_cons (a : τ) (h : j ∈ joints none row) : j ∈ joints (some a) row := by
  cases row with
  | nil => exact nomatch h
  | cons run row => exact List.mem_cons_of_mem _ h

theorem exists_joints_concat (last : Option τ) (row : List (List γ × τ)) (run : List γ × τ) :
    ∃ js, joints last (row ++ [run]) = joints last row ++ js ∧ ∀ j ∈ js, j.back = run.2 := by
  induction row generalizing last with
  | nil =>
    cases last with
    | none => exact ⟨[], rfl, fun _ hj => nomatch hj⟩
    | some b => exact ⟨_, rfl, fun j hj => by rw [List.mem_singleton.mp hj]⟩
  | cons first row ih =>
    obtain ⟨js, heq, hback⟩ := ih (some first.2)
    refine ⟨js, ?_, hback⟩
    cases last with
    | none => exact heq
    | some b => exact congrArg (_ :: ·) heq

theorem mem_joints_of_dropWhile (p : List γ × τ → Bool) (h : j ∈ joints none (row.dropWhile p)) :
    j ∈ joints none row := by
  induction row with
  | nil => exact h
  | cons run row ih =>
    rw [List.dropWhile_cons] at h
    split at h
    · exact joints_subset_cons run.2 (ih h)
    · exact h

theorem mem_joints_dropWhile (last : Option τ) (hfront : white j.front = false)
    (hlast : ∀ b ∈ last, white b = true) (h : j ∈ joints last row) :
    j ∈ joints none (row.dropWhile fun run => white run.2) := by
  induction row generalizing last with
  | nil => exact nomatch h
  | cons run row ih =>
    have h : j ∈ joints (some run.2) row := by
      cases last with
      | none => exact h
      | some b =>
        refine (List.mem_cons.mp h).resolve_left fun heq => ?_
        rw [heq] at hfront
        exact nomatch hfront.symm.trans (hlast b rfl)
    cases hwhite : white run.2 with
    | true =>
      rw [List.dropWhile_cons_of_pos (p := fun run : List γ × τ => white run.2) hwhite]
      refine ih (some run.2) (fun b hb => ?_) h
      rw [← Option.some.inj hb, hwhite]
    | false =>
      rw [List.dropWhile_cons_of_neg (p := fun run : List γ × τ => white run.2)
        (Bool.eq_false_iff.mp hwhite)]
      exact h

/-- leaving out tokens at the end takes away only joints in front of one of them -/
theorem mem_joints_dropLast (last : Option τ) (row : List (List γ × τ)) (p : List γ × τ → Bool) :
    (j ∈ joints last (row.reverse.dropWhile p).reverse → j ∈ joints last row) ∧
    ((∀ gaps, p (gaps, j.back) = false) → j ∈ joints last row →
      j ∈ joints last (row.reverse.dropWhile p).reverse) := by
  induction hn : row.length generalizing row with
  | zero =>
    rw [List.length_eq_zero_iff.mp hn]
    exact ⟨id, fun _ => id⟩
  | succ n ih =>
    obtain ⟨row, run, rfl⟩ := (List.eq_nil_or_concat row).resolve_left (by rintro rfl; exact nomatch hn)
    rw [List.concat_eq_append, List.length_append] at hn
    obtain ⟨hof, hto⟩ := @ih row (Nat.succ.inj hn)
    obtain ⟨js, heq, hback⟩ := exists_joints_concat last row run
    rw [List.concat_eq_append, List.reverse_append, List.reverse_singleton, List.singleton_append,
      List.dropWhile_cons]
    split
    · rename_i hrun
      rw [heq]
      refine ⟨fun h => List.mem_append_left _ (hof h), fun hno h => ?_⟩
      refine hto hno ((List.mem_append.mp h).resolve_right fun hj => ?_)
      rw [hback j hj] at hno
      exact nomatch (hno run.1).symm.trans hrun
    · rw [List.reverse_cons, List.reverse_reverse]
      exact ⟨id, fun _ => id⟩

/-- **Of the joints just those next to white space are left out.** -/
theorem mem_joints_bare : (j ∈ joints none (bare white row) → j ∈ joints none row) ∧
    (white j.front = false → white j.back = false → j ∈ joints none row →
      j ∈ joints none (bare white row)) := by
  obtain ⟨hof, hto⟩ := mem_joints_dropLast (j := j) none (row.dropWhile fun run => white run.2)
    fun run => white run.2
  exact ⟨fun h => mem_joints_of_dropWhile _ (hof h), fun hfront hback h =>
    hto (fun _ => hback) (mem_joints_dropWhile none hfront (fun _ hb => nomatch hb) h)⟩

end
end SiteBundle
