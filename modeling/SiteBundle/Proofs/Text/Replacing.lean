import SiteBundle.Module.Export
import SiteBundle.Proofs.Text.Findings
import SiteBundle.Proofs.Text.Reading

/-!
# Finding and replacing, step by step

A pattern that does not look at where it stands reads the same text alike everywhere.  What it finds
in a text, and what the text becomes when every finding is replaced, is then told from the front of
the text on: a character where nothing is read stays (`foundIn_cons`, `replace_cons`), a finding is
reported or replaced and the search goes on behind it (`foundIn_found`, `replace_found`).

* `Occurs`   a word is read somewhere in a text, its letters in either case;
* `Occurs.split`   a word does not reach over a character that it does not have.
-/

namespace SiteBundle

open Text

/-! ## patterns that read alike everywhere -/

section
variable {α β : Type} {p : Text → Option (α × Text)} {c : Char} {m t : Text} {a : α}

/-- only offsets tell where pieces are -/
theorem map_piecesFrom {g : Piece α → β} (hg : ∀ o o' a, g (.found o a) = g (.found o' a))
    (s s' : Spot) (skip : Nat) (t : Text) : (piecesFrom (fun _ => p) s skip t).map g =
      (piecesFrom (fun _ => p) s' skip t).map g := by
  induction t generalizing s s' skip with
  | nil => rfl
  | cons c t ih =>
    cases skip with
    | succ skip => exact ih _ _ _
    | zero =>
      rw [piecesFrom, piecesFrom]
      cases p (c :: t) with
      | none => exact congrArg (g (.plain c) :: ·) (ih _ _ _)
      | some r =>
        dsimp only
        rw [List.map_cons, List.map_cons, hg s.offset s'.offset, ih]

def Text.Piece.found? : Piece α → Option α
  | .plain _ => none
  | .found _ a => some a

theorem foundIn_eq (t : Text) : foundIn (fun _ => p) t =
    ((piecesFrom (fun _ => p) .start 0 t).map Piece.found?).filterMap id := by
  rw [foundIn, findings, List.map_filterMap, List.filterMap_map]
  refine congrArg (List.filterMap · _) (funext fun piece => ?_)
  cases piece <;> rfl

theorem foundIn_cons (h : p (c :: t) = none) :
    foundIn (fun _ => p) (c :: t) = foundIn (fun _ => p) t := by
  have hsame := map_piecesFrom (p := p) (g := Piece.found?) (fun _ _ _ => rfl) (Spot.start.next c)
    .start 0 t
  have hrest := congrArg (List.filterMap id) hsame
  rw [foundIn_eq, foundIn_eq, piecesFrom_none h]
  exact hrest

theorem foundIn_found (hm : m ≠ []) (h : p (m ++ t) = some (a, t)) :
    foundIn (fun _ => p) (m ++ t) = a :: foundIn (fun _ => p) t := by
  rw [foundIn_eq, foundIn_eq, piecesFrom_found hm h]
  exact congrArg (fun l => a :: List.filterMap id l) (map_piecesFrom (fun _ _ _ => rfl) _ _ 0 t)

theorem foundIn_over (h : ∀ m₁ m₂, m = m₁ ++ m₂ → m₂ ≠ [] → p (m₂ ++ t) = none) :
    foundIn (fun _ => p) (m ++ t) = foundIn (fun _ => p) t := by
  induction m with
  | nil => rfl
  | cons c m ih =>
    have hc := h [] (c :: m) rfl (List.cons_ne_nil _ _)
    rw [List.cons_append] at hc ⊢
    rw [foundIn_cons hc]
    exact ih fun m₁ m₂ e => h (c :: m₁) m₂ (congrArg (c :: ·) e)

def Text.Piece.chars : Piece Text → Text
  | .plain c => [c]
  | .found _ t => t

theorem replace_eq {p : Text → Option (Text × Text)} (t : Text) : replace (fun _ => p) t =
    ((piecesFrom (fun _ => p) .start 0 t).map Piece.chars).flatten := by
  rw [replace, pieces, List.flatMap_def]
  refine congrArg List.flatten (List.map_congr_left fun piece _ => ?_)
  cases piece <;> rfl

section
variable {p : Text → Option (Text × Text)} {new : Text}

theorem replace_cons (h : p (c :: t) = none) :
    replace (fun _ => p) (c :: t) = c :: replace (fun _ => p) t := by
  rw [replace_eq, replace_eq, piecesFrom_none h]
  exact congrArg (fun l : List Text => c :: l.flatten) (map_piecesFrom (fun _ _ _ => rfl) _ _ 0 t)

theorem replace_found (hm : m ≠ []) (h : p (m ++ t) = some (new, t)) :
    replace (fun _ => p) (m ++ t) = new ++ replace (fun _ => p) t := by
  rw [replace_eq, replace_eq, piecesFrom_found hm h]
  exact congrArg (fun l : List Text => new ++ l.flatten)
    (map_piecesFrom (fun _ _ _ => rfl) _ _ 0 t)

theorem replace_over (h : ∀ m₁ m₂, m = m₁ ++ m₂ → m₂ ≠ [] → p (m₂ ++ t) = none) :
    replace (fun _ => p) (m ++ t) = m ++ replace (fun _ => p) t := by
  induction m with
  | nil => rfl
  | cons c m ih =>
    have hc := h [] (c :: m) rfl (List.cons_ne_nil _ _)
    rw [List.cons_append] at hc ⊢
    rw [replace_cons hc, ih fun m₁ m₂ e => h (c :: m₁) m₂ (congrArg (c :: ·) e)]
    rfl

end
end

/-! ## words in a text -/

/-- the word is read somewhere in the text -/
def Occurs (word t : Text) : Prop := ∃ a b, t = a ++ b ∧ (readFold? word b).isSome

section
variable {word t u : Text} {c l : Char}

theorem Occurs.append (h : Occurs word t) (a b : Text) : Occurs word (a ++ (t ++ b)) := by
  obtain ⟨a', b', rfl, hread⟩ := h
  obtain ⟨x, hx⟩ := Option.isSome_iff_exists.mp hread
  refine ⟨a ++ a', b' ++ b, by simp only [List.append_assoc], ?_⟩
  rw [readFold?_append_right hx]
  rfl

/-- a word does not reach over a character that it does not have -/
theorem Occurs.split (hc : foldChar c ∉ word) (h : Occurs word (t ++ c :: u)) :
    Occurs word t ∨ Occurs word u := by
  obtain ⟨a, b, heq, hread⟩ := h
  obtain ⟨⟨x, y⟩, hx⟩ := Option.isSome_iff_exists.mp hread
  have hcut : ∀ v, b = v ++ c :: u → (readFold? word v).isSome := by
    rintro v rfl
    obtain ⟨r', hr', -⟩ := readFold?_of_append hc hx
    rw [hr']
    rfl
  rcases List.append_eq_append_iff.mp heq with ⟨v, rfl, hv⟩ | ⟨v, rfl, hv⟩
  · cases v with
    | nil => exact .inl ⟨t, [], (List.append_nil t).symm, hcut [] hv.symm⟩
    | cons d v => exact .inr ⟨v, b, (List.cons.inj hv).2, hread⟩
  · exact .inl ⟨a, v, rfl, hcut v hv⟩

/-- a word that occurs has its letters there -/
theorem Occurs.exists_mem (h : Occurs word t) (hl : l ∈ word) : ∃ c ∈ t, foldChar c = l := by
  obtain ⟨a, b, rfl, hread⟩ := h
  suffices hb : ∃ c ∈ b, foldChar c = l by
    obtain ⟨c, hc, hfold⟩ := hb
    exact ⟨c, List.mem_append_right _ hc, hfold⟩
  clear a
  induction word generalizing b with
  | nil => cases hl
  | cons l' word ih =>
    cases b with
    | nil => cases hread
    | cons c b =>
      rw [readFold?] at hread
      split at hread
      · rename_i hc
        rcases List.mem_cons.mp hl with rfl | hl
        · exact ⟨c, List.mem_cons_self, hc⟩
        · rw [Option.isSome_map] at hread
          obtain ⟨d, hd, hfold⟩ := ih hl b hread
          exact ⟨d, List.mem_cons_of_mem _ hd, hfold⟩
      · cases hread

end
end SiteBundle
