import SiteBundle.Proofs.Text.Replacing

/-!
# Replacing by less

A pattern whose findings are all replaced by shorter texts.  Where it reads nowhere the text stays as it
is, and otherwise the text becomes shorter:

* `ReadsNowhere p t`   no place of `t` is one where `p` reads;
* `Shrinks p`          every finding of `p` is replaced by a shorter text;
* `replace_induction`  induction along a replacement, text and result together;
* `replace_eq_self_iff`   the text stays as it is exactly if the pattern reads nowhere.
-/

namespace SiteBundle

open Text

/-- the pattern reads at no place of the text -/
def ReadsNowhere {α : Type} (p : Text → Option (α × Text)) (t : Text) : Prop :=
  ∀ a b, t = a ++ b → p b = none

/-- every finding is replaced by a shorter text -/
def Shrinks (p : Text → Option (Text × Text)) : Prop :=
  ∀ t new rest, p t = some (new, rest) → ∃ m, t = m ++ rest ∧ new.length < m.length

section
variable {α : Type} {p : Text → Option (α × Text)} {c : Char} {t u : Text}

theorem readsNowhere_cons : ReadsNowhere p (c :: t) ↔ p (c :: t) = none ∧ ReadsNowhere p t := by
  constructor
  · intro h
    exact ⟨h [] (c :: t) rfl, fun a b e => h (c :: a) b (congrArg (c :: ·) e)⟩
  · rintro ⟨hc, ht⟩ a b e
    cases a with
    | nil =>
      rw [List.nil_append] at e
      rw [← e]
      exact hc
    | cons d a => exact ht a b (List.cons.inj e).2

theorem ReadsNowhere.behind (h : ReadsNowhere p (t ++ u)) : ReadsNowhere p u := fun a b e =>
  h (t ++ a) b (by rw [e, List.append_assoc])

end

section
variable {p : Text → Option (Text × Text)} {t : Text}

theorem Shrinks.nil (hp : Shrinks p) : p [] = none := by
  cases h : p [] with
  | none => rfl
  | some r =>
    obtain ⟨m, hm, hlt⟩ := hp [] r.1 r.2 h
    obtain ⟨rfl, -⟩ := List.append_eq_nil_iff.mp hm.symm
    exact absurd hlt (Nat.not_lt_zero _)

variable (hp : Shrinks p)
include hp

theorem readsNowhere_nil : ReadsNowhere p [] := by
  intro a b e
  obtain ⟨-, rfl⟩ := List.append_eq_nil_iff.mp e.symm
  exact hp.nil

omit hp in
theorem replace_nil : replace (fun _ => p) [] = [] := rfl

/-- induction along a replacement -/
theorem replace_induction {motive : Text → Text → Prop} (nil : motive [] [])
    (none : ∀ c t, p (c :: t) = none → motive t (replace (fun _ => p) t) →
      motive (c :: t) (c :: replace (fun _ => p) t))
    (found : ∀ m new t, p (m ++ t) = some (new, t) → new.length < m.length →
      motive t (replace (fun _ => p) t) → motive (m ++ t) (new ++ replace (fun _ => p) t))
    (t : Text) : motive t (replace (fun _ => p) t) := by
  induction hn : t.length using Nat.strongRecOn generalizing t with
  | _ n ih =>
    cases t with
    | nil => exact nil
    | cons c t =>
      cases h : p (c :: t) with
      | none =>
        rw [replace_cons h]
        exact none c t h (ih t.length (by rw [← hn]; exact Nat.lt_succ_self _) t rfl)
      | some r =>
        obtain ⟨new, rest⟩ := r
        obtain ⟨m, hm, hlt⟩ := hp _ _ _ h
        rw [hm] at h ⊢
        have hpos : 0 < m.length := Nat.zero_lt_of_lt hlt
        rw [replace_found (List.ne_nil_of_length_pos hpos) h]
        refine found m new rest h hlt (ih rest.length ?_ rest rfl)
        rw [← hn, hm, List.length_append]
        omega

theorem replace_shorter (t : Text) : (replace (fun _ => p) t).length ≤ t.length ∧
    ((replace (fun _ => p) t).length = t.length → ReadsNowhere p t) := by
  refine replace_induction hp (motive := fun t u => u.length ≤ t.length ∧
    (u.length = t.length → ReadsNowhere p t)) ?_ ?_ ?_ t
  · exact ⟨Nat.le_refl _, fun _ => readsNowhere_nil hp⟩
  · intro c t hc ih
    refine ⟨Nat.succ_le_succ ih.1, fun hlength => ?_⟩
    exact readsNowhere_cons.mpr ⟨hc, ih.2 (Nat.succ.inj hlength)⟩
  · intro m new t _ hlt ih
    rw [List.length_append, List.length_append]
    exact ⟨by omega, fun hlength => by omega⟩

theorem length_replace_le (t : Text) : (replace (fun _ => p) t).length ≤ t.length :=
  (replace_shorter hp t).1

omit hp in
theorem replace_eq_self (h : ReadsNowhere p t) : replace (fun _ => p) t = t := by
  induction t with
  | nil => rfl
  | cons c t ih =>
    obtain ⟨hc, ht⟩ := readsNowhere_cons.mp h
    rw [replace_cons hc, ih ht]

/-- **What stays as it is has nothing to replace.** -/
theorem replace_eq_self_iff : replace (fun _ => p) t = t ↔ ReadsNowhere p t :=
  ⟨fun h => (replace_shorter hp t).2 (congrArg List.length h), replace_eq_self⟩

theorem length_replace_lt (h : ¬ ReadsNowhere p t) :
    (replace (fun _ => p) t).length < t.length := by
  obtain ⟨hle, heq⟩ := replace_shorter hp t
  exact Nat.lt_of_le_of_ne hle fun hlength => h (heq hlength)

end
end SiteBundle
