import SiteBundle.Failure

/-!
# What comes of a computation that may fail

`Results r Q E` says that `Q` holds of what `r` gives, or `E` of its failure.
-/

namespace SiteBundle

variable {α β : Type} {Q Q' : α → Prop} {E E' : Failure → Prop}

def Results (r : Except Failure α) (Q : α → Prop) (E : Failure → Prop) : Prop :=
  match r with
  | .ok a => Q a
  | .error f => E f

@[simp] theorem results_ok {a : α} : Results (.ok a) Q E ↔ Q a := Iff.rfl

@[simp] theorem results_bind {r : Except Failure β} {k : β → Except Failure α} :
    Results (r >>= k) Q E ↔ Results r (fun b => Results (k b) Q E) E := by
  cases r <;> exact Iff.rfl

@[simp] theorem results_map {r : Except Failure β} {g : β → α} :
    Results (r.map g) Q E ↔ Results r (fun b => Q (g b)) E := by
  cases r <;> exact Iff.rfl

@[simp] theorem results_during {r : Except Failure α} {activity : String} :
    Results (during activity r) Q E ↔ Results r Q fun f => E (f.within activity) := by
  cases r <;> exact Iff.rfl

/-- what evaluation says about the result -/
theorem eq_ok_of_toOption {ε : Type} {r : Except ε α} {a : α} (h : r.toOption = some a) :
    r = .ok a := by
  cases r with
  | ok b => exact congrArg Except.ok (Option.some.inj h)
  | error f => exact nomatch h

theorem Results.mono {r : Except Failure α} (h : Results r Q E) (hQ : ∀ a, Q a → Q' a)
    (hE : ∀ f, E f → E' f) : Results r Q' E' := by
  cases r with
  | ok a => exact hQ a h
  | error f => exact hE f h

theorem results_mapM {f : α → Except Failure β} {g : α → β} {P : α → Prop} {l : List α}
    (h : ∀ a ∈ l, Results (f a) (fun b => b = g a ∧ P a) E) :
    Results (l.mapM f) (fun bs => bs = l.map g ∧ ∀ a ∈ l, P a) E := by
  induction l with
  | nil => exact ⟨rfl, nofun⟩
  | cons a l ih =>
    rw [List.mapM_cons, results_bind]
    refine (h a List.mem_cons_self).mono (fun b ⟨hb, ha⟩ => ?_) fun _ he => he
    rw [results_bind]
    refine (ih fun c hc => h c (List.mem_cons_of_mem a hc)).mono (fun bs ⟨hbs, hl⟩ => ?_)
      fun _ he => he
    exact ⟨by rw [hb, hbs, List.map_cons], List.forall_mem_cons.mpr ⟨ha, hl⟩⟩

theorem results_foldlM {f : β → α → Except Failure β} {I : β → Prop} {l : List α} {b : β} (hb : I b)
    (h : ∀ a ∈ l, ∀ b, I b → Results (f b a) I E) : Results (l.foldlM f b) I E := by
  induction l generalizing b with
  | nil => exact hb
  | cons a l ih =>
    rw [List.foldlM_cons, results_bind]
    exact (h a List.mem_cons_self b hb).mono
      (fun c hc => ih hc fun x hx => h x (List.mem_cons_of_mem a hx)) fun _ he => he

end SiteBundle
