import SiteBundle.Proofs.Bundle.Work

/-!
# How work ends

`Ends w s Q E` says how the work `w` ends on the site `s`: when it succeeds, `Q` holds of what it
gives and of the site that it leaves; when it fails, `E` holds of the failure and of the site.  Work
keeps what it did before a failure, so both have a site.

* `ends_bind`, `ends_tryCatch`, `ends_lift`   work made of parts;
* `Ends.mono`, `Ends.and`                     weaker and joint conditions;
* `ends_forM`                                 loops with an invariant.
-/

namespace SiteBundle

variable {α β : Type} {s t : Site}

def Ends (w : Work α) (s : Site) (Q : α → Site → Prop) (E : Failure → Site → Prop) : Prop :=
  match w s with
  | (.ok a, t) => Q a t
  | (.error f, t) => E f t

section
variable {w : Work α} {Q Q' : α → Site → Prop} {E E' : Failure → Site → Prop}

theorem Ends.of_yields {a : α} (h : Ends w s Q E) (hw : Yields w s a t) : Q a t := by
  rw [Ends, hw] at h
  exact h

theorem Ends.of_eq_error {f : Failure} (h : Ends w s Q E) (hw : w s = (.error f, t)) : E f t := by
  rw [Ends, hw] at h
  exact h

theorem ends_of_yields {a : α} (hw : Yields w s a t) (h : Q a t) : Ends w s Q E := by
  rw [Ends, hw]
  exact h

theorem Ends.mono (h : Ends w s Q E) (hQ : ∀ a t, Q a t → Q' a t) (hE : ∀ f t, E f t → E' f t) :
    Ends w s Q' E' := by
  unfold Ends at h ⊢
  split at h
  · exact hQ _ _ h
  · exact hE _ _ h

theorem Ends.and (h : Ends w s Q E) (h' : Ends w s Q' E') :
    Ends w s (fun a t => Q a t ∧ Q' a t) fun f t => E f t ∧ E' f t := by
  unfold Ends at h h' ⊢
  split <;> simp_all only [and_self]

/-- conditions on the site that is left, however the work ends -/
theorem Ends.site {R : Site → Prop} (h : Ends w s (fun _ => R) fun _ => R) : R (w s).2 := by
  unfold Ends at h
  split at h <;> rename_i hw <;> rw [hw] <;> exact h

end

/-! ## Parts -/

section
variable {Q : α → Site → Prop} {E : Failure → Site → Prop}

@[simp] theorem ends_pure {a : α} : Ends (pure a) s Q E ↔ Q a s := Iff.rfl

@[simp] theorem ends_get {Q : Site → Site → Prop} : Ends get s Q E ↔ Q s s := Iff.rfl

@[simp] theorem ends_set {Q : PUnit → Site → Prop} : Ends (set t) s Q E ↔ Q ⟨⟩ t := Iff.rfl

@[simp] theorem ends_bind {w : Work β} {k : β → Work α} :
    Ends (w >>= k) s Q E ↔ Ends w s (fun b t => Ends (k b) t Q E) E := by
  have hrun : (w >>= k) s = match w s with
      | (r, t) => (ExceptT.bindCont k r t : Except Failure α × Site) := rfl
  unfold Ends
  rw [hrun]
  cases w s with
  | mk r t =>
    cases r with
    | ok b => exact Iff.rfl
    | error f => exact Iff.rfl

@[simp] theorem ends_map {w : Work β} {g : β → α} :
    Ends (g <$> w) s Q E ↔ Ends w s (fun b t => Q (g b) t) E := by
  rw [map_eq_pure_bind, ends_bind]
  rfl

@[simp] theorem ends_tryCatch {w : Work α} {h : Failure → Work α} :
    Ends (tryCatch w h) s Q E ↔ Ends w s Q fun f t => Ends (h f) t Q E := by
  have hrun : (tryCatch w h) s = match w s with
      | (.ok a, t) => ((.ok a, t) : Except Failure α × Site)
      | (.error f, t) => h f t := by
    show (tryCatch w h : Work α) s = _
    cases hw : w s with
    | mk r t =>
      cases r with
      | ok a =>
        show (ExceptT.tryCatch w h) s = _
        simp only [ExceptT.tryCatch, ExceptT.mk, bind, StateT.bind, hw]
        rfl
      | error f =>
        show (ExceptT.tryCatch w h) s = _
        simp only [ExceptT.tryCatch, ExceptT.mk, bind, StateT.bind, hw]
  unfold Ends
  rw [hrun]
  cases w s with
  | mk r t =>
    cases r with
    | ok a => exact Iff.rfl
    | error f => exact Iff.rfl

@[simp] theorem ends_lift {r : Except Failure α} :
    Ends (Site.lift r) s Q E ↔ match r with
      | .ok a => Q a s
      | .error f => E f s := by
  cases r <;> exact Iff.rfl

@[simp] theorem ends_inActivity {w : Work α} {activity : String} :
    Ends (Site.inActivity activity w) s Q E ↔ Ends w s Q fun f t => E (f.within activity) t := by
  rw [Site.inActivity, ends_tryCatch]
  rfl

@[simp] theorem ends_changeTree {f : Tree → Except Failure Tree} {Q : Unit → Site → Prop} :
    Ends (Site.changeTree f) s Q E ↔ match f s.tree with
      | .ok tree => Q ⟨⟩ { s with tree }
      | .error e => E e s := by
  rw [Site.changeTree, ends_bind, ends_get, ends_bind, ends_lift]
  cases f s.tree <;> exact Iff.rfl

@[simp] theorem ends_note {events : List Event} {Q : Unit → Site → Prop} :
    Ends (Site.note events) s Q E ↔ Q ⟨⟩ { s with journal := s.journal ++ events } := Iff.rfl

end

/-! ## Loops -/

section
variable {I : Site → Prop} {E : Failure → Site → Prop}

theorem ends_forM {f : α → Work PUnit} {l : List α} (h : I s)
    (hf : ∀ a ∈ l, ∀ t, I t → Ends (f a) t (fun _ => I) E) :
    Ends (l.forM f) s (fun _ => I) E := by
  induction l generalizing s with
  | nil => exact h
  | cons a l ih =>
    show Ends (f a >>= fun _ => l.forM f) s _ _
    rw [ends_bind]
    exact (hf a List.mem_cons_self s h).mono
      (fun _ t ht => ih ht fun b hb => hf b (List.mem_cons_of_mem a hb)) fun _ _ he => he

end
end SiteBundle
