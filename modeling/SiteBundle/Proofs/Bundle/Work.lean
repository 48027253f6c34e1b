import SiteBundle.Bundle.Registry
import SiteBundle.Proofs.Module.Results

/-!
# Work that succeeds

`Yields w s a s'` says that the work `w` succeeds on the site `s`, gives `a` and leaves the site
`s'`.  Work made of parts succeeds when its parts do; the lemmas of this file take it apart.
-/

namespace SiteBundle

variable {α β : Type} {s s' : Site}

/-- the work succeeds: what it gives, and the site that it leaves -/
def Yields (w : Work α) (s : Site) (a : α) (s' : Site) : Prop := w s = (.ok a, s')

theorem yields_pure {a b : α} : Yields (pure a) s b s' ↔ a = b ∧ s = s' := by
  constructor
  · intro h
    cases h
    exact ⟨rfl, rfl⟩
  · rintro ⟨rfl, rfl⟩
    rfl

theorem yields_get {t : Site} : Yields get s t s' ↔ s = t ∧ s = s' := by
  constructor
  · intro h
    cases h
    exact ⟨rfl, rfl⟩
  · rintro ⟨rfl, rfl⟩
    rfl

theorem Yields.unique {w : Work α} {a b : α} {t : Site} (h : Yields w s a s') (h' : Yields w s b t) :
    a = b ∧ s' = t := by
  rw [Yields, h] at h'
  cases h'
  exact ⟨rfl, rfl⟩

/-- what evaluation says about the result -/
theorem yields_of_toOption {w : Work α} {a : α} (h : (w s).1.toOption = some a) :
    Yields w s a (w s).2 :=
  Prod.ext (eq_ok_of_toOption h) rfl

theorem not_yields_throw {f : Failure} {a : α} : ¬ Yields (throw f) s a s' := nofun

theorem yields_lift {r : Except Failure α} {a : α} :
    Yields (Site.lift r) s a s' ↔ r = .ok a ∧ s = s' := by
  cases r with
  | error f => exact ⟨nofun, nofun⟩
  | ok b =>
    refine yields_pure.trans ⟨fun ⟨hb, hs⟩ => ⟨congrArg _ hb, hs⟩, fun ⟨hb, hs⟩ => ?_⟩
    exact ⟨Except.ok.inj hb, hs⟩

theorem yields_bind {w : Work α} {k : α → Work β} {b : β} :
    Yields (w >>= k) s b s' ↔ ∃ a t, Yields w s a t ∧ Yields (k a) t b s' := by
  have hrun : (w >>= k) s = match w s with
      | (r, t) => (ExceptT.bindCont k r t : Except Failure β × Site) := rfl
  constructor
  · intro h
    cases hw : w s with
    | mk r t =>
      have hk : (ExceptT.bindCont k r t : Except Failure β × Site) = (.ok b, s') := by
        rw [Yields, hrun, hw] at h
        exact h
      cases r with
      | ok a => exact ⟨a, t, hw, hk⟩
      | error f => exact nomatch hk
  · rintro ⟨a, t, hw, hk⟩
    rw [Yields, hrun, show w s = _ from hw]
    exact hk

theorem yields_get_bind {k : Site → Work α} {a : α} :
    Yields (get >>= k) s a s' ↔ Yields (k s) s a s' := Iff.rfl

theorem yields_lift_bind {r : Except Failure α} {k : α → Work β} {a : α} {b : β} (h : r = .ok a) :
    Yields (Site.lift r >>= k) s b s' ↔ Yields (k a) s b s' := by
  rw [h]
  exact Iff.rfl

theorem Yields.inActivity {w : Work α} {a : α} (h : Yields w s a s') (activity : String) :
    Yields (Site.inActivity activity w) s a s' := by
  unfold Yields Site.inActivity
  show (ExceptT.tryCatch w _) s = _
  simp only [ExceptT.tryCatch, ExceptT.mk, bind, StateT.bind, show w s = _ from h]
  rfl

theorem yields_inActivity {w : Work α} {a : α} {activity : String} :
    Yields (Site.inActivity activity w) s a s' ↔ Yields w s a s' := by
  refine ⟨fun h => ?_, fun h => h.inActivity activity⟩
  unfold Yields Site.inActivity at h
  replace h : (ExceptT.tryCatch w _) s = _ := h
  simp only [ExceptT.tryCatch, ExceptT.mk, bind, StateT.bind] at h
  unfold Yields
  cases hw : w s with
  | mk r t =>
    rw [hw] at h
    cases r with
    | ok b => exact h
    | error f => exact nomatch h

/-- a loop over two lists, one after the other -/
theorem yields_forM_append {f : α → Work PUnit} {l r : List α} {u : PUnit} :
    Yields ((l ++ r).forM f) s u s' ↔ ∃ t, Yields (l.forM f) s ⟨⟩ t ∧ Yields (r.forM f) t u s' := by
  have happend : (l ++ r).forM f = l.forM f >>= fun _ => r.forM f := List.forM_append
  rw [happend, yields_bind]
  exact ⟨fun ⟨_, t, h⟩ => ⟨t, h⟩, fun ⟨t, h⟩ => ⟨_, t, h⟩⟩

theorem results_of_mapM {f : α → Work β} {l : List α} {bs : List β}
    (h : Yields (l.mapM f) s bs s') :
    bs.length = l.length ∧ ∀ x ∈ l.zip bs, ∃ t t', Yields (f x.1) t x.2 t' := by
  induction l generalizing s s' bs with
  | nil =>
    rw [List.mapM_nil] at h
    obtain ⟨rfl, _⟩ := yields_pure.mp h
    exact ⟨rfl, nofun⟩
  | cons a l ih =>
    rw [List.mapM_cons] at h
    obtain ⟨b, t, hb, h⟩ := yields_bind.mp h
    obtain ⟨bs', t', hbs, h⟩ := yields_bind.mp h
    obtain ⟨rfl, _⟩ := yields_pure.mp h
    obtain ⟨hlen, hall⟩ := ih hbs
    refine ⟨congrArg (· + 1) hlen, fun x hx => ?_⟩
    rcases List.mem_cons.mp hx with rfl | hx
    · exact ⟨s, t, hb⟩
    · exact hall x hx

end SiteBundle
