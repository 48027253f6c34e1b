import SiteBundle.Proofs.Markup.Lines

/-!
# Stretches of a text

A stretch is a part of a text and the offset it stands at.  Edits are planned around elements, and
what they do to another part of the text depends on how that part begins and ends: with characters
that are no layout, or with the end of the text (`Stretch.Stands`).  Elements are such parts
(`Element.Stands.stretch`), and so are blocks of an embedded language.
-/

namespace SiteBundle

open Text

structure Stretch where
  start : Nat
  text : Text

def Element.stretch (e : Element) : Stretch := ⟨e.start, e.text⟩

def Stretch.at (x : Stretch) (start : Nat) : Stretch := { x with start }

namespace Stretch

def stop (x : Stretch) : Nat := x.start + size x.text

/-- the offset lies in the stretch -/
def Holds (x : Stretch) (o : Nat) : Prop := x.start ≤ o ∧ o < x.stop

/-- the stretch and the element have an offset in common -/
def Meets (x : Stretch) (m : Element) : Prop := x.start < m.stop ∧ m.start < x.stop

/-- the text holds the stretch at its offset; it does not begin with layout, and only ends with it
where the text ends -/
structure Stands (t : Text) (x : Stretch) : Prop where
  placed : ∃ front back, t = front ++ (x.text ++ back) ∧ size front = x.start
  begins : ∃ c r, x.text = c :: r ∧ isGap c = false
  ends : ∃ r c, x.text = r ++ [c] ∧ (isGap c = false ∨ x.stop = size t)

namespace Stands
variable {t : Text} {x : Stretch} (h : x.Stands t)
include h

theorem start_lt_stop : x.start < x.stop := by
  obtain ⟨c, r, hx, _⟩ := h.begins
  have hpos : 0 < size x.text := size_pos (by rw [hx]; exact List.cons_ne_nil _ _)
  show x.start < x.start + size x.text
  omega

/-- its characters are those at the offsets it holds -/
theorem mem_places {p : Nat × Char} : p ∈ places x.start x.text ↔ p ∈ places 0 t ∧ x.Holds p.1 := by
  obtain ⟨front, back, rfl, hs⟩ := h.placed
  have hstop : x.stop = x.start + size x.text := rfl
  rw [places_append, places_append, hs, Nat.zero_add]
  constructor
  · intro hp
    have hb := bounds_of_mem_places hp
    exact ⟨List.mem_append_right _ (List.mem_append_left _ hp), hb⟩
  · rintro ⟨hp, h1, h2⟩
    rcases List.mem_append.mp hp with hp | hp
    · have hb := bounds_of_mem_places hp
      omega
    · rcases List.mem_append.mp hp with hp | hp
      · exact hp
      · have hb := bounds_of_mem_places hp
        omega

theorem first : ∃ c, (x.start, c) ∈ places 0 t ∧ isGap c = false := by
  obtain ⟨c, r, hx, hc⟩ := h.begins
  refine ⟨c, (h.mem_places.mp ?_).1, hc⟩
  rw [hx]
  exact List.mem_cons_self

theorem last : ∃ o c, (o, c) ∈ places 0 t ∧ x.Holds o ∧
    (∀ p ∈ places 0 t, x.Holds p.1 → p.1 ≤ o) ∧ (isGap c = false ∨ x.stop = size t) := by
  obtain ⟨r, c, hx, hc⟩ := h.ends
  have hsplit : places x.start x.text = places x.start r ++ [(x.start + size r, c)] := by
    rw [hx, places_append, places_cons, places_nil]
  have hlast := h.mem_places.mp (hsplit ▸ List.mem_append_right _ List.mem_cons_self)
  refine ⟨x.start + size r, c, hlast.1, hlast.2, fun p hp hin => ?_, hc⟩
  have hmem := h.mem_places.mpr ⟨hp, hin⟩
  rw [hsplit] at hmem
  rcases List.mem_append.mp hmem with hmem | hmem
  · exact Nat.le_of_lt (bounds_of_mem_places hmem).2
  · exact Nat.le_of_eq (congrArg Prod.fst (List.mem_singleton.mp hmem))

theorem stop_le_size : x.stop ≤ size t := by
  obtain ⟨front, back, rfl, hs⟩ := h.placed
  rw [size_append, size_append, hs]
  show x.start + size x.text ≤ _
  omega

end Stands
end Stretch

theorem Element.Stands.stretch {t : Text} {e : Element} (h : e.Stands t) : e.stretch.Stands t := by
  obtain ⟨inner, hi⟩ := h.bracketed
  exact ⟨h.placed, ⟨'<', inner ++ ['>'], hi, rfl⟩, ⟨'<' :: inner, '>', hi, .inl rfl⟩⟩

end SiteBundle
