import SiteBundle.Text.Basic

/-!
# Boundaries and places of a text

An offset is a boundary of a text when the text can be split there.

* `IsBoundary t n`    `n` is the size of a front part of `t`;
* `splitAt?_eq_some`  splitting finds exactly the two parts;
* `eq_append_of_size_le`   of two front parts the shorter one begins the longer one;
* `mem_of_inside`     a character at an offset inside a part belongs to the part;
* `places o t`        the characters of `t` with their offsets, the first at `o`.
-/

namespace SiteBundle.Text

/-! ## sizes -/

@[simp] theorem size_nil : size [] = 0 := rfl

@[simp] theorem size_cons (c : Char) (t : Text) : size (c :: t) = c.utf8Size + size t := rfl

attribute [simp] size_append

theorem size_eq_zero {t : Text} (h : size t = 0) : t = [] := by
  cases t with
  | nil => rfl
  | cons c t =>
    have hc := c.utf8Size_pos
    rw [size_cons] at h
    omega

theorem size_pos {t : Text} (h : t ≠ []) : 0 < size t := by
  rcases Nat.eq_zero_or_pos (size t) with h0 | h0
  · exact absurd (size_eq_zero h0) h
  · exact h0

/-- of two front parts of a text the smaller one begins the other one -/
theorem eq_append_of_size_le {a b c d : Text} (h : a ++ b = c ++ d) (hs : size a ≤ size c) :
    ∃ m, c = a ++ m ∧ b = m ++ d := by
  rcases List.append_eq_append_iff.mp h with ⟨m, hc, hb⟩ | ⟨m, ha, hd⟩
  · exact ⟨m, hc, hb⟩
  · have hm : m = [] := size_eq_zero (by rw [ha, size_append] at hs; omega)
    subst hm
    exact ⟨[], by simpa using ha.symm, by simpa using hd.symm⟩

/-- front parts of one size are the same -/
theorem append_inj_of_size {a b c d : Text} (h : a ++ b = c ++ d) (hs : size a = size c) :
    a = c ∧ b = d := by
  obtain ⟨m, rfl, rfl⟩ := eq_append_of_size_le h (Nat.le_of_eq hs)
  obtain rfl : m = [] := size_eq_zero (by rw [size_append] at hs; omega)
  exact ⟨(List.append_nil a).symm, List.nil_append d⟩

/-- a character inside a part of a text, behind the part's first one, is among the others -/
theorem mem_of_inside {a b m r back : Text} {c d : Char}
    (h : a ++ (c :: m ++ r) = b ++ d :: back) (hlt : size a < size b)
    (hin : size b < size a + size (c :: m)) : d ∈ m := by
  obtain ⟨v, rfl, hv⟩ := eq_append_of_size_le h (Nat.le_of_lt hlt)
  rw [size_append] at hlt hin
  cases v with
  | nil => exact absurd hlt (Nat.lt_irrefl _)
  | cons e v =>
    obtain ⟨rfl, htail⟩ : c = e ∧ m ++ r = v ++ d :: back := List.cons.inj hv
    have hle : size v < size m := by
      rw [size_cons, size_cons] at hin
      omega
    obtain ⟨w, rfl, hw⟩ := eq_append_of_size_le htail.symm (Nat.le_of_lt hle)
    cases w with
    | nil =>
      rw [List.append_nil] at hle
      exact absurd hle (Nat.lt_irrefl _)
    | cons e w =>
      obtain ⟨rfl, -⟩ := List.cons.inj hw
      exact List.mem_append_right v List.mem_cons_self

/-! ## boundaries -/

theorem append_of_splitAt? {n : Nat} {t a b : Text} (h : splitAt? n t = some (a, b)) :
    t = a ++ b ∧ size a = n := by
  induction t generalizing n a with
  | nil =>
    cases n with
    | zero => cases h; exact ⟨rfl, rfl⟩
    | succ n => cases h
  | cons c t ih =>
    cases n with
    | zero => cases h; exact ⟨rfl, rfl⟩
    | succ n =>
      rw [splitAt?] at h
      split at h
      · cases h
      · next hn =>
        obtain ⟨p, hp, e⟩ := Option.map_eq_some_iff.mp h
        cases e
        obtain ⟨ht, hs⟩ := ih hp
        refine ⟨by rw [ht]; rfl, ?_⟩
        rw [size_cons, hs]
        omega

theorem splitAt?_eq_some {n : Nat} {t a b : Text} :
    splitAt? n t = some (a, b) ↔ t = a ++ b ∧ size a = n := by
  constructor
  · exact append_of_splitAt?
  · rintro ⟨rfl, rfl⟩
    exact splitAt?_size a b

def IsBoundary (t : Text) (n : Nat) : Prop := (splitAt? n t).isSome

instance (t : Text) (n : Nat) : Decidable (IsBoundary t n) :=
  inferInstanceAs (Decidable ((splitAt? n t).isSome = true))

theorem isBoundary_iff {t : Text} {n : Nat} : IsBoundary t n ↔ ∃ a b, t = a ++ b ∧ size a = n := by
  show (splitAt? n t).isSome = true ↔ _
  rw [Option.isSome_iff_exists]
  constructor
  · rintro ⟨p, hp⟩
    exact ⟨p.1, p.2, append_of_splitAt? hp⟩
  · rintro ⟨a, b, h⟩
    exact ⟨(a, b), splitAt?_eq_some.mpr h⟩

theorem isBoundary_size (a b : Text) : IsBoundary (a ++ b) (size a) :=
  isBoundary_iff.mpr ⟨a, b, rfl, rfl⟩

theorem isBoundary_zero (t : Text) : IsBoundary t 0 := isBoundary_size [] t

theorem isBoundary_end (t : Text) : IsBoundary t (size t) := by
  have h := isBoundary_size t []
  rwa [List.append_nil] at h

theorem IsBoundary.le_size {t : Text} {n : Nat} (h : IsBoundary t n) : n ≤ size t := by
  obtain ⟨a, b, rfl, rfl⟩ := isBoundary_iff.mp h
  rw [size_append]
  omega

theorem split_between {t : Text} {m n : Nat} (hm : IsBoundary t m) (hn : IsBoundary t n)
    (h : m ≤ n) : ∃ a b c, t = a ++ b ++ c ∧ size a = m ∧ size a + size b = n := by
  obtain ⟨a, r, e, ha⟩ := isBoundary_iff.mp hm
  obtain ⟨f, c, rfl, hf⟩ := isBoundary_iff.mp hn
  obtain ⟨b, rfl, rfl⟩ := eq_append_of_size_le e.symm (by rw [ha, hf]; exact h)
  exact ⟨a, b, c, rfl, ha, by rw [← size_append, hf]⟩

/-- the part between two boundaries can be cut out -/
theorem slice?_isSome {t : Text} {m n : Nat} (hm : IsBoundary t m) (hn : IsBoundary t n)
    (h : m ≤ n) : ∃ a b c, t = a ++ b ++ c ∧ size a = m ∧ size a + size b = n ∧
      slice? m n t = some b := by
  obtain ⟨a, b, c, rfl, ha, hb⟩ := split_between hm hn h
  have h1 : splitAt? n (a ++ b ++ c) = some (a ++ b, c) :=
    splitAt?_eq_some.mpr ⟨rfl, by rw [size_append, hb]⟩
  have h2 : splitAt? m (a ++ b) = some (a, b) := splitAt?_eq_some.mpr ⟨rfl, ha⟩
  refine ⟨a, b, c, rfl, ha, hb, ?_⟩
  show ((splitAt? n (a ++ b ++ c)).bind fun p => (splitAt? m p.1).bind fun q => some q.2) = _
  rw [h1, Option.bind_some, h2, Option.bind_some]

/-! ## places -/

/-- the characters of a text with their offsets, the first at `o` -/
def places (o : Nat) : Text → List (Nat × Char)
  | [] => []
  | c :: r => (o, c) :: places (o + c.utf8Size) r

@[simp] theorem places_nil (o : Nat) : places o [] = [] := rfl

@[simp] theorem places_cons (o : Nat) (c : Char) (r : Text) :
    places o (c :: r) = (o, c) :: places (o + c.utf8Size) r := rfl

theorem places_append (o : Nat) (t u : Text) :
    places o (t ++ u) = places o t ++ places (o + size t) u := by
  induction t generalizing o with
  | nil => rfl
  | cons c t ih =>
    rw [List.cons_append, places_cons, ih, places_cons, size_cons, List.cons_append, Nat.add_assoc]

theorem map_snd_places (o : Nat) (t : Text) : (places o t).map (·.2) = t := by
  induction t generalizing o with
  | nil => rfl
  | cons c t ih => rw [places_cons, List.map_cons, ih]

theorem bounds_of_mem_places {o : Nat} {t : Text} {p : Nat × Char} (h : p ∈ places o t) :
    o ≤ p.1 ∧ p.1 < o + size t := by
  induction t generalizing o with
  | nil => cases h
  | cons c t ih =>
    have hc := c.utf8Size_pos
    rw [size_cons]
    rcases List.mem_cons.mp h with rfl | h
    · exact ⟨Nat.le_refl o, by show o < _; omega⟩
    · have h' := ih h
      omega

theorem mem_of_mem_places {o : Nat} {t : Text} {p : Nat × Char} (h : p ∈ places o t) : p.2 ∈ t := by
  rw [← map_snd_places o t]
  exact List.mem_map_of_mem h

theorem pairwise_places (o : Nat) (t : Text) : (places o t).Pairwise fun p q => p.1 < q.1 := by
  induction t generalizing o with
  | nil => exact .nil
  | cons c t ih =>
    refine List.pairwise_cons.mpr ⟨fun q hq => ?_, ih _⟩
    have hlow := (bounds_of_mem_places hq).1
    have hpos := c.utf8Size_pos
    show o < q.1
    omega

/-- a boundary before the end of the text is the offset of a character -/
theorem exists_mem_places_of_isBoundary {t : Text} {n : Nat} (h : IsBoundary t n)
    (hlt : n < size t) : ∃ c, (n, c) ∈ places 0 t := by
  obtain ⟨a, b, rfl, rfl⟩ := isBoundary_iff.mp h
  cases b with
  | nil =>
    rw [List.append_nil] at hlt
    exact absurd hlt (Nat.lt_irrefl _)
  | cons c b =>
    refine ⟨c, ?_⟩
    rw [places_append, Nat.zero_add]
    exact List.mem_append_right _ List.mem_cons_self

end SiteBundle.Text
