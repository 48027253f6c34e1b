import SiteBundle.Proofs.Markup.MergedCuts
import SiteBundle.Proofs.Text.Offsets

/-!
# Applying the edits of a draft is one walk

Edits are applied from the highest offset down.  After some of them the text is still the base up to
any place before them all, and from there on it is the walk with these edits alone (`Applied`).  One
more edit keeps this (`applied_insert`, `applied_cut`) as long as it reaches no further than the
places of the edits before it, and the schedule of a draft is such an order (`pairwise_schedule`).

* `walkFrom_congr`    a walk depends on the bytes covered and on what is inserted at each offset;
* `result?_eq_walk`   a draft on boundaries always gives a text, and that text is the walk.
-/

namespace SiteBundle

open Text

namespace Edit

def range? : Edit → Option (Nat × Nat)
  | .cut start length => some (start, start + length)
  | .insert _ _ => none

def insertion? : Edit → Option (Nat × Text)
  | .cut _ _ => none
  | .insert place text => some (place, text)

/-- the offset that the edit reaches up to -/
def reach : Edit → Nat
  | .cut start length => start + length
  | .insert place _ => place

/-- the edit is placed on boundaries of the text -/
def Fits (t : Text) : Edit → Prop
  | .cut start length => IsBoundary t start ∧ IsBoundary t (start + length)
  | .insert place _ => IsBoundary t place

instance (t : Text) : (e : Edit) → Decidable (e.Fits t)
  | .cut _ _ => inferInstanceAs (Decidable (_ ∧ _))
  | .insert _ _ => inferInstanceAs (Decidable (IsBoundary _ _))

end Edit

namespace Draft

/-! ## walks -/

section
variable {cuts cuts' : List (Nat × Nat)} {inserts inserts' : List (Nat × Text)}

theorem walkFrom_congr {o : Nat} {t : Text}
    (hc : ∀ p, o ≤ p → covered cuts p = covered cuts' p)
    (hi : ∀ p, o ≤ p → insertedAt inserts p = insertedAt inserts' p) :
    walkFrom cuts inserts o t = walkFrom cuts' inserts' o t := by
  induction t generalizing o with
  | nil => exact hi o (Nat.le_refl o)
  | cons c r ih =>
    rw [walkFrom, walkFrom, hc o (Nat.le_refl o), hi o (Nat.le_refl o),
      ih (fun p hp => hc p (by omega)) (fun p hp => hi p (by omega))]

/-- a stretch without edits is kept -/
theorem walkFrom_append_of_free {o : Nat} {t : Text} (u : Text)
    (hc : ∀ p, o ≤ p → p < o + size t → covered cuts p = false)
    (hi : ∀ p, o ≤ p → p < o + size t → insertedAt inserts p = []) :
    walkFrom cuts inserts o (t ++ u) = t ++ walkFrom cuts inserts (o + size t) u := by
  induction t generalizing o with
  | nil => rfl
  | cons c r ih =>
    have hpos := c.utf8Size_pos
    rw [size_cons] at hc hi
    rw [List.cons_append, walkFrom, hc o (Nat.le_refl o) (by omega),
      hi o (Nat.le_refl o) (by omega), ih (fun p h1 h2 => hc p (by omega) (by omega))
      (fun p h1 h2 => hi p (by omega) (by omega)), size_cons, Nat.add_assoc]
    rfl

/-- a stretch that is cut away without inserts in it vanishes -/
theorem walkFrom_append_of_covered {o : Nat} {t : Text} (u : Text)
    (hc : ∀ p, o ≤ p → p < o + size t → covered cuts p = true)
    (hi : ∀ p, o ≤ p → p < o + size t → insertedAt inserts p = []) :
    walkFrom cuts inserts o (t ++ u) = walkFrom cuts inserts (o + size t) u := by
  induction t generalizing o with
  | nil => rfl
  | cons c r ih =>
    have hpos := c.utf8Size_pos
    rw [size_cons] at hc hi
    rw [List.cons_append, walkFrom, hc o (Nat.le_refl o) (by omega),
      hi o (Nat.le_refl o) (by omega), ih (fun p h1 h2 => hc p (by omega) (by omega))
      (fun p h1 h2 => hi p (by omega) (by omega)), size_cons, Nat.add_assoc]
    rfl

theorem covered_cons_of_mem {c : Nat × Nat} {p : Nat} (h1 : c.1 ≤ p) (h2 : p < c.2) :
    covered (c :: cuts) p = true := covered_iff.mpr ⟨c, List.mem_cons_self, h1, h2⟩

theorem covered_cons_of_le {c : Nat × Nat} {p : Nat} (h : c.2 ≤ p) :
    covered (c :: cuts) p = covered cuts p := by
  show (decide (c.1 ≤ p) && decide (p < c.2) || covered cuts p) = _
  rw [decide_eq_false (Nat.not_lt.mpr h), Bool.and_false, Bool.false_or]

theorem covered_congr (h : ∀ c, c ∈ cuts ↔ c ∈ cuts') (p : Nat) :
    covered cuts p = covered cuts' p := by
  rw [Bool.eq_iff_iff, covered_iff, covered_iff]
  constructor
  · rintro ⟨c, hc, hp⟩
    exact ⟨c, (h c).mp hc, hp⟩
  · rintro ⟨c, hc, hp⟩
    exact ⟨c, (h c).mpr hc, hp⟩

theorem covered_eq_false {p : Nat} (h : ∀ c ∈ cuts, p < c.1) : covered cuts p = false := by
  rw [Bool.eq_false_iff, Ne, covered_iff]
  rintro ⟨c, hc, hle, _⟩
  have := h c hc
  omega

theorem insertedAt_eq_nil {p : Nat} (h : ∀ i ∈ inserts, p < i.1) : insertedAt inserts p = [] := by
  unfold insertedAt
  rw [List.filter_eq_nil_iff.mpr fun i hi => by
    have := h i hi
    rw [beq_iff_eq]
    omega]
  rfl

theorem insertedAt_cons_self (p : Nat) (t : Text) :
    insertedAt ((p, t) :: inserts) p = t ++ insertedAt inserts p := by
  unfold insertedAt
  rw [List.filter_cons_of_pos (by simp), List.flatMap_cons]

theorem insertedAt_cons_of_lt {p q : Nat} (t : Text) (h : p < q) :
    insertedAt ((p, t) :: inserts) q = insertedAt inserts q := by
  unfold insertedAt
  rw [List.filter_cons_of_neg (by simp; omega)]

theorem walkFrom_insert (p : Nat) (t u : Text) :
    walkFrom cuts ((p, t) :: inserts) p u = t ++ walkFrom cuts inserts p u := by
  cases u with
  | nil => exact insertedAt_cons_self p t
  | cons c r =>
    have hpos := c.utf8Size_pos
    rw [walkFrom, walkFrom, insertedAt_cons_self, List.append_assoc, List.append_assoc,
      walkFrom_congr (fun _ _ => rfl) (fun q hq => insertedAt_cons_of_lt t (by omega)),
      List.append_assoc]

end

/-! ## one edit -/

/-- the text after the edits `done`, the last one first -/
def Applied (base : Text) (done : List Edit) (t : Text) : Prop :=
  ∀ front back, base = front ++ back → (∀ e ∈ done, size front ≤ place e) →
    t = front ++ walkFrom (done.filterMap Edit.range?) (done.filterMap Edit.insertion?)
      (size front) back

theorem walkFrom_nil (o : Nat) (t : Text) : walkFrom [] [] o t = t := by
  induction t generalizing o with
  | nil => rfl
  | cons c r ih => exact congrArg (c :: ·) (ih _)

theorem applied_nil (base : Text) : Applied base [] base := by
  intro front back e _
  show base = front ++ walkFrom [] [] (size front) back
  rw [walkFrom_nil, e]

section
variable {base : Text} {done : List Edit} {t : Text}

theorem lt_of_mem_ranges {p : Nat} (h : ∀ e ∈ done, p < place e) :
    ∀ c ∈ done.filterMap Edit.range?, p < c.1 := by
  intro c hc
  obtain ⟨e, he, hr⟩ := List.mem_filterMap.mp hc
  cases e with
  | cut start length => cases hr; exact h _ he
  | insert q t => cases hr

theorem lt_of_mem_insertions {p : Nat} (h : ∀ e ∈ done, p < place e) :
    ∀ i ∈ done.filterMap Edit.insertion?, p < i.1 := by
  intro i hi
  obtain ⟨e, he, hr⟩ := List.mem_filterMap.mp hi
  cases e with
  | cut start length => cases hr
  | insert q t => cases hr; exact h _ he

theorem walkFrom_append_of_before {o : Nat} {m : Text} (u : Text)
    (h : ∀ e ∈ done, o + size m ≤ place e) :
    walkFrom (done.filterMap Edit.range?) (done.filterMap Edit.insertion?) o (m ++ u) =
      m ++ walkFrom (done.filterMap Edit.range?) (done.filterMap Edit.insertion?) (o + size m) u := by
  refine walkFrom_append_of_free u (fun p _ hp => ?_) (fun p _ hp => ?_)
  · exact covered_eq_false (lt_of_mem_ranges fun e he => by have := h e he; omega)
  · exact insertedAt_eq_nil (lt_of_mem_insertions fun e he => by have := h e he; omega)

theorem applied_insert {p : Nat} {text : Text} (h : Applied base done t)
    (fits : Edit.Fits base (.insert p text)) (hlow : ∀ e ∈ done, p ≤ place e) :
    ∃ t', applyEdit? t (.insert p text) = some t' ∧ Applied base (.insert p text :: done) t' := by
  obtain ⟨a, b, rfl, rfl⟩ := isBoundary_iff.mp fits
  have ht := h a b rfl hlow
  refine ⟨a ++ text ++ walkFrom (done.filterMap Edit.range?) (done.filterMap Edit.insertion?)
    (size a) b, ?_, ?_⟩
  · have hmin : min (size a) (size t) = size a := by
      rw [ht, size_append]
      omega
    show ((splitAt? (min (size a) (size t)) t).bind fun q => some (q.1 ++ text ++ q.2)) = _
    rw [hmin, ht, splitAt?_size, Option.bind_some]
  · intro front back e hle
    have hf : size front ≤ size a := hle _ List.mem_cons_self
    obtain ⟨m, rfl, rfl⟩ := eq_append_of_size_le e.symm hf
    rw [walkFrom_append_of_before b (fun e' he' => ?_)]
    · rw [← size_append front m]
      show _ = front ++ (m ++ walkFrom (done.filterMap Edit.range?)
        ((size (front ++ m), text) :: done.filterMap Edit.insertion?) (size (front ++ m)) b)
      rw [walkFrom_insert, List.append_assoc, List.append_assoc]
    · rw [← size_append front m]
      rcases List.mem_cons.mp he' with rfl | he'
      · exact Nat.le_refl _
      · exact hlow e' he'

theorem applied_cut {start length : Nat} (h : Applied base done t)
    (fits : Edit.Fits base (.cut start length)) (hlow : ∀ e ∈ done, start + length ≤ place e) :
    ∃ t', applyEdit? t (.cut start length) = some t' ∧
      Applied base (.cut start length :: done) t' := by
  obtain ⟨a, m, b, rfl, rfl, hm⟩ := split_between fits.1 fits.2 (Nat.le_add_right _ _)
  have hml : size m = length := by omega
  subst hml
  have ht := h (a ++ m) b rfl (by rw [size_append]; exact hlow)
  rw [size_append] at ht
  refine ⟨a ++ walkFrom (done.filterMap Edit.range?) (done.filterMap Edit.insertion?)
    (size a + size m) b, ?_, ?_⟩
  · have hmin : min (size a + size m) (size t) = size a + size m := by
      rw [ht, size_append, size_append]
      omega
    have hsplit : splitAt? (size a + size m) t = some (a ++ m, walkFrom
        (done.filterMap Edit.range?) (done.filterMap Edit.insertion?) (size a + size m) b) :=
      splitAt?_eq_some.mpr ⟨ht, size_append a m⟩
    show ((splitAt? (min (size a + size m) (size t)) t).bind fun q =>
      (splitAt? (min (size a) (min (size a + size m) (size t))) q.1).bind fun r =>
        some (r.1 ++ q.2)) = _
    rw [hmin, hsplit, Option.bind_some, Nat.min_eq_left (Nat.le_add_right _ _)]
    show ((splitAt? (size a) (a ++ m)).bind fun r => some (r.1 ++ _)) = _
    rw [splitAt?_size, Option.bind_some]
  · intro front back e hle
    have hf : size front ≤ size a := hle _ List.mem_cons_self
    rw [List.append_assoc] at e
    obtain ⟨n, rfl, rfl⟩ := eq_append_of_size_le e.symm hf
    rw [walkFrom_append_of_before (m ++ b) (fun e' he' => ?_)]
    · rw [← size_append front n]
      show _ = front ++ (n ++ walkFrom
        ((size (front ++ n), size (front ++ n) + size m) :: done.filterMap Edit.range?)
        (done.filterMap Edit.insertion?) (size (front ++ n)) (m ++ b))
      -- the bytes of `m` are covered, and behind them the new cut covers nothing
      rw [walkFrom_append_of_covered b (fun p h1 h2 => ?_) (fun p h1 h2 => ?_),
        List.append_assoc]
      · congr 2
        exact walkFrom_congr (fun p hp => (covered_cons_of_le hp).symm) (fun _ _ => rfl)
      · exact covered_cons_of_mem h1 h2
      · exact insertedAt_eq_nil (lt_of_mem_insertions fun e' he' => by
          have := hlow e' he'; omega)
    · rw [← size_append front n]
      rcases List.mem_cons.mp he' with rfl | he'
      · exact Nat.le_refl _
      · have := hlow e' he'
        omega

/-- one more edit that reaches no further than the places of those before it -/
theorem applied_step {e : Edit} (h : Applied base done t) (fits : e.Fits base)
    (hlow : ∀ a ∈ done, e.reach ≤ place a) :
    ∃ t', applyEdit? t e = some t' ∧ Applied base (e :: done) t' := by
  cases e with
  | cut start length => exact applied_cut h fits hlow
  | insert p text => exact applied_insert h fits hlow

/-- a list of edits, each reaching no further than the places of those before it -/
theorem applied_run {todo : List Edit} (h : Applied base done t) (fits : ∀ e ∈ todo, e.Fits base)
    (horder : todo.Pairwise fun a b => b.reach ≤ place a)
    (hlow : ∀ e ∈ todo, ∀ a ∈ done, e.reach ≤ place a) :
    ∃ t', todo.foldlM applyEdit? t = some t' ∧ Applied base (todo.reverse ++ done) t' := by
  induction todo generalizing done t with
  | nil => exact ⟨t, rfl, h⟩
  | cons e todo ih =>
    obtain ⟨he, htodo⟩ := List.pairwise_cons.mp horder
    obtain ⟨t1, h1, h2⟩ := applied_step h (fits e List.mem_cons_self) (hlow e List.mem_cons_self)
    obtain ⟨t', h3, h4⟩ := ih h2 (fun b hb => fits b (List.mem_cons_of_mem _ hb)) htodo
      (fun b hb a ha => by
        rcases List.mem_cons.mp ha with rfl | ha
        · exact he b hb
        · exact hlow b (List.mem_cons_of_mem _ hb) a ha)
    refine ⟨t', ?_, ?_⟩
    · rw [List.foldlM_cons, h1]
      exact h3
    · rw [List.reverse_cons, List.append_assoc]
      exact h4

end

end Draft
end SiteBundle
