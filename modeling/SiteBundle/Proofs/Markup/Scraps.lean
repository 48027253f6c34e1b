import SiteBundle.Markup.Draft
import SiteBundle.Proofs.Text.Offsets

/-!
# Where the parts of an edited text come from

`Draft.walk` says what an edited text is; its scraps say besides where each part of it comes from.
A scrap is a character of the base, with its offset there, or something inserted, and what is
inserted may be anything that stands for a text (`β`).

* `scrapsUpto`, `scrapsFrom`   the scraps of a walk, without and with what is inserted at the end;
* `walkFrom_eq_flatMap`        the texts of the scraps are the walk;
* `kept_scrapsFrom`            the characters among them are those that no cut covers, in order;
* `added_scrapsFrom`           the rest is every insert once;
* `filter_added_scrapsFrom`    inserts at ascending places keep their order;
* `pairwise_rank_scrapsFrom`   an insert stands behind all characters before its place and before
  all others.
-/

namespace SiteBundle

open Text

/-- a part of an edited text -/
inductive Scrap (β : Type) where
  /-- a character of the base and its offset -/
  | kept (offset : Nat) (c : Char)
  | added (b : β)

namespace Scrap
variable {β : Type}

/-- the scrap as a text, inserts as what they stand for -/
def text (f : β → Text) : Scrap β → Text
  | .kept _ c => [c]
  | .added b => f b

def kept? : Scrap β → Option (Nat × Char)
  | .kept o c => some (o, c)
  | .added _ => none

def added? : Scrap β → Option β
  | .kept _ _ => none
  | .added b => some b

/-- the order of scraps: an insert comes before the character at its place -/
def rank (place : β → Nat) : Scrap β → Nat
  | .kept o _ => 2 * o + 1
  | .added b => 2 * place b

def map {γ : Type} (g : β → γ) : Scrap β → Scrap γ
  | .kept o c => .kept o c
  | .added b => .added (g b)

end Scrap

namespace Draft
variable {β : Type}

/-- everything inserted at this offset, in the order it was added -/
def addedAt (inserts : List (Nat × β)) (offset : Nat) : List (Scrap β) :=
  (inserts.filter fun i => i.1 == offset).map fun i => .added i.2

/-- the scraps of a stretch of text, without what is inserted at its end -/
def scrapsUpto (cuts : List (Nat × Nat)) (inserts : List (Nat × β)) : Nat → Text → List (Scrap β)
  | _, [] => []
  | offset, c :: r =>
    addedAt inserts offset ++ (if covered cuts offset then [] else [.kept offset c]) ++
      scrapsUpto cuts inserts (offset + c.utf8Size) r

/-- the scraps of a walk to the end -/
def scrapsFrom (cuts : List (Nat × Nat)) (inserts : List (Nat × β)) (offset : Nat) (t : Text) :
    List (Scrap β) :=
  scrapsUpto cuts inserts offset t ++ addedAt inserts (offset + size t)

section
variable (cuts : List (Nat × Nat)) (inserts : List (Nat × β))

theorem scrapsUpto_append (o : Nat) (t u : Text) : scrapsUpto cuts inserts o (t ++ u) =
    scrapsUpto cuts inserts o t ++ scrapsUpto cuts inserts (o + size t) u := by
  induction t generalizing o with
  | nil => rfl
  | cons c t ih =>
    rw [List.cons_append, scrapsUpto, scrapsUpto, ih, size_cons, Nat.add_assoc, List.append_assoc,
      List.append_assoc, List.append_assoc]

theorem scrapsFrom_append (o : Nat) (t u : Text) : scrapsFrom cuts inserts o (t ++ u) =
    scrapsUpto cuts inserts o t ++ scrapsFrom cuts inserts (o + size t) u := by
  rw [scrapsFrom, scrapsUpto_append, scrapsFrom, size_append, Nat.add_assoc, List.append_assoc]

theorem scrapsFrom_nil (o : Nat) : scrapsFrom cuts inserts o [] = addedAt inserts o := rfl

theorem scrapsFrom_cons (o : Nat) (c : Char) (r : Text) : scrapsFrom cuts inserts o (c :: r) =
    addedAt inserts o ++ (if covered cuts o then [] else [.kept o c]) ++
      scrapsFrom cuts inserts (o + c.utf8Size) r := by
  rw [scrapsFrom, scrapsFrom, scrapsUpto, size_cons, Nat.add_assoc, List.append_assoc]

theorem scrapsFrom_map {γ : Type} (g : β → γ) (o : Nat) (t : Text) :
    scrapsFrom cuts (inserts.map fun i => (i.1, g i.2)) o t =
      (scrapsFrom cuts inserts o t).map (Scrap.map g) := by
  have hadded : ∀ o, addedAt (inserts.map fun i => (i.1, g i.2)) o =
      (addedAt inserts o).map (Scrap.map g) := by
    intro o
    unfold addedAt
    rw [List.filter_map, List.map_map, List.map_map]
    rfl
  induction t generalizing o with
  | nil => exact hadded o
  | cons c r ih =>
    rw [scrapsFrom_cons, scrapsFrom_cons, List.map_append, List.map_append, hadded, ih]
    split
    · rfl
    · rfl

/-! ## the texts of the scraps -/

theorem flatMap_addedAt (f : β → Text) (o : Nat) : (addedAt inserts o).flatMap (Scrap.text f) =
    insertedAt (inserts.map fun i => (i.1, f i.2)) o := by
  unfold addedAt insertedAt
  rw [List.filter_map, List.flatMap_map, List.flatMap_map]
  rfl

theorem walkFrom_eq_flatMap (f : β → Text) (o : Nat) (t : Text) :
    walkFrom cuts (inserts.map fun i => (i.1, f i.2)) o t =
      (scrapsFrom cuts inserts o t).flatMap (Scrap.text f) := by
  induction t generalizing o with
  | nil => rw [walkFrom, scrapsFrom_nil, flatMap_addedAt]
  | cons c r ih =>
    rw [walkFrom, scrapsFrom_cons, List.flatMap_append, List.flatMap_append, flatMap_addedAt, ih]
    by_cases h : covered cuts o = true
    · rw [if_pos h, if_pos h]
      rfl
    · rw [if_neg h, if_neg h]
      rfl

/-! ## what is kept -/

theorem filterMap_kept_addedAt (o : Nat) : (addedAt inserts o).filterMap Scrap.kept? = [] := by
  unfold addedAt
  rw [List.filterMap_map]
  exact List.filterMap_eq_nil_iff.mpr fun i _ => rfl

theorem kept_scrapsUpto (o : Nat) (t : Text) :
    (scrapsUpto cuts inserts o t).filterMap Scrap.kept? =
      (places o t).filter fun p => !covered cuts p.1 := by
  induction t generalizing o with
  | nil => rfl
  | cons c r ih =>
    rw [scrapsUpto, List.filterMap_append, List.filterMap_append, filterMap_kept_addedAt, ih,
      List.nil_append, places_cons]
    by_cases h : covered cuts o = true
    · rw [if_pos h, List.filter_cons_of_neg (by simp [h])]
      rfl
    · rw [if_neg h, List.filter_cons_of_pos (by simp [h])]
      rfl

theorem kept_scrapsFrom (o : Nat) (t : Text) :
    (scrapsFrom cuts inserts o t).filterMap Scrap.kept? =
      (places o t).filter fun p => !covered cuts p.1 := by
  rw [scrapsFrom, List.filterMap_append, filterMap_kept_addedAt, kept_scrapsUpto, List.append_nil]

/-! ## what is added -/

theorem filterMap_added_addedAt (o : Nat) : (addedAt inserts o).filterMap Scrap.added? =
    (inserts.filter fun i => i.1 == o).map (·.2) := by
  unfold addedAt
  rw [List.filterMap_map]
  show List.filterMap (fun i : Nat × β => some i.2) _ = _
  rw [List.filterMap_eq_map']

theorem filterMap_added_cons (o : Nat) (c : Char) (r : Text) :
    (scrapsFrom cuts inserts o (c :: r)).filterMap Scrap.added? =
      (inserts.filter fun i => i.1 == o).map (·.2) ++
        (scrapsFrom cuts inserts (o + c.utf8Size) r).filterMap Scrap.added? := by
  have hmid : (if covered cuts o then [] else [Scrap.kept o c]).filterMap
      (Scrap.added? (β := β)) = [] := by
    by_cases h : covered cuts o = true
    · rw [if_pos h]
      rfl
    · rw [if_neg h]
      rfl
  rw [scrapsFrom_cons, List.filterMap_append, List.filterMap_append, filterMap_added_addedAt, hmid,
    List.append_nil]

/-- from `o` on, the inserts are placed at boundaries of the text -/
def OnBoundaries (inserts : List (Nat × β)) (o : Nat) (t : Text) : Prop :=
  ∀ i ∈ inserts, o ≤ i.1 → ∃ a b, t = a ++ b ∧ o + size a = i.1

section
variable {inserts} {o : Nat} {c : Char} {r : Text}

theorem OnBoundaries.eq_of_nil (h : OnBoundaries inserts o []) {i : Nat × β} (hi : i ∈ inserts)
    (ho : o ≤ i.1) : i.1 = o := by
  obtain ⟨a, b, e, hs⟩ := h i hi ho
  have ha : a = [] := (List.append_eq_nil_iff.mp e.symm).1
  rw [← hs, ha, size_nil, Nat.add_zero]

theorem OnBoundaries.le_of_ne (h : OnBoundaries inserts o (c :: r)) {i : Nat × β} (hi : i ∈ inserts)
    (ho : o ≤ i.1) (hne : i.1 ≠ o) : o + c.utf8Size ≤ i.1 := by
  obtain ⟨a, b, e, hs⟩ := h i hi ho
  cases a with
  | nil => exact absurd hs.symm (by simpa using hne)
  | cons x a =>
    obtain ⟨rfl, _⟩ := List.cons.inj e
    rw [size_cons] at hs
    omega

theorem OnBoundaries.tail (h : OnBoundaries inserts o (c :: r)) :
    OnBoundaries inserts (o + c.utf8Size) r := by
  intro i hi ho
  have hc := c.utf8Size_pos
  obtain ⟨a, b, e, hs⟩ := h i hi (by omega)
  cases a with
  | nil =>
    rw [size_nil] at hs
    omega
  | cons x a =>
    obtain ⟨rfl, e'⟩ := List.cons.inj e
    exact ⟨a, b, e', by rw [← hs, size_cons]; omega⟩

theorem onBoundaries_zero {t : Text} (h : ∀ i ∈ inserts, IsBoundary t i.1) :
    OnBoundaries inserts 0 t := by
  intro i hi _
  obtain ⟨a, b, e, hs⟩ := isBoundary_iff.mp (h i hi)
  exact ⟨a, b, e, by omega⟩

end

/-- from an offset on, the scraps hold every insert placed there or later, once -/
theorem added_scrapsFrom_of_le (o : Nat) (t : Text) (h : OnBoundaries inserts o t) :
    ((scrapsFrom cuts inserts o t).filterMap Scrap.added?).Perm
      ((inserts.filter fun i => decide (o ≤ i.1)).map (·.2)) := by
  induction t generalizing o with
  | nil =>
    rw [scrapsFrom_nil, filterMap_added_addedAt]
    -- behind the last character every insert is at the end
    have e : (inserts.filter fun i => i.1 == o) = inserts.filter fun i => decide (o ≤ i.1) := by
      refine List.filter_congr fun i hi => ?_
      rw [Bool.eq_iff_iff, beq_iff_eq, decide_eq_true_iff]
      exact ⟨fun e => Nat.le_of_eq e.symm, h.eq_of_nil hi⟩
    rw [e]
  | cons c r ih =>
    have hc := c.utf8Size_pos
    rw [filterMap_added_cons]
    -- the inserts from `o` on are those at `o` and those behind this character
    have hsplit : ((inserts.filter fun i => i.1 == o) ++
        inserts.filter fun i => decide (o + c.utf8Size ≤ i.1)).Perm
          (inserts.filter fun i => decide (o ≤ i.1)) := by
      have hp := List.filter_append_perm (fun i : Nat × β => i.1 == o)
        (inserts.filter fun i => decide (o ≤ i.1))
      rw [List.filter_filter, List.filter_filter] at hp
      refine List.Perm.trans (List.Perm.of_eq ?_) hp
      congr 1
      · refine List.filter_congr fun i _ => ?_
        rw [Bool.eq_iff_iff, Bool.and_eq_true, beq_iff_eq, decide_eq_true_iff]
        omega
      · refine List.filter_congr fun i hi => ?_
        rw [Bool.eq_iff_iff, Bool.and_eq_true, Bool.not_eq_true', beq_eq_false_iff_ne,
          decide_eq_true_iff, decide_eq_true_iff]
        exact ⟨fun ho => ⟨by omega, by omega⟩, fun ⟨hne, ho⟩ => h.le_of_ne hi ho hne⟩
    have hmap := hsplit.map (·.2)
    rw [List.map_append] at hmap
    exact ((ih _ h.tail).append_left _).trans hmap

theorem added_scrapsFrom (t : Text) (h : ∀ i ∈ inserts, IsBoundary t i.1) :
    ((scrapsFrom cuts inserts 0 t).filterMap Scrap.added?).Perm (inserts.map (·.2)) := by
  have hp := added_scrapsFrom_of_le cuts inserts 0 t (onBoundaries_zero h)
  rwa [List.filter_eq_self.mpr fun i _ => decide_eq_true (Nat.zero_le _)] at hp

theorem filter_ascending {l : List (Nat × β)} (hasc : l.Pairwise fun i j => i.1 ≤ j.1) {o o' : Nat}
    (hlt : o < o') (h : ∀ i ∈ l, o ≤ i.1 → i.1 ≠ o → o' ≤ i.1) :
    (l.filter fun i => i.1 == o) ++ l.filter (fun i => decide (o' ≤ i.1)) =
      l.filter fun i => decide (o ≤ i.1) := by
  induction l with
  | nil => rfl
  | cons i l ih =>
    obtain ⟨hi, hl⟩ := List.pairwise_cons.mp hasc
    have hrest := ih hl fun j hj => h j (List.mem_cons_of_mem _ hj)
    rcases Nat.lt_trichotomy i.1 o with hio | hio | hio
    · rw [List.filter_cons_of_neg (by simp; omega), List.filter_cons_of_neg (by simp; omega),
        List.filter_cons_of_neg (by simp; omega), hrest]
    · rw [List.filter_cons_of_pos (by simp [hio]), List.filter_cons_of_neg (by simp; omega),
        List.filter_cons_of_pos (by simp; omega), List.cons_append, hrest]
    · -- from here on all are behind `o`
      have hbehind : ∀ j ∈ i :: l, o' ≤ j.1 := by
        intro j hj
        have hle : i.1 ≤ j.1 := by
          rcases List.mem_cons.mp hj with rfl | hj
          · exact Nat.le_refl _
          · exact hi j hj
        exact h j hj (by omega) (by omega)
      rw [List.filter_eq_nil_iff.mpr fun j hj => by have := hbehind j hj; simp; omega,
        List.filter_eq_self.mpr fun j hj => decide_eq_true (hbehind j hj), List.nil_append,
        List.filter_eq_self.mpr fun j hj => by have := hbehind j hj; simp; omega]

/-- inserts whose places are ascending keep their order -/
theorem filter_added_scrapsFrom (q : β → Bool)
    (hasc : (inserts.filter fun i => q i.2).Pairwise fun i j => i.1 ≤ j.1) (t : Text)
    (h : ∀ i ∈ inserts, IsBoundary t i.1) :
    ((scrapsFrom cuts inserts 0 t).filterMap Scrap.added?).filter q =
      (inserts.filter fun i => q i.2).map (·.2) := by
  have hat : ∀ o, ((inserts.filter fun i => i.1 == o).map (·.2)).filter q =
      ((inserts.filter fun i => q i.2).filter fun i => i.1 == o).map (·.2) := by
    intro o
    rw [List.filter_map, List.filter_filter, List.filter_filter]
    congr 2
    funext i
    exact Bool.and_comm _ _
  have hfrom : ∀ o, OnBoundaries inserts o t →
      ((scrapsFrom cuts inserts o t).filterMap Scrap.added?).filter q =
        ((inserts.filter fun i => q i.2).filter fun i => decide (o ≤ i.1)).map (·.2) := by
    clear h
    induction t with
    | nil =>
      intro o h
      rw [scrapsFrom_nil, filterMap_added_addedAt, hat]
      congr 1
      refine List.filter_congr fun i hi => ?_
      rw [Bool.eq_iff_iff, beq_iff_eq, decide_eq_true_iff]
      exact ⟨fun e => Nat.le_of_eq e.symm, h.eq_of_nil (List.mem_filter.mp hi).1⟩
    | cons c r ih =>
      intro o h
      have hc := c.utf8Size_pos
      rw [filterMap_added_cons, List.filter_append, hat, ih _ h.tail, ← List.map_append,
        filter_ascending hasc (by omega) fun i hi => h.le_of_ne (List.mem_filter.mp hi).1]
  rw [hfrom 0 (onBoundaries_zero h),
    List.filter_eq_self.mpr fun i _ => decide_eq_true (Nat.zero_le _)]

/-! ## the order -/

theorem rank_of_mem_addedAt {place : β → Nat} (hplace : ∀ i ∈ inserts, place i.2 = i.1) {o : Nat}
    {x : Scrap β} (hx : x ∈ addedAt inserts o) : x.rank place = 2 * o := by
  obtain ⟨i, hi, rfl⟩ := List.mem_map.mp hx
  obtain ⟨hi, ho⟩ := List.mem_filter.mp hi
  show 2 * place i.2 = 2 * o
  rw [hplace i hi, beq_iff_eq.mp ho]

theorem le_rank_of_mem_scrapsFrom {place : β → Nat} (hplace : ∀ i ∈ inserts, place i.2 = i.1)
    {o : Nat} {t : Text} {x : Scrap β} (hx : x ∈ scrapsFrom cuts inserts o t) :
    2 * o ≤ x.rank place := by
  induction t generalizing o with
  | nil => exact Nat.le_of_eq (rank_of_mem_addedAt inserts hplace hx).symm
  | cons c r ih =>
    rw [scrapsFrom_cons, List.append_assoc] at hx
    rcases List.mem_append.mp hx with hx | hx
    · exact Nat.le_of_eq (rank_of_mem_addedAt inserts hplace hx).symm
    · rcases List.mem_append.mp hx with hx | hx
      · split at hx
        · cases hx
        · rw [List.mem_singleton.mp hx]
          show 2 * o ≤ 2 * o + 1
          omega
      · have := ih hx
        omega

theorem pairwise_rank_scrapsFrom {place : β → Nat} (hplace : ∀ i ∈ inserts, place i.2 = i.1)
    (o : Nat) (t : Text) :
    (scrapsFrom cuts inserts o t).Pairwise fun x y => x.rank place ≤ y.rank place := by
  have hadded : ∀ o, (addedAt inserts o).Pairwise fun x y => x.rank place ≤ y.rank place := by
    intro o
    refine List.pairwise_iff_forall_sublist.mpr fun {x y} h => ?_
    have hx := rank_of_mem_addedAt inserts hplace (h.subset List.mem_cons_self)
    have hy := rank_of_mem_addedAt inserts hplace (h.subset (by simp : y ∈ [x, y]))
    omega
  induction t generalizing o with
  | nil => exact hadded o
  | cons c r ih =>
    have hc := c.utf8Size_pos
    rw [scrapsFrom_cons, List.append_assoc]
    refine List.pairwise_append.mpr ⟨hadded o, List.pairwise_append.mpr ⟨?_, ih _, ?_⟩, ?_⟩
    · split
      · exact .nil
      · exact List.pairwise_singleton _ _
    · intro x hx y hy
      have hy' := le_rank_of_mem_scrapsFrom cuts inserts hplace hy
      split at hx
      · cases hx
      · rw [List.mem_singleton.mp hx]
        show 2 * o + 1 ≤ _
        omega
    · intro x hx y hy
      rw [rank_of_mem_addedAt inserts hplace hx]
      rcases List.mem_append.mp hy with hy | hy
      · split at hy
        · cases hy
        · rw [List.mem_singleton.mp hy]
          show 2 * o ≤ 2 * o + 1
          omega
      · have := le_rank_of_mem_scrapsFrom cuts inserts hplace hy
        omega

/-- the characters before and behind an insert.  It is planned for `n`, and everything between the
place where it goes and `n` is covered. -/
theorem kept_around {place : β → Nat} (hplace : ∀ i ∈ inserts, place i.2 = i.1) {o n : Nat} {t : Text}
    {front back : List (Scrap β)} {b : β} (h : scrapsFrom cuts inserts o t = front ++ .added b :: back)
    (hle : place b ≤ n) (hcov : ∀ q, place b ≤ q → q < n → covered cuts q = true) :
    front.filterMap Scrap.kept? =
        ((places o t).filter fun p => !covered cuts p.1).filter (fun p => p.1 < n) ∧
      back.filterMap Scrap.kept? =
        ((places o t).filter fun p => !covered cuts p.1).filter fun p => !decide (p.1 < n) := by
  have hranks := pairwise_rank_scrapsFrom cuts inserts hplace o t
  have hkept := kept_scrapsFrom cuts inserts o t
  rw [h] at hranks hkept
  obtain ⟨_, hbehind, hacross⟩ := List.pairwise_append.mp hranks
  have hfront : ∀ p ∈ front.filterMap Scrap.kept?, p.1 < n := by
    intro p hp
    obtain ⟨x, hx, he⟩ := List.mem_filterMap.mp hp
    cases x with
    | kept q c =>
      cases he
      have hr : 2 * q + 1 ≤ 2 * place b := hacross _ hx _ List.mem_cons_self
      show q < n
      omega
    | added b' => cases he
  have hback : ∀ p ∈ back.filterMap Scrap.kept?, ¬ p.1 < n := by
    intro p hp hlt
    obtain ⟨x, hx, he⟩ := List.mem_filterMap.mp hp
    cases x with
    | kept q c =>
      cases he
      have hr : 2 * place b ≤ 2 * q + 1 := (List.pairwise_cons.mp hbehind).1 _ hx
      have hmem : (q, c) ∈ (places o t).filter fun p => !covered cuts p.1 := by
        rw [← hkept, List.filterMap_append]
        exact List.mem_append_right _ hp
      have hfree := (List.mem_filter.mp hmem).2
      rw [hcov q (by omega) hlt] at hfree
      cases hfree
    | added b' => cases he
  have hsplit : front.filterMap Scrap.kept? ++ back.filterMap Scrap.kept? =
      (places o t).filter fun p => !covered cuts p.1 := by
    rw [← hkept, List.filterMap_append]
    rfl
  rw [← hsplit, List.filter_append, List.filter_append]
  refine ⟨?_, ?_⟩
  · rw [List.filter_eq_self.mpr fun p hp => decide_eq_true (hfront p hp),
      List.filter_eq_nil_iff.mpr fun p hp => by simpa using hback p hp, List.append_nil]
  · rw [List.filter_eq_nil_iff.mpr fun p hp => by simpa using hfront p hp, List.nil_append,
      List.filter_eq_self.mpr fun p hp => by simpa using hback p hp]

/-- a stretch that no cut and no insert touches is kept as it is -/
theorem scrapsUpto_of_free {o : Nat} {t : Text}
    (hc : ∀ p ∈ places o t, covered cuts p.1 = false) (hi : ∀ p ∈ places o t, addedAt inserts p.1 = []) :
    scrapsUpto cuts inserts o t = (places o t).map fun p => .kept p.1 p.2 := by
  induction t generalizing o with
  | nil => rfl
  | cons c r ih =>
    have hmem : ∀ p ∈ places (o + c.utf8Size) r, p ∈ places o (c :: r) := fun p hp =>
      List.mem_cons_of_mem _ hp
    rw [scrapsUpto, hc (o, c) List.mem_cons_self, hi (o, c) List.mem_cons_self,
      ih (fun p hp => hc p (hmem p hp)) fun p hp => hi p (hmem p hp)]
    rfl

end
end Draft
end SiteBundle
