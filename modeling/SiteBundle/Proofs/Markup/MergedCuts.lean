import SiteBundle.Markup.Draft
import SiteBundle.Proofs.StableSort

/-!
# The merged cuts of a draft

Two cuts overlap when some byte belongs to both.  A merged cut is a union of cuts that hang together
by overlaps (`Chained`), and no cut overlaps it without lying inside it (`IsMergedCut`).

* `mem_mergedCuts_iff`      the list of a draft holds exactly the merged cuts of its cuts;
* `pairwise_mergedCuts`     it is ascending, and no two of its ranges overlap;
* `covered_mergedCuts`      it covers the same bytes as the cuts;
* `effectivePlace_eq_iff`   where an insert goes, told from the cuts alone (`Lands`).

The order of the cuts plays no part in any of them.
-/

namespace SiteBundle.Draft

def Overlap (a b : Nat × Nat) : Prop := a.1 < b.2 ∧ b.1 < a.2

def Within (a b : Nat × Nat) : Prop := b.1 ≤ a.1 ∧ a.2 ≤ b.2

/-- a union of cuts that hang together by overlaps -/
inductive Chained (cuts : List (Nat × Nat)) : Nat × Nat → Prop where
  | cut {c : Nat × Nat} (h : c ∈ cuts) : Chained cuts c
  | join {a b : Nat × Nat} (ha : Chained cuts a) (hb : Chained cuts b) (h : Overlap a b) :
      Chained cuts (min a.1 b.1, max a.2 b.2)

/-- a union of overlapping cuts that no other cut overlaps -/
def IsMergedCut (cuts : List (Nat × Nat)) (c : Nat × Nat) : Prop :=
  Chained cuts c ∧ ∀ b ∈ cuts, Overlap b c → Within b c

/-- where an insert planned for `place` goes: to the start of the merged cut that it lies strictly
inside of, or else where it was planned -/
def Lands (cuts : List (Nat × Nat)) (place landing : Nat) : Prop :=
  (∃ c, IsMergedCut cuts c ∧ c.1 < place ∧ place < c.2 ∧ landing = c.1) ∨
    (∀ c, IsMergedCut cuts c → ¬ (c.1 < place ∧ place < c.2)) ∧ landing = place

theorem Within.refl (a : Nat × Nat) : Within a a := ⟨Nat.le_refl _, Nat.le_refl _⟩

theorem Within.trans {a b c : Nat × Nat} (h : Within a b) (h' : Within b c) : Within a c :=
  ⟨Nat.le_trans h'.1 h.1, Nat.le_trans h.2 h'.2⟩

theorem Within.antisymm {a b : Nat × Nat} (h : Within a b) (h' : Within b a) : a = b :=
  Prod.ext (Nat.le_antisymm h'.1 h.1) (Nat.le_antisymm h.2 h'.2)

/-! ## chains -/

section
variable {cuts : List (Nat × Nat)}

theorem covered_iff {o : Nat} : covered cuts o = true ↔ ∃ c ∈ cuts, c.1 ≤ o ∧ o < c.2 := by
  unfold covered
  simp only [List.any_eq_true, Bool.and_eq_true, decide_eq_true_iff]

theorem Chained.mono {cuts' : List (Nat × Nat)} {c : Nat × Nat} (h : Chained cuts c)
    (hsub : ∀ b ∈ cuts, b ∈ cuts') : Chained cuts' c := by
  induction h with
  | cut h => exact .cut (hsub _ h)
  | join _ _ h iha ihb => exact .join iha ihb h

theorem IsMergedCut.congr {cuts' : List (Nat × Nat)} (hmem : ∀ c, c ∈ cuts ↔ c ∈ cuts')
    {c : Nat × Nat} : IsMergedCut cuts c ↔ IsMergedCut cuts' c := by
  constructor
  · rintro ⟨hc, hclosed⟩
    exact ⟨hc.mono fun b hb => (hmem b).mp hb, fun b hb => hclosed b ((hmem b).mpr hb)⟩
  · rintro ⟨hc, hclosed⟩
    exact ⟨hc.mono fun b hb => (hmem b).mpr hb, fun b hb => hclosed b ((hmem b).mp hb)⟩

theorem Chained.nonempty (hne : ∀ c ∈ cuts, c.1 < c.2) {c : Nat × Nat} (h : Chained cuts c) :
    c.1 < c.2 := by
  induction h with
  | cut h => exact hne _ h
  | @join a b _ _ h iha ihb =>
    show min a.1 b.1 < max a.2 b.2
    omega

/-- a chain begins where one of its cuts begins and ends where one of them ends -/
theorem Chained.ends {c : Nat × Nat} (h : Chained cuts c) :
    (∃ a ∈ cuts, a.1 = c.1) ∧ ∃ b ∈ cuts, b.2 = c.2 := by
  induction h with
  | cut h => exact ⟨⟨_, h, rfl⟩, _, h, rfl⟩
  | @join a b _ _ _ iha ihb =>
    refine ⟨?_, ?_⟩
    · rcases Nat.le_total a.1 b.1 with h | h
      · exact (Nat.min_eq_left h).symm ▸ iha.1
      · exact (Nat.min_eq_right h).symm ▸ ihb.1
    · rcases Nat.le_total a.2 b.2 with h | h
      · exact (Nat.max_eq_right h).symm ▸ ihb.2
      · exact (Nat.max_eq_left h).symm ▸ iha.2

/-- the cuts of a chain leave no gap -/
theorem Chained.covered {c : Nat × Nat} (h : Chained cuts c) {o : Nat} (h1 : c.1 ≤ o)
    (h2 : o < c.2) : Draft.covered cuts o = true := by
  induction h with
  | cut h => exact covered_iff.mpr ⟨_, h, h1, h2⟩
  | @join a b _ _ h iha ihb =>
    obtain ⟨h3, h4⟩ := h
    replace h1 : min a.1 b.1 ≤ o := h1
    replace h2 : o < max a.2 b.2 := h2
    by_cases hin : a.1 ≤ o ∧ o < a.2
    · exact iha hin.1 hin.2
    · exact ihb (by omega) (by omega)

/-- a chain whose cuts all lie in ranges of a list without overlaps lies in one of these ranges -/
theorem Chained.within_one {ranges : List (Nat × Nat)} (hne : ∀ c ∈ cuts, c.1 < c.2)
    (hsep : ∀ a ∈ ranges, ∀ b ∈ ranges, Overlap a b → a = b)
    (hin : ∀ c ∈ cuts, ∃ m ∈ ranges, Within c m) {c : Nat × Nat} (h : Chained cuts c) :
    ∃ m ∈ ranges, Within c m := by
  induction h with
  | cut h => exact hin _ h
  | @join a b ha hb h iha ihb =>
    obtain ⟨m, hm, h1, h2⟩ := iha
    obtain ⟨n, hn, h3, h4⟩ := ihb
    have na := ha.nonempty hne
    have nb := hb.nonempty hne
    obtain ⟨ho1, ho2⟩ := h
    have e : m = n := hsep m hm n hn ⟨by omega, by omega⟩
    subst e
    refine ⟨m, hm, ?_, ?_⟩
    · show m.1 ≤ min a.1 b.1
      omega
    · show max a.2 b.2 ≤ m.2
      omega

theorem IsMergedCut.within_of_overlap (hne : ∀ c ∈ cuts, c.1 < c.2) {c x : Nat × Nat}
    (hc : IsMergedCut cuts c) (hx : Chained cuts x) (h : Overlap x c) : Within x c := by
  induction hx with
  | cut hx => exact hc.2 _ hx h
  | @join a b ha hb hab iha ihb =>
    have na := ha.nonempty hne
    have nb := hb.nonempty hne
    obtain ⟨h1, h2⟩ := hab
    obtain ⟨h3, h4⟩ : min a.1 b.1 < c.2 ∧ c.1 < max a.2 b.2 := h
    -- the first of the two halves to touch `c` lies in it, and then so does the other one
    have hor : Overlap a c ∨ Overlap b c := by
      by_cases hac : a.1 < c.2 ∧ c.1 < a.2
      · exact .inl hac
      · have nc := hc.1.nonempty hne
        exact .inr ⟨by omega, by omega⟩
    have both : Within a c ∧ Within b c := by
      rcases hor with ho | ho
      · have wa := iha ho
        exact ⟨wa, ihb ⟨by have := wa.2; omega, by have := wa.1; omega⟩⟩
      · have wb := ihb ho
        exact ⟨iha ⟨by have := wb.2; omega, by have := wb.1; omega⟩, wb⟩
    obtain ⟨⟨wa1, wa2⟩, ⟨wb1, wb2⟩⟩ := both
    refine ⟨?_, ?_⟩
    · show c.1 ≤ min a.1 b.1
      omega
    · show max a.2 b.2 ≤ c.2
      omega

end

/-! ## absorbing one range after the other -/

def Ascending (l : List (Nat × Nat)) : Prop := l.Pairwise fun a b => a.1 ≤ b.1

section
variable {a : Nat × Nat} {l : List (Nat × Nat)}

/-- the head of the two ranges that are joined -/
theorem ascending_join {b : Nat × Nat} (h : Ascending (a :: b :: l)) (x : Nat) :
    Ascending ((a.1, x) :: l) := by
  obtain ⟨ha, hl⟩ := List.pairwise_cons.mp h
  exact List.pairwise_cons.mpr
    ⟨fun c hc => ha c (List.mem_cons_of_mem _ hc), (List.pairwise_cons.mp hl).2⟩

theorem start_le_of_mem_absorb (h : Ascending (a :: l)) {c : Nat × Nat} (hc : c ∈ absorb a l) :
    a.1 ≤ c.1 := by
  induction l generalizing a with
  | nil => exact Nat.le_of_eq (congrArg Prod.fst (List.mem_singleton.mp hc)).symm
  | cons b l ih =>
    obtain ⟨ha, hl⟩ := List.pairwise_cons.mp h
    rw [absorb] at hc
    split at hc
    · have := ih (ascending_join h (max a.2 b.2)) hc
      exact this
    · rcases List.mem_cons.mp hc with rfl | hc
      · exact Nat.le_refl _
      · exact Nat.le_trans (ha b List.mem_cons_self) (ih hl hc)

theorem pairwise_absorb (h : Ascending (a :: l)) :
    (absorb a l).Pairwise fun c d => c.2 ≤ d.1 := by
  induction l generalizing a with
  | nil => exact List.pairwise_singleton _ _
  | cons b l ih =>
    rw [absorb]
    split
    · exact ih (ascending_join h _)
    · next hb =>
      have hl := (List.pairwise_cons.mp h).2
      refine List.pairwise_cons.mpr ⟨fun c hc => ?_, ih hl⟩
      have := start_le_of_mem_absorb hl hc
      omega

theorem within_absorb (h : Ascending (a :: l)) {c : Nat × Nat} (hc : c ∈ a :: l) :
    ∃ m ∈ absorb a l, Within c m := by
  induction l generalizing a c with
  | nil => exact ⟨c, hc, .refl c⟩
  | cons b l ih =>
    obtain ⟨ha, hl⟩ := List.pairwise_cons.mp h
    have hab := ha b List.mem_cons_self
    rw [absorb]
    split
    · next hb =>
      have hj := ascending_join h (max a.2 b.2)
      have wa : Within a (a.1, max a.2 b.2) := ⟨Nat.le_refl _, Nat.le_max_left _ _⟩
      have wb : Within b (a.1, max a.2 b.2) := ⟨hab, Nat.le_max_right _ _⟩
      obtain ⟨m, hm, hw⟩ := ih hj List.mem_cons_self
      rcases List.mem_cons.mp hc with rfl | hc
      · exact ⟨m, hm, wa.trans hw⟩
      · rcases List.mem_cons.mp hc with rfl | hc
        · exact ⟨m, hm, wb.trans hw⟩
        · exact ih hj (List.mem_cons_of_mem _ hc)
    · rcases List.mem_cons.mp hc with rfl | hc
      · exact ⟨c, List.mem_cons_self, .refl c⟩
      · obtain ⟨m, hm, hw⟩ := ih hl hc
        exact ⟨m, List.mem_cons_of_mem _ hm, hw⟩

theorem chained_absorb {cuts : List (Nat × Nat)} (h : Ascending (a :: l))
    (hne : ∀ c ∈ a :: l, c.1 < c.2) (hch : ∀ c ∈ a :: l, Chained cuts c) {c : Nat × Nat}
    (hc : c ∈ absorb a l) : Chained cuts c := by
  induction l generalizing a with
  | nil =>
    rw [List.mem_singleton.mp hc]
    exact hch a List.mem_cons_self
  | cons b l ih =>
    obtain ⟨ha, hl⟩ := List.pairwise_cons.mp h
    have hab := ha b List.mem_cons_self
    have na := hne a List.mem_cons_self
    have nb := hne b (List.mem_cons_of_mem _ List.mem_cons_self)
    rw [absorb] at hc
    split at hc
    · next hb =>
      have e : (min a.1 b.1, max a.2 b.2) = (a.1, max a.2 b.2) := by rw [Nat.min_eq_left hab]
      have hj : Chained cuts (a.1, max a.2 b.2) :=
        e ▸ .join (hch a List.mem_cons_self) (hch b (List.mem_cons_of_mem _ List.mem_cons_self))
          ⟨by omega, hb⟩
      refine ih (ascending_join h _) ?_ ?_ hc
      · intro d hd
        rcases List.mem_cons.mp hd with rfl | hd
        · show a.1 < max a.2 b.2
          omega
        · exact hne d (List.mem_cons_of_mem _ (List.mem_cons_of_mem _ hd))
      · intro d hd
        rcases List.mem_cons.mp hd with rfl | hd
        · exact hj
        · exact hch d (List.mem_cons_of_mem _ (List.mem_cons_of_mem _ hd))
    · rcases List.mem_cons.mp hc with rfl | hc
      · exact hch c List.mem_cons_self
      · exact ih hl (fun d hd => hne d (List.mem_cons_of_mem _ hd))
          (fun d hd => hch d (List.mem_cons_of_mem _ hd)) hc

end

/-! ## the list of a draft -/

theorem rangeLe_iff {a b : Nat × Nat} : rangeLe a b = true ↔ a.1 < b.1 ∨ a.1 = b.1 ∧ a.2 ≤ b.2 := by
  simp [rangeLe]

theorem ascending_sorted (l : List (Nat × Nat)) : Ascending (l.mergeSort rangeLe) := by
  have h := @List.pairwise_mergeSort _ rangeLe
    (fun a b c hab hbc => by rw [rangeLe_iff] at *; omega)
    (fun a b => by rw [Bool.or_eq_true, rangeLe_iff, rangeLe_iff]; omega) l
  exact h.imp fun hab => by rw [rangeLe_iff] at hab; omega

section
variable {d : Draft}

theorem mergedCuts_of_sorted {a : Nat × Nat} {l : List (Nat × Nat)} (h : d.cuts = a :: l)
    (hs : (a :: l).Pairwise fun b c => rangeLe b c) : d.mergedCuts = absorb a l := by
  unfold mergedCuts
  rw [h, List.mergeSort_of_pairwise hs]

theorem mergedCuts_cases (d : Draft) :
    (d.cuts.mergeSort rangeLe = [] ∧ d.mergedCuts = []) ∨
      ∃ a l, d.cuts.mergeSort rangeLe = a :: l ∧ d.mergedCuts = absorb a l := by
  unfold mergedCuts
  cases h : d.cuts.mergeSort rangeLe with
  | nil => exact .inl ⟨rfl, rfl⟩
  | cons a l => exact .inr ⟨a, l, rfl, rfl⟩

theorem pairwise_mergedCuts (d : Draft) : d.mergedCuts.Pairwise fun a b => a.2 ≤ b.1 := by
  rcases mergedCuts_cases d with ⟨_, e⟩ | ⟨a, l, hs, e⟩
  · rw [e]
    exact .nil
  · rw [e]
    exact pairwise_absorb (hs ▸ ascending_sorted d.cuts)

theorem within_mergedCuts {c : Nat × Nat} (hc : c ∈ d.cuts) : ∃ m ∈ d.mergedCuts, Within c m := by
  have hc' : c ∈ d.cuts.mergeSort rangeLe := List.mem_mergeSort.mpr hc
  rcases mergedCuts_cases d with ⟨hs, _⟩ | ⟨a, l, hs, e⟩
  · rw [hs] at hc'
    cases hc'
  · rw [hs] at hc'
    rw [e]
    exact within_absorb (hs ▸ ascending_sorted d.cuts) hc'

theorem eq_of_overlap_mergedCuts {m n : Nat × Nat} (hm : m ∈ d.mergedCuts) (hn : n ∈ d.mergedCuts)
    (h : Overlap m n) : m = n := by
  obtain ⟨h1, h2⟩ := h
  rcases eq_or_related_of_pairwise (pairwise_mergedCuts d) hm hn with e | hle | hle
  · exact e
  · omega
  · omega

/-! ## where inserts go -/

theorem effectivePlace_cases (cuts : List (Nat × Nat)) (place : Nat) :
    (∃ c ∈ cuts, c.1 < place ∧ place < c.2 ∧ effectivePlace cuts place = c.1) ∨
      (∀ c ∈ cuts, ¬ (c.1 < place ∧ place < c.2)) ∧ effectivePlace cuts place = place := by
  unfold effectivePlace
  cases h : cuts.find? fun c => c.1 < place && place < c.2 with
  | none =>
    refine .inr ⟨fun c hc hin => ?_, rfl⟩
    have hno := List.find?_eq_none.mp h c hc
    rw [Bool.and_eq_true, decide_eq_true_iff, decide_eq_true_iff] at hno
    exact hno hin
  | some c =>
    have hin := List.find?_some h
    rw [Bool.and_eq_true, decide_eq_true_iff, decide_eq_true_iff] at hin
    exact .inl ⟨c, List.mem_of_find?_eq_some h, hin.1, hin.2, rfl⟩

theorem effectivePlace_le (cuts : List (Nat × Nat)) (place : Nat) :
    effectivePlace cuts place ≤ place := by
  rcases effectivePlace_cases cuts place with ⟨c, _, h, _, e⟩ | ⟨_, e⟩
  · omega
  · exact Nat.le_of_eq e

theorem effectivePlace_not_inside (d : Draft) (place : Nat) {c : Nat × Nat}
    (hc : c ∈ d.mergedCuts) :
    ¬ (c.1 < effectivePlace d.mergedCuts place ∧ effectivePlace d.mergedCuts place < c.2) := by
  rintro ⟨h1, h2⟩
  rcases effectivePlace_cases d.mergedCuts place with ⟨b, hb, hb1, hb2, e⟩ | ⟨hno, e⟩
  · rw [e] at h1 h2
    have : b = c := eq_of_overlap_mergedCuts hb hc ⟨h2, by omega⟩
    subst this
    omega
  · rw [e] at h1 h2
    exact hno c hc ⟨h1, h2⟩

theorem effectivePlace_mono (d : Draft) {a b : Nat} (h : a ≤ b) :
    effectivePlace d.mergedCuts a ≤ effectivePlace d.mergedCuts b := by
  have ha := effectivePlace_le d.mergedCuts a
  rcases effectivePlace_cases d.mergedCuts b with ⟨c, hc, hb1, hb2, e⟩ | ⟨_, e⟩
  · rw [e]
    rcases Nat.lt_or_ge c.1 a with hca | hca
    · have hout := effectivePlace_not_inside d a hc
      omega
    · exact Nat.le_trans ha hca
  · rw [e]
    exact Nat.le_trans ha h

/-! ## cuts that are not empty -/

variable (hne : ∀ c ∈ d.cuts, c.1 < c.2)
include hne

theorem chained_mergedCuts {m : Nat × Nat} (hm : m ∈ d.mergedCuts) : Chained d.cuts m := by
  rcases mergedCuts_cases d with ⟨_, e⟩ | ⟨a, l, hs, e⟩
  · rw [e] at hm
    cases hm
  · rw [e] at hm
    have hmem : ∀ c ∈ a :: l, c ∈ d.cuts := fun c hc => by
      rw [← hs] at hc
      exact List.mem_mergeSort.mp hc
    exact chained_absorb (hs ▸ ascending_sorted d.cuts) (fun c hc => hne c (hmem c hc))
      (fun c hc => .cut (hmem c hc)) hm

theorem nonempty_mergedCuts {m : Nat × Nat} (hm : m ∈ d.mergedCuts) : m.1 < m.2 :=
  (chained_mergedCuts hne hm).nonempty hne

theorem mem_mergedCuts_iff {c : Nat × Nat} : c ∈ d.mergedCuts ↔ IsMergedCut d.cuts c := by
  constructor
  · intro hc
    refine ⟨chained_mergedCuts hne hc, fun b hb hbc => ?_⟩
    obtain ⟨m, hm, hw⟩ := within_mergedCuts hb
    obtain ⟨h1, h2⟩ := hbc
    have e : m = c := eq_of_overlap_mergedCuts hm hc
      ⟨Nat.lt_of_le_of_lt hw.1 h1, Nat.lt_of_lt_of_le h2 hw.2⟩
    exact e ▸ hw
  · intro hc
    obtain ⟨m, hm, hw⟩ := hc.1.within_one hne
      (fun a ha b hb => eq_of_overlap_mergedCuts ha hb) (fun b hb => within_mergedCuts hb)
    have nc := hc.1.nonempty hne
    have hmc : Within m c := hc.within_of_overlap hne (chained_mergedCuts hne hm)
      ⟨Nat.lt_of_le_of_lt hw.1 nc, Nat.lt_of_lt_of_le nc hw.2⟩
    exact hw.antisymm hmc ▸ hm

theorem covered_mergedCuts (o : Nat) : covered d.mergedCuts o = covered d.cuts o := by
  rw [Bool.eq_iff_iff, covered_iff]
  constructor
  · rintro ⟨m, hm, h1, h2⟩
    exact (chained_mergedCuts hne hm).covered h1 h2
  · intro h
    obtain ⟨c, hc, h1, h2⟩ := covered_iff.mp h
    obtain ⟨m, hm, hw1, hw2⟩ := within_mergedCuts hc
    exact ⟨m, hm, Nat.le_trans hw1 h1, Nat.lt_of_lt_of_le h2 hw2⟩

/-- everything between where an insert goes and where it was planned is cut away -/
theorem covered_of_effectivePlace {place o : Nat} (h1 : effectivePlace d.mergedCuts place ≤ o)
    (h2 : o < place) : covered d.cuts o = true := by
  rcases effectivePlace_cases d.mergedCuts place with ⟨c, hc, _, hc2, e⟩ | ⟨_, e⟩
  · exact (chained_mergedCuts hne hc).covered (e ▸ h1) (by omega)
  · omega

/-- an insert that is moved leaves a covered place for a covered one -/
theorem effectivePlace_eq_self {place : Nat}
    (h : covered d.cuts place = false ∨
      covered d.cuts (effectivePlace d.mergedCuts place) = false) :
    effectivePlace d.mergedCuts place = place := by
  rcases effectivePlace_cases d.mergedCuts place with ⟨c, hc, h1, h2, e⟩ | ⟨_, e⟩
  · have hc' := chained_mergedCuts hne hc
    have hplace := hc'.covered (Nat.le_of_lt h1) h2
    have hlanding := hc'.covered (Nat.le_refl _) (Nat.lt_trans h1 h2)
    rcases h with h | h
    · rw [hplace] at h
      cases h
    · rw [e, hlanding] at h
      cases h
  · exact e

theorem effectivePlace_eq_iff (place landing : Nat) :
    effectivePlace d.mergedCuts place = landing ↔ Lands d.cuts place landing := by
  have hm := @mem_mergedCuts_iff d hne
  rcases effectivePlace_cases d.mergedCuts place with ⟨c, hc, hc1, hc2, e⟩ | ⟨hno, e⟩
  · rw [e]
    constructor
    · rintro rfl
      exact .inl ⟨c, hm.mp hc, hc1, hc2, rfl⟩
    · rintro (⟨b, hb, hb1, hb2, rfl⟩ | ⟨hno, _⟩)
      · have e : c = b := eq_of_overlap_mergedCuts hc (hm.mpr hb) ⟨by omega, by omega⟩
        rw [e]
      · exact absurd ⟨hc1, hc2⟩ (hno c (hm.mp hc))
  · rw [e]
    constructor
    · rintro rfl
      exact .inr ⟨fun c hc => hno c (hm.mpr hc), rfl⟩
    · rintro (⟨b, hb, hb1, hb2, _⟩ | ⟨_, rfl⟩)
      · exact absurd ⟨hb1, hb2⟩ (hno b (hm.mpr hb))
      · rfl

end

end SiteBundle.Draft
