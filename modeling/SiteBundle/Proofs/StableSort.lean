/-!
# Lists in order, and sorting

Of two members of a list one stands before the other (`eq_or_related_of_pairwise`,
`sublist_or_sublist`), and in a list without repetitions not the other way too (`not_sublist_swap`).
`List.mergeSort` is stable: the members of a class whose members all stand in order already are not
moved among each other.
-/

namespace SiteBundle

variable {α : Type} {le : α → α → Bool}

/-- of two members of a list one stands before the other -/
theorem eq_or_related_of_pairwise {R : α → α → Prop} {l : List α} (h : l.Pairwise R) {x y : α}
    (hx : x ∈ l) (hy : y ∈ l) : x = y ∨ R x y ∨ R y x := by
  have hup : l.Pairwise fun x y => x = y ∨ R x y ∨ R y x := h.imp fun h => .inr (.inl h)
  have hdown : l.Pairwise fun x y => y = x ∨ R y x ∨ R x y := h.imp fun h => .inr (.inr h)
  exact hup.forall_of_forall_of_flip (fun z _ => .inl rfl) hdown hx hy

theorem sublist_or_sublist {l : List α} {x y : α} (hx : x ∈ l) (hy : y ∈ l) (hne : x ≠ y) :
    [x, y].Sublist l ∨ [y, x].Sublist l :=
  (eq_or_related_of_pairwise (List.pairwise_iff_forall_sublist.mpr id) hx hy).resolve_left hne

theorem not_sublist_swap {l : List α} {x y : α} (hl : l.Nodup) (h : [x, y].Sublist l) :
    ¬ [y, x].Sublist l := by
  intro hswap
  induction l with
  | nil => cases h
  | cons z l ih =>
    obtain ⟨hz, hl⟩ := List.nodup_cons.mp hl
    rcases List.sublist_cons_iff.mp h with hxy | ⟨_, e, hy⟩
    · rcases List.sublist_cons_iff.mp hswap with hyx | ⟨_, e, _⟩
      · exact ih hl hxy hyx
      · cases e
        exact hz (hxy.subset (List.mem_cons_of_mem _ List.mem_cons_self))
    · cases e
      rcases List.sublist_cons_iff.mp hswap with hyx | ⟨_, e, _⟩
      · exact hz (hyx.subset (List.mem_cons_of_mem _ List.mem_cons_self))
      · cases e
        exact hz (List.singleton_sublist.mp hy)

theorem ne_of_sublist {l : List α} {x y : α} (hl : l.Nodup) (h : [x, y].Sublist l) : x ≠ y :=
  fun e => not_sublist_swap hl h (e ▸ e ▸ h)

theorem filter_mergeSort (trans : ∀ a b c, le a b → le b c → le a c)
    (total : ∀ a b, le a b || le b a) {l : List α} {q : α → Bool}
    (h : (l.filter q).Pairwise fun a b => le a b) : (l.mergeSort le).filter q = l.filter q := by
  have hsub : (l.filter q).Sublist ((l.mergeSort le).filter q) := by
    have hs := (List.sublist_mergeSort trans total h List.filter_sublist).filter q
    rwa [List.filter_filter, List.filter_congr (fun a _ => Bool.and_self (q a))] at hs
  have hlen : (l.filter q).length = ((l.mergeSort le).filter q).length :=
    ((List.mergeSort_perm l le).filter q).length_eq.symm
  exact (hsub.eq_of_length hlen).symm

section
variable (key : α → Nat) (l : List α)

theorem pairwise_sort_asc :
    (l.mergeSort fun a b => decide (key a ≤ key b)).Pairwise fun a b => key a ≤ key b := by
  have h := @List.pairwise_mergeSort _ (fun a b => decide (key a ≤ key b))
    (fun a b c => by simp only [decide_eq_true_iff]; omega)
    (fun a b => by simp only [Bool.or_eq_true, decide_eq_true_iff]; omega) l
  exact h.imp fun hab => decide_eq_true_iff.mp hab

variable {key l} in
theorem sublist_sort_asc {x y : α} (h : [x, y].Sublist l) (hle : key x ≤ key y) :
    [x, y].Sublist (l.mergeSort fun a b => decide (key a ≤ key b)) :=
  List.pair_sublist_mergeSort (fun a b c => by simp only [decide_eq_true_iff]; omega)
    (fun a b => by simp only [Bool.or_eq_true, decide_eq_true_iff]; omega) (decide_eq_true hle) h

variable {key l} in
theorem sublist_sort_of_lt {x y : α} (hx : x ∈ l) (hy : y ∈ l) (hlt : key x < key y) :
    [x, y].Sublist (l.mergeSort fun a b => decide (key a ≤ key b)) := by
  have hne : x ≠ y := fun e => Nat.lt_irrefl _ (e ▸ hlt)
  refine (sublist_or_sublist (List.mem_mergeSort.mpr hx) (List.mem_mergeSort.mpr hy)
    hne).resolve_right fun h => ?_
  exact Nat.not_le_of_lt hlt (List.pairwise_iff_forall_sublist.mp (pairwise_sort_asc key l) h)

theorem pairwise_sort_desc :
    (l.mergeSort fun a b => decide (key b ≤ key a)).Pairwise fun a b => key b ≤ key a := by
  have h := @List.pairwise_mergeSort _ (fun a b => decide (key b ≤ key a))
    (fun a b c => by simp only [decide_eq_true_iff]; omega)
    (fun a b => by simp only [Bool.or_eq_true, decide_eq_true_iff]; omega) l
  exact h.imp fun hab => decide_eq_true_iff.mp hab

/-- sorting in descending order keeps the order of those with one key -/
theorem filter_sort_desc (k : Nat) :
    (l.mergeSort fun a b => decide (key b ≤ key a)).filter (fun a => key a == k) =
      l.filter fun a => key a == k := by
  refine filter_mergeSort
    (fun a b c => by simp only [decide_eq_true_iff]; omega)
    (fun a b => by simp only [Bool.or_eq_true, decide_eq_true_iff]; omega) ?_
  refine List.pairwise_iff_forall_sublist.mpr fun {a b} h => ?_
  have ha := (List.mem_filter.mp (h.subset List.mem_cons_self)).2
  have hb := (List.mem_filter.mp (h.subset (by simp : b ∈ [a, b]))).2
  rw [beq_iff_eq] at ha hb
  exact decide_eq_true (by omega)

end
end SiteBundle
