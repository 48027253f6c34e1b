import Mathlib.Data.List.Induction
import Mathlib.Data.List.Nodup
import SiteBundle.Disk.Basic

/-!
# What a listing holds

On a sound disk every place has one entry, and what is in a folder has the folder above it
(`Disk.Sound`).  A listing holds everything below a folder (`mem_listing`), in the order of the places
(`pairwise_listing`), so folders come before what is in them.
-/

namespace SiteBundle

/-! ## the order of places -/

theorem nameLt_iff {a b : Text} : nameLt a b = true ↔ a < b := by
  induction a generalizing b with
  | nil => cases b <;> simp [nameLt]
  | cons c a ih =>
    cases b with
    | nil => simp [nameLt]
    | cons d b => simp [nameLt, ih, List.cons_lt_cons_iff]

theorem Place.lt_iff {p q : Place} : Place.lt p q = true ↔ p < q := by
  induction p generalizing q with
  | nil => cases q <;> simp [Place.lt]
  | cons a p ih =>
    cases q with
    | nil => simp [Place.lt]
    | cons b q => simp [Place.lt, ih, nameLt_iff, List.cons_lt_cons_iff]

theorem Place.not_lt_iff {p q : Place} : (!Place.lt q p) = true ↔ ¬ q < p := by
  rw [Bool.not_eq_true', ← Bool.not_eq_true, Place.lt_iff]

/-- a folder comes before what is in it -/
theorem Place.lt_concat (p : Place) (name : Text) : p < p ++ [name] := by
  induction p with
  | nil => exact List.nil_lt_cons _ _
  | cons a p ih => exact List.cons_lt_cons_iff.mpr (.inr ⟨rfl, ih⟩)

namespace Disk

/-- each place has one entry, and the place above it is a folder -/
structure Sound (d : Disk) : Prop where
  once : (d.entries.map (·.1)).Nodup
  above : ∀ x ∈ d.entries, x.1 ≠ [] ∧ d.isFolder x.1.dropLast = true

variable {d : Disk} {p top : Place}

theorem isFolder_iff : d.isFolder p = true ↔ d.get? p = some .folder := by
  rw [isFolder, beq_iff_eq]

theorem mem_of_get? {e : Entry} (hp : p ≠ []) (h : d.get? p = some e) : (p, e) ∈ d.entries := by
  rw [get?, List.isEmpty_eq_false_iff.mpr hp, if_neg Bool.false_ne_true] at h
  obtain ⟨⟨p', e'⟩, hfind, rfl⟩ := Option.map_eq_some_iff.mp h
  have hplace := List.find?_some hfind
  rw [beq_iff_eq] at hplace
  exact hplace ▸ List.mem_of_find?_eq_some hfind

theorem get?_of_mem (honce : (d.entries.map (·.1)).Nodup) (hp : p ≠ []) {e : Entry}
    (hmem : (p, e) ∈ d.entries) : d.get? p = some e := by
  rw [get?, List.isEmpty_eq_false_iff.mpr hp, if_neg Bool.false_ne_true]
  obtain ⟨x, hx⟩ : ∃ x, d.entries.find? (·.1 == p) = some x :=
    Option.isSome_iff_exists.mp (List.find?_isSome.mpr ⟨_, hmem, beq_self_eq_true p⟩)
  have hplace := List.find?_some hx
  rw [beq_iff_eq] at hplace
  rw [hx, List.inj_on_of_nodup_map honce (List.mem_of_find?_eq_some hx) hmem hplace]
  rfl

namespace Sound

theorem get? (h : d.Sound) {e : Entry} (hmem : (p, e) ∈ d.entries) : d.get? p = some e :=
  get?_of_mem h.once (h.above _ hmem).1 hmem

/-- what is below a place makes it a folder -/
theorem isFolder_of_below (h : d.Sound) {rest : Place} {e : Entry} (hrest : rest ≠ [])
    (hmem : (top ++ rest, e) ∈ d.entries) : d.isFolder top = true := by
  induction rest using List.reverseRecOn generalizing e with
  | nil => exact absurd rfl hrest
  | append_singleton rest name ih =>
    have habove := (h.above _ hmem).2
    rw [← List.append_assoc, List.dropLast_concat] at habove
    cases rest with
    | nil =>
      rw [List.append_nil] at habove
      exact habove
    | cons a rest =>
      have hne : top ++ a :: rest ≠ [] := List.append_ne_nil_of_right_ne_nil _ (List.cons_ne_nil _ _)
      exact ih (List.cons_ne_nil _ _) (mem_of_get? hne (isFolder_iff.mp habove))

/-- below a place that is not there is nothing -/
theorem get?_append (h : d.Sound) (hnone : d.get? p = none) (rest : Place) :
    d.get? (p ++ rest) = none := by
  by_cases hrest : rest = []
  · rw [hrest, List.append_nil, hnone]
  · cases hget : d.get? (p ++ rest) with
    | none => rfl
    | some e =>
      have hmem := mem_of_get? (List.append_ne_nil_of_right_ne_nil _ hrest) hget
      have hfolder := isFolder_iff.mp (h.isFolder_of_below hrest hmem)
      exact nomatch hnone.symm.trans hfolder

end Sound

/-! ## listings -/

/-- what is below a place, with the names on the way from there, as the disk has it -/
def inside (d : Disk) (top : Place) : List (Place × Entry) :=
  (d.entries.filter fun x => x.1.within top && x.1 != top).map fun x => (x.1.drop top.length, x.2)

theorem listing_perm (d : Disk) (top : Place) : (d.listing top).Perm (d.inside top) :=
  List.mergeSort_perm _ _

theorem listing_of_pairwise (h : (d.inside top).Pairwise fun a b => !Place.lt b.1 a.1) :
    d.listing top = d.inside top :=
  List.mergeSort_of_pairwise h

theorem mem_listing {e : Entry} :
    (p, e) ∈ d.listing top ↔ (top ++ p, e) ∈ d.entries ∧ p ≠ [] := by
  unfold listing
  rw [List.mem_mergeSort, List.mem_map]
  constructor
  · rintro ⟨⟨q, e'⟩, hq, he⟩
    obtain ⟨hmem, hbelow⟩ := List.mem_filter.mp hq
    obtain ⟨rfl, rfl⟩ := Prod.mk.inj he
    rw [Bool.and_eq_true, bne_iff_ne, Place.within, List.isPrefixOf_iff_prefix] at hbelow
    obtain ⟨⟨rest, rfl⟩, hne⟩ := hbelow
    rw [List.drop_left]
    refine ⟨hmem, ?_⟩
    rintro rfl
    exact hne (List.append_nil _)
  · rintro ⟨hmem, hp⟩
    refine ⟨(top ++ p, e), List.mem_filter.mpr ⟨hmem, ?_⟩, by rw [List.drop_left]⟩
    rw [Bool.and_eq_true, bne_iff_ne, Place.within, List.isPrefixOf_iff_prefix]
    refine ⟨List.prefix_append _ _, fun heq => hp ?_⟩
    exact List.append_cancel_left (heq.trans (List.append_nil top).symm)

/-- no place is listed twice -/
theorem nodup_listing (honce : (d.entries.map (·.1)).Nodup) (top : Place) :
    ((d.listing top).map (·.1)).Nodup := by
  rw [((d.listing_perm top).map _).nodup_iff, inside, List.map_map]
  refine List.Nodup.map_on (fun x hx y hy hxy => ?_) ((List.Nodup.of_map _ honce).filter _)
  obtain ⟨hx, hxtop⟩ := List.mem_filter.mp hx
  obtain ⟨hy, hytop⟩ := List.mem_filter.mp hy
  simp only [Bool.and_eq_true, Place.within, List.isPrefixOf_iff_prefix] at hxtop hytop
  obtain ⟨⟨a, ha⟩, -⟩ := hxtop
  obtain ⟨⟨b, hb⟩, -⟩ := hytop
  refine List.inj_on_of_nodup_map honce hx hy ?_
  rw [Function.comp_apply, Function.comp_apply, ← ha, ← hb, List.drop_left, List.drop_left] at hxy
  rw [← ha, ← hb]
  exact congrArg (top ++ ·) hxy

theorem pairwise_listing (d : Disk) (top : Place) :
    (d.listing top).Pairwise fun x y => ¬ y.1 < x.1 := by
  refine (List.pairwise_mergeSort (fun a b c hab hbc => ?_) (fun a b => ?_) _).imp fun {x y} hxy =>
    Place.not_lt_iff.mp hxy
  · rw [Place.not_lt_iff, List.not_lt] at hab hbc ⊢
    exact List.le_trans hab hbc
  · rw [Bool.or_eq_true, Place.not_lt_iff, Place.not_lt_iff, List.not_lt, List.not_lt]
    exact List.le_total _ _

end Disk
end SiteBundle
