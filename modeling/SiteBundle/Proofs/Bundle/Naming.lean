import Mathlib.Algebra.Group.Nat.Defs
import SiteBundle.Bundle.Registry

/-!
# Names and numbers of bundles

A name that is drawn has twelve hexadecimal digits and must not begin the name of a bundle that is
there (`IsFree`).  Drawing never comes back when no such name is left; as long as one is left,
`freshName` finds one (`isFree_freshName`):

* it tries one more name than there are bundles, and these names differ (`hexName_inj`);
* a bundle's name begins with twelve digits in only one way, so each bundle rules out one of them.

A name that is free is what its own number draws (`freshName_of_isFree`), so every free name may be
drawn.  There are more names than anyone has bundles (`exists_isFree`).

Bundles have the numbers of their places in the list, and keep them when a bundle is put behind the
others or in the place of one (`id_of_getElem?_append`, `id_of_getElem?_set`).  So the bundle that a
search ends at is there under the number it gives (`exists_of_find?`).
-/

namespace SiteBundle.Site

/-- the name begins no name of a bundle -/
def IsFree (bundles : List Bundle) (name : Text) : Prop := ∀ b ∈ bundles, ¬ name <+: b.name

/-- how many names of twelve digits there are -/
def nameCount : Nat := Nat.pow 16 12

theorem nameCount_eq : nameCount = 281474976710656 := rfl

theorem nameCount_pos : 0 < nameCount := Nat.pow_pos (by decide)

/-! ## Digits -/

theorem digitChar_inj {a b : Nat} (ha : a < 16) (hb : b < 16) (h : a.digitChar = b.digitChar) :
    a = b := by
  have hall : ∀ a < 16, ∀ b < 16, Nat.digitChar a = Nat.digitChar b → a = b := by decide
  exact hall a ha b hb h

theorem mod_pow_eq_of_digits {m n : Nat} : ∀ k : Nat,
    (∀ i < k, m / 16 ^ i % 16 = n / 16 ^ i % 16) → m % 16 ^ k = n % 16 ^ k
  | 0, _ => by rw [Nat.pow_zero, Nat.mod_one, Nat.mod_one]
  | k + 1, h => by
    have hk : m % 16 ^ k = n % 16 ^ k :=
      mod_pow_eq_of_digits k fun i hi => h i (Nat.lt_succ_of_lt hi)
    rw [Nat.mod_pow_succ, Nat.mod_pow_succ, hk, h k (Nat.lt_succ_self k)]

theorem length_hexName (n : Nat) : (hexName n).length = 12 := by
  rw [hexName, List.length_map, List.length_range]

theorem hexName_inj {m n : Nat} : hexName m = hexName n ↔ m % nameCount = n % nameCount := by
  constructor
  · intro h
    refine mod_pow_eq_of_digits 12 fun i hi => ?_
    have hget := congrArg (·[11 - i]?) h
    simp only [hexName, List.getElem?_map, List.getElem?_range (show 11 - i < 12 by omega),
      Option.map_some, Option.some.injEq] at hget
    rw [show 11 - (11 - i) = i by omega] at hget
    exact digitChar_inj (Nat.mod_lt _ (by decide)) (Nat.mod_lt _ (by decide)) hget
  · intro h
    refine List.map_congr_left fun i hi => ?_
    -- a digit only depends on the number below the next digit
    have hdigit : ∀ n : Nat, n / 16 ^ (11 - i) % 16 = n % nameCount / 16 ^ (11 - i) % 16 := by
      intro n
      have hdvd : 16 ^ (11 - i) * 16 ∣ nameCount := by
        rw [← Nat.pow_succ]
        exact Nat.pow_dvd_pow 16 (show 11 - i + 1 ≤ 12 by omega)
      rw [← Nat.mod_mul_right_div_self n, ← Nat.mod_mul_right_div_self (n % nameCount),
        Nat.mod_mod_of_dvd n hdvd]
    show Nat.digitChar (m / 16 ^ (11 - i) % 16) = Nat.digitChar (n / 16 ^ (11 - i) % 16)
    rw [hdigit m, hdigit n, h]

theorem hexName_mod (n : Nat) : hexName (n % nameCount) = hexName n :=
  hexName_inj.mpr (Nat.mod_mod n nameCount)

theorem toList_toString (n : Nat) : (toString n).toList = Nat.toDigits 10 n := by
  show (Nat.repr n).toList = _
  rw [Nat.repr_eq_ofList_toDigits, String.toList_ofList]

theorem toString_toList_inj {m n : Nat} (h : (toString m).toList = (toString n).toList) : m = n := by
  rw [toList_toString, toList_toString] at h
  have hm := Nat.ofDigitChars_toDigits (show 1 < 10 by decide) (Nat.le_refl 10) (n := m)
  have hn := Nat.ofDigitChars_toDigits (show 1 < 10 by decide) (Nat.le_refl 10) (n := n)
  rw [← hm, ← hn, h]

/-- a number is written in digits -/
theorem not_mem_toString {c : Char} (hc : c.isDigit = false) (n : Nat) :
    c ∉ (toString n).toList := by
  intro h
  rw [toList_toString] at h
  rw [Nat.isDigit_of_mem_toDigits (by decide) (by decide) h] at hc
  exact nomatch hc

/-! ## Drawing -/

variable {bundles : List Bundle}

/-- the names that are tried for a number -/
def candidates (bundles : List Bundle) (n : Nat) : List Text :=
  (List.range (bundles.length + 1)).map fun i => hexName ((n + i) % nameCount)

/-- whether a name is free, as it is tried -/
def isFree (bundles : List Bundle) (name : Text) : Bool :=
  !bundles.any fun b => name.isPrefixOf b.name

theorem isFree_iff {name : Text} : IsFree bundles name ↔ isFree bundles name = true := by
  simp only [IsFree, isFree, Bool.not_eq_true', List.any_eq_false, List.isPrefixOf_iff_prefix]

theorem freshName_eq (n : Nat) : freshName bundles n =
    ((candidates bundles n).find? (isFree bundles)).getD (hexName n) := rfl

theorem mem_candidates_of_le {m n : Nat} (h : nameCount ≤ bundles.length + 1) :
    hexName m ∈ candidates bundles n := by
  have hpos := nameCount_pos
  have hlt := Nat.mod_lt n hpos
  refine List.mem_map.mpr ⟨(m + (nameCount - n % nameCount)) % nameCount,
    List.mem_range.mpr (Nat.lt_of_lt_of_le (Nat.mod_lt _ hpos) h), ?_⟩
  rw [hexName_mod, hexName_inj, Nat.add_mod_mod]
  have hn := Nat.div_add_mod n nameCount
  rw [show n + (m + (nameCount - n % nameCount)) = m + nameCount * (n / nameCount + 1) by
    rw [Nat.mul_add]; omega, Nat.add_mul_mod_self_left]

theorem nodup_candidates {n : Nat} (h : bundles.length + 1 ≤ nameCount) :
    (candidates bundles n).Nodup := by
  refine List.pairwise_map.mpr (List.nodup_range.imp_of_mem fun {i j} hi hj hij heq => hij ?_)
  have hi := List.mem_range.mp hi
  have hj := List.mem_range.mp hj
  rw [hexName_mod, hexName_mod, hexName_inj] at heq
  rw [nameCount_eq] at heq h
  omega

/-- as many names as there are bundles are ruled out, so one more has a free one among them -/
theorem exists_isFree_candidates {n : Nat} (h : bundles.length + 1 ≤ nameCount) :
    ∃ name ∈ candidates bundles n, IsFree bundles name := by
  refine Classical.byContradiction fun hnone => ?_
  have hsub : candidates bundles n ⊆ bundles.map (·.name.take 12) := by
    intro name hname
    have htaken : ¬ IsFree bundles name := fun hfree => hnone ⟨name, hname, hfree⟩
    rw [isFree_iff, isFree, Bool.not_eq_true', Bool.not_eq_false, List.any_eq_true] at htaken
    obtain ⟨b, hb, hpre⟩ := htaken
    obtain ⟨i, _, rfl⟩ := List.mem_map.mp hname
    have htake := List.prefix_iff_eq_take.mp (List.isPrefixOf_iff_prefix.mp hpre)
    rw [length_hexName] at htake
    exact List.mem_map.mpr ⟨b, hb, htake.symm⟩
  have hle := (nodup_candidates h).length_le_of_subset hsub
  rw [candidates, List.length_map, List.length_range, List.length_map] at hle
  omega

theorem exists_isFree (h : bundles.length < nameCount) : ∃ n, IsFree bundles (hexName n) := by
  obtain ⟨name, hname, hfree⟩ := exists_isFree_candidates (n := 0) (Nat.succ_le_of_lt h)
  obtain ⟨i, _, rfl⟩ := List.mem_map.mp hname
  exact ⟨_, hfree⟩

theorem isFree_freshName (h : ∃ m, IsFree bundles (hexName m)) (n : Nat) :
    IsFree bundles (freshName bundles n) := by
  have hsome : ∃ name ∈ candidates bundles n, IsFree bundles name := by
    obtain ⟨m, hm⟩ := h
    rcases Nat.le_total nameCount (bundles.length + 1) with hle | hle
    · exact ⟨_, mem_candidates_of_le hle, hm⟩
    · exact exists_isFree_candidates hle
  obtain ⟨name, hname, hfree⟩ := hsome
  rw [freshName_eq]
  cases hfind : (candidates bundles n).find? (isFree bundles) with
  | none => exact absurd (isFree_iff.mp hfree) (List.find?_eq_none.mp hfind name hname)
  | some found => exact isFree_iff.mpr (List.find?_some hfind)

theorem freshName_of_isFree {n : Nat} (h : IsFree bundles (hexName n)) :
    freshName bundles n = hexName n := by
  have hhead : candidates bundles n = hexName n ::
      (List.range bundles.length).map fun i => hexName ((n + (i + 1)) % nameCount) := by
    rw [candidates, List.range_succ_eq_map, List.map_cons, List.map_map, Nat.add_zero, hexName_mod]
    rfl
  rw [freshName_eq, hhead, List.find?_cons_of_pos (isFree_iff.mp h), Option.getD_some]

/-! ## Numbers -/

section
variable (h : ∀ {i : Nat} {b : Bundle}, bundles[i]? = some b → b.id = i)
include h

theorem getElem?_id_of_mem {b : Bundle} (hb : b ∈ bundles) : bundles[b.id]? = some b := by
  obtain ⟨i, hi⟩ := List.mem_iff_getElem?.mp hb
  rw [h hi, hi]

theorem exists_of_find? {q : Bundle → Bool} {id : BundleId}
    (hid : (bundles.find? q).map (·.id) = some id) : ∃ b, bundles[id]? = some b ∧ q b = true := by
  obtain ⟨b, hb, rfl⟩ := Option.map_eq_some_iff.mp hid
  exact ⟨b, getElem?_id_of_mem h (List.mem_of_find?_eq_some hb), List.find?_some hb⟩

theorem id_of_getElem?_append {x : Bundle} (hx : x.id = bundles.length) {i : Nat} {b : Bundle}
    (hb : (bundles ++ [x])[i]? = some b) : b.id = i := by
  rcases Nat.lt_or_ge i bundles.length with hi | hi
  · rw [List.getElem?_append_left hi] at hb
    exact h hb
  · rw [List.getElem?_append_right hi] at hb
    have hlt := (List.getElem?_eq_some_iff.mp hb).1
    rw [List.length_singleton] at hlt
    obtain rfl : i = bundles.length := by omega
    rw [Nat.sub_self] at hb
    rw [← Option.some.inj hb, hx]

theorem id_of_getElem?_set {x : Bundle} {j i : Nat} {b : Bundle}
    (hb : (bundles.set j x)[i]? = some b) (hx : x.id = j) : b.id = i := by
  rw [List.getElem?_set] at hb
  split at hb
  · rename_i hji
    split at hb
    · rw [← Option.some.inj hb, hx, hji]
    · exact nomatch hb
  · exact h hb

end

end SiteBundle.Site
