import SiteBundle.Proofs.Text.Offsets
import SiteBundle.Text.Utf8

/-!
# Bytes of a text

The UTF-8 form of a text, part by part.  A reader that goes along the bytes sees a text of its own, with
one character for each byte (`bytewise`): ASCII characters are as they were, every other one stands
there as a few high ones.

* `IsHigh`           characters outside ASCII;
* `bytewise_cons`    the bytes of the first character, then those of the others;
* `takeWhile_bytewise`, `head?_bytewise`   a reader to which all high characters are alike sees the same
  runs and the same ASCII characters.
-/

namespace SiteBundle

open Text

/-! ## bytes -/

theorem toList_loop_eq (b : ByteArray) (i : Nat) (r : List UInt8) :
    ByteArray.toList.loop b i r = r.reverse ++ b.data.toList.drop i := by
  induction i, r using ByteArray.toList.loop.induct b with
  | case1 i r h ih =>
    have hsize : i < b.data.toList.length := h
    have hget : b.get! i = b.data.toList[i] := getElem!_pos b.data i h
    rw [ByteArray.toList.loop, if_pos h, ih, List.drop_eq_getElem_cons hsize, List.reverse_cons,
      List.append_assoc, hget]
    rfl
  | case2 i r h =>
    rw [ByteArray.toList.loop, if_neg h, List.drop_eq_nil_of_le (Nat.le_of_not_lt h), List.append_nil]

/-- the bytes of a text are those of its characters -/
theorem Utf8.bytes_eq (t : Text) : Utf8.bytes t = t.flatMap String.utf8EncodeChar :=
  (toList_loop_eq t.utf8Encode 0 []).trans List.toList_data_toByteArray

theorem Utf8.bytes_append (t u : Text) : Utf8.bytes (t ++ u) = Utf8.bytes t ++ Utf8.bytes u := by
  rw [Utf8.bytes_eq, Utf8.bytes_eq, Utf8.bytes_eq, List.flatMap_append]

/-! ## bytes as characters -/

/-- the UTF-8 form, each byte as a character -/
def bytewise (t : Text) : Text := (Utf8.bytes t).map fun b => Char.ofNat b.toNat

/-- all characters are outside ASCII -/
def IsHigh (t : Text) : Prop := ∀ c ∈ t, 0x80 ≤ c.toNat

section
variable {c d : Char} {t u w : Text}

theorem toNat_ofNat {n : Nat} (h : n < 0x100) : (Char.ofNat n).toNat = n := by
  rw [Char.ofNat, dif_pos (.inl (Nat.lt_trans h (by decide)))]
  rfl

theorem bytewise_append (t u : Text) : bytewise (t ++ u) = bytewise t ++ bytewise u := by
  rw [bytewise, Utf8.bytes_append, List.map_append, bytewise, bytewise]

theorem bytewise_nil : bytewise [] = [] := by
  rw [bytewise, Utf8.bytes_eq]
  rfl

theorem bytewise_singleton (c : Char) :
    bytewise [c] = (String.utf8EncodeChar c).map fun b => Char.ofNat b.toNat := by
  rw [bytewise, Utf8.bytes_eq, List.flatMap_singleton]

theorem bytewise_cons (c : Char) (t : Text) : bytewise (c :: t) = bytewise [c] ++ bytewise t :=
  bytewise_append [c] t

/-- an ASCII character is its own byte -/
theorem bytewise_ascii (h : c.toNat < 0x80) : bytewise [c] = [c] := by
  have hc : c.val.toNat ≤ 127 := Nat.le_of_lt_succ h
  rw [bytewise_singleton, String.utf8EncodeChar, if_pos hc, List.map_singleton, UInt8.toNat_ofNat',
    Nat.mod_eq_of_lt (Nat.lt_of_le_of_lt hc (by decide))]
  exact congrArg ([·]) (Char.ofNat_toNat c)

/-- any other character has high bytes only -/
theorem isHigh_bytewise (h : 0x80 ≤ c.toNat) : IsHigh (bytewise [c]) := by
  have hc : ¬ c.val.toNat ≤ 127 := Nat.not_le.mpr h
  have hbytes : ∀ b ∈ String.utf8EncodeChar c, 0x80 ≤ b.toNat := by
    rw [String.utf8EncodeChar, if_neg hc]
    split
    · simp only [List.forall_mem_cons, UInt8.toNat_ofNat', List.not_mem_nil, false_implies,
        implies_true, and_true]
      omega
    · split
      · simp only [List.forall_mem_cons, UInt8.toNat_ofNat', List.not_mem_nil, false_implies,
          implies_true, and_true]
        omega
      · simp only [List.forall_mem_cons, UInt8.toNat_ofNat', List.not_mem_nil, false_implies,
          implies_true, and_true]
        omega
  intro d hd
  rw [bytewise_singleton] at hd
  obtain ⟨b, hb, rfl⟩ := List.mem_map.mp hd
  rw [toNat_ofNat (UInt8.toNat_lt b)]
  exact hbytes b hb

theorem length_bytewise (t : Text) : (bytewise t).length = size t := by
  induction t with
  | nil => rw [bytewise_nil]; rfl
  | cons c t ih =>
    rw [bytewise_cons, List.length_append, ih, bytewise_singleton, List.length_map,
      String.length_utf8EncodeChar, size]

theorem bytewise_ne_nil (c : Char) : bytewise [c] ≠ [] := by
  intro h
  have hlen := length_bytewise [c]
  have hpos := c.utf8Size_pos
  rw [h, size_cons, size_nil, List.length_nil] at hlen
  omega

/-- the first byte is an ASCII character exactly if the first character is -/
theorem head?_bytewise (h : c.toNat < 0x80) : (bytewise t).head? = some c ↔ t.head? = some c := by
  cases t with
  | nil => rw [bytewise_nil]
  | cons d t =>
    rw [bytewise_cons]
    rcases Nat.lt_or_ge d.toNat 0x80 with hd | hd
    · rw [bytewise_ascii hd]
      rfl
    · obtain ⟨e, u, heq⟩ := List.exists_cons_of_ne_nil (bytewise_ne_nil d)
      have he : 0x80 ≤ e.toNat := isHigh_bytewise hd e (heq ▸ List.mem_cons_self)
      rw [heq]
      refine ⟨fun hhead => ?_, fun hhead => ?_⟩
      · rw [Option.some.inj hhead] at he
        omega
      · rw [Option.some.inj hhead] at hd
        omega

/-- an ASCII character stands among the bytes exactly if it stands in the text -/
theorem mem_bytewise (h : c.toNat < 0x80) : c ∈ bytewise t ↔ c ∈ t := by
  induction t with
  | nil => rw [bytewise_nil]
  | cons d t ih =>
    rw [bytewise_cons, List.mem_append, ih, List.mem_cons]
    refine or_congr_left ⟨fun hc => ?_, fun hc => ?_⟩
    · rcases Nat.lt_or_ge d.toNat 0x80 with hd | hd
      · rw [bytewise_ascii hd] at hc
        exact List.mem_singleton.mp hc
      · have hhigh := isHigh_bytewise hd c hc
        omega
    · rw [← hc, bytewise_ascii h]
      exact List.mem_singleton_self c

/-- an ASCII text is its own UTF-8 form, and that of no other text -/
theorem bytewise_eq_iff (hw : ∀ c ∈ w, c.toNat < 0x80) : bytewise t = w ↔ t = w := by
  induction w generalizing t with
  | nil =>
    refine ⟨fun h => List.length_eq_zero_iff.mp (Nat.eq_zero_of_le_zero ?_), ?_⟩
    · have hsize := length_bytewise t
      rw [h] at hsize
      rw [size_eq_zero hsize.symm]
      exact Nat.le_refl 0
    · rintro rfl
      exact bytewise_nil
  | cons c w ih =>
    obtain ⟨hc, hw⟩ := List.forall_mem_cons.mp hw
    refine ⟨fun h => ?_, ?_⟩
    · have hhead : t.head? = some c := (head?_bytewise hc).mp (by rw [h]; rfl)
      obtain ⟨t, rfl⟩ := List.head?_eq_some_iff.mp hhead
      rw [bytewise_cons, bytewise_ascii hc] at h
      rw [(ih hw).mp (List.cons.inj h).2]
    · rintro rfl
      rw [bytewise_cons, bytewise_ascii hc, (ih hw).mpr rfl]
      rfl

/-- the last byte, as far as a reader sees it to which all high characters are alike -/
theorem getLast?_bytewise (h : t ++ [c] = u) : ∃ d, (bytewise u).getLast? = some d ∧
    (c.toNat < 0x80 → d = c) ∧ (0x80 ≤ c.toNat → 0x80 ≤ d.toNat) := by
  subst h
  obtain ⟨w, d, heq⟩ := (List.eq_nil_or_concat (bytewise [c])).resolve_left (bytewise_ne_nil c)
  rw [List.concat_eq_append] at heq
  refine ⟨d, ?_, fun hc => ?_, fun hc => ?_⟩
  · rw [bytewise_append, heq, ← List.append_assoc, List.getLast?_concat]
  · rw [bytewise_ascii hc] at heq
    exact (List.cons.inj (List.append_inj' (heq.symm.trans (List.nil_append [c]).symm) rfl).2).1
  · exact isHigh_bytewise hc d (by rw [heq]; exact List.mem_append_right _ (List.mem_singleton_self d))

/-! ## runs -/

/-- all characters outside ASCII are alike -/
def HighAlike (p : Char → Bool) : Prop := ∀ c d : Char, 0x80 ≤ c.toNat → 0x80 ≤ d.toNat → p c = p d

variable {p : Char → Bool}

/-- the bytes of a character are of a class exactly if the character is -/
theorem HighAlike.bytewise (hp : HighAlike p) (c : Char) : ∀ d ∈ bytewise [c], p d = p c := by
  rcases Nat.lt_or_ge c.toNat 0x80 with hc | hc
  · rw [bytewise_ascii hc]
    exact List.forall_mem_singleton.mpr rfl
  · exact fun d hd => hp d c (isHigh_bytewise hc d hd) hc

/-- **A run of characters is a run of bytes.** -/
theorem takeWhile_bytewise (hp : HighAlike p) (t : Text) :
    (bytewise t).takeWhile p = bytewise (t.takeWhile p) ∧
      (bytewise t).dropWhile p = bytewise (t.dropWhile p) := by
  induction t with
  | nil => rw [bytewise_nil]; exact ⟨bytewise_nil.symm, bytewise_nil.symm⟩
  | cons c t ih =>
    have hbytes := hp.bytewise c
    rw [bytewise_cons, List.takeWhile_cons, List.dropWhile_cons]
    cases hc : p c with
    | true =>
      have hall : ∀ d ∈ SiteBundle.bytewise [c], p d = true := fun d hd => (hbytes d hd).trans hc
      rw [List.takeWhile_append_of_pos hall, List.dropWhile_append_of_pos hall, ih.1, ih.2, if_pos rfl,
        if_pos rfl]
      exact ⟨(bytewise_cons _ _).symm, rfl⟩
    | false =>
      obtain ⟨d, u, heq⟩ := List.exists_cons_of_ne_nil (bytewise_ne_nil c)
      have hd : ¬ p d = true := Bool.eq_false_iff.mp
        ((hbytes d (heq ▸ List.mem_cons_self)).trans hc)
      rw [if_neg Bool.false_ne_true, if_neg Bool.false_ne_true, bytewise_nil, bytewise_cons c t, heq,
        List.cons_append, List.takeWhile_cons_of_neg hd, List.dropWhile_cons_of_neg hd]
      exact ⟨rfl, rfl⟩

end
end SiteBundle
