import SiteBundle.Text.Blank
import SiteBundle.Text.Fold
import SiteBundle.Text.Pieces
import SiteBundle.Text.Word

/-!
# What the readers take

Readers take a front part of a text and hand back the rest, so what they take does not depend on
what follows; and a reader that stops before a character it cannot take has found the same in the
text without it.

* `cutAt?_eq_some`, `cutAt?_append`   cutting at the first separator;
* `splitOn_append`, `splitOn_of_not_mem`   cutting at every separator;
* `isWord_of_isBlank`       white space is in no word;
* `trimEndBy_concat`        trimming the end looks at one character after the other;
* `readFold?_self`          a word in small letters is read as it is written;
* `readFold?_eq_some_iff`   what is read is the word, its letters in either case;
* `readFold?_append_right`  more text behind changes nothing;
* `readFold?_of_append`     nor does less, when the word cannot reach beyond it;
* `eq_of_foldChar_eq`       what is no letter is read as itself only;
* `seek_eq_none`, `none_before_of_seek`, `seek_append`   the first place that a pattern reads at.
-/

namespace SiteBundle.Text

/-! ## separators -/

theorem cutAt?_eq_some {sep : Char} {t before behind : Text}
    (h : cutAt? sep t = some (before, behind)) : t = before ++ sep :: behind ∧ sep ∉ before := by
  induction t generalizing before with
  | nil => exact nomatch h
  | cons c t ih =>
    rw [cutAt?] at h
    split at h
    · rename_i hc
      cases h
      exact ⟨by rw [hc]; rfl, List.not_mem_nil⟩
    · rename_i hc
      obtain ⟨⟨b, r⟩, hb, e⟩ := Option.map_eq_some_iff.mp h
      cases e
      obtain ⟨rfl, hno⟩ := ih hb
      refine ⟨rfl, fun hmem => ?_⟩
      rcases List.mem_cons.mp hmem with e | hmem
      · exact hc e.symm
      · exact hno hmem

theorem cutAt?_append {sep : Char} {before : Text} (h : sep ∉ before) (behind : Text) :
    cutAt? sep (before ++ sep :: behind) = some (before, behind) := by
  induction before with
  | nil => rw [List.nil_append, cutAt?, if_pos rfl]
  | cons c before ih =>
    obtain ⟨hc, hno⟩ := List.ne_and_not_mem_of_not_mem_cons h
    rw [List.cons_append, cutAt?, if_neg (Ne.symm hc), ih hno]
    rfl

theorem splitOn_ne_nil (sep : Char) (t : Text) : splitOn sep t ≠ [] := by
  cases t with
  | nil => exact List.cons_ne_nil _ _
  | cons c t =>
    rw [splitOn]
    split
    · exact List.cons_ne_nil _ _
    · split <;> exact List.cons_ne_nil _ _

theorem splitOn_append (sep : Char) (t u : Text) :
    splitOn sep (t ++ sep :: u) = splitOn sep t ++ splitOn sep u := by
  induction t with
  | nil =>
    show splitOn sep (sep :: u) = [] :: splitOn sep u
    cases hsplit : splitOn sep u with
    | nil => exact absurd hsplit (splitOn_ne_nil sep u)
    | cons piece rest =>
      rw [splitOn, hsplit]
      exact if_pos rfl
  | cons c t ih =>
    rw [List.cons_append, splitOn, splitOn, ih]
    cases hsplit : splitOn sep t with
    | nil => exact absurd hsplit (splitOn_ne_nil sep t)
    | cons piece rest =>
      dsimp only [List.cons_append]
      split <;> rfl

theorem splitOn_of_not_mem {sep : Char} {t : Text} (h : sep ∉ t) : splitOn sep t = [t] := by
  induction t with
  | nil => rfl
  | cons c t ih =>
    obtain ⟨hc, ht⟩ := not_or.mp fun hmem => h (List.mem_cons.mpr hmem)
    rw [splitOn, ih ht]
    exact if_neg (Ne.symm hc)

/-- a piece has characters of the text other than the separator -/
theorem mem_of_mem_splitOn {sep : Char} {t piece : Text} (h : piece ∈ splitOn sep t) {c : Char}
    (hc : c ∈ piece) : c ≠ sep ∧ c ∈ t := by
  induction t generalizing piece with
  | nil =>
    rw [List.mem_singleton.mp h] at hc
    exact nomatch hc
  | cons d t ih =>
    rw [splitOn] at h
    cases hsplit : splitOn sep t with
    | nil => exact absurd hsplit (splitOn_ne_nil sep t)
    | cons first pieces =>
      rw [hsplit] at h ih
      have hlater : piece ∈ first :: pieces → c ≠ sep ∧ c ∈ d :: t := fun h =>
        (ih h hc).imp_right (List.mem_cons_of_mem d)
      dsimp only at h
      split at h
      · rcases List.mem_cons.mp h with rfl | h
        · exact nomatch hc
        · exact hlater h
      · rename_i hne
        rcases List.mem_cons.mp h with rfl | h
        · rcases List.mem_cons.mp hc with rfl | hc
          · exact ⟨hne, List.mem_cons_self⟩
          · exact (ih List.mem_cons_self hc).imp_right (List.mem_cons_of_mem d)
        · exact hlater (List.mem_cons_of_mem _ h)

/-! ## white space -/

theorem blanks_ascii : ∀ n < 0x80, isBlank (Char.ofNat n) = true →
    isWord (Char.ofNat n) = false := by
  decide

/-- the white space above ASCII lies between the ranges of word characters; `Nat.blt` is evaluated
faster than an instance for `<` -/
theorem blanks_between : ∀ blanks ∈ [(0x85, 0x85), (0xA0, 0xA0), (0x1680, 0x1680), (0x2000, 0x200A),
    (0x2028, 0x202F), (0x205F, 0x205F), (0x3000, 0x3000)],
    (wordRanges.toList.all fun range =>
      Nat.blt range.2 blanks.1 || Nat.blt blanks.2 range.1) = true := by
  decide +kernel

theorem isWord_of_isBlank {c : Char} (h : isBlank c = true) : isWord c = false := by
  by_cases hc : c.toNat < 0x80
  · have hascii := blanks_ascii c.toNat hc
    rw [Char.ofNat_toNat] at hascii
    exact hascii h
  · rw [isWord, if_neg hc, Ranges.holds, ← Array.any_toList]
    refine List.any_eq_false.mpr fun range hrange => ?_
    have hbetween := fun blanks hblanks =>
      List.all_eq_true.mp (blanks_between blanks hblanks) range hrange
    simp only [List.forall_mem_cons, Bool.or_eq_true, Nat.blt_eq] at hbetween
    simp only [isBlank, Bool.or_eq_true, Bool.and_eq_true, decide_eq_true_eq, beq_iff_eq] at h ⊢
    omega

theorem beq_of_isBlank {c d : Char} (h : isBlank c = true) (hd : isBlank d = false) :
    (c == d) = false := by
  rw [beq_eq_false_iff_ne]
  rintro rfl
  rw [h] at hd
  exact nomatch hd

theorem trimEndBy_concat {p : Char → Bool} {c : Char} (t : Text) (h : p c = false) :
    trimEndBy p (t ++ [c]) = t ++ [c] := by
  rw [trimEndBy, List.reverse_append, List.reverse_singleton, List.singleton_append,
    List.dropWhile_cons_of_neg (by rw [h]; exact Bool.false_ne_true), List.reverse_cons,
    List.reverse_reverse]

theorem trimEndBy_concat_of {p : Char → Bool} {c : Char} (t : Text) (h : p c = true) :
    trimEndBy p (t ++ [c]) = trimEndBy p t := by
  rw [trimEndBy, List.reverse_append, List.reverse_singleton, List.singleton_append,
    List.dropWhile_cons_of_pos h]
  rfl

/-! ## words in either case -/

/-- letters apart, a character that is read as another one is that character -/
theorem eq_of_foldChar_eq {c d : Char} (h : foldChar c = d) (hd : isLetter d = false) : c = d := by
  have hsmall : ∀ n < 91, 65 ≤ n → isLetter (Char.ofNat (n + 32)) = true := by decide
  unfold foldChar at h
  split at h
  · subst h
    exact nomatch hd
  · split at h
    · subst h
      exact nomatch hd
    · unfold lowerChar at h
      split at h
      · rename_i hc
        have hlow : 65 ≤ c.toNat := hc.1
        have hhigh : c.toNat ≤ 90 := hc.2
        subst h
        exact nomatch (hsmall c.toNat (by omega) hlow).symm.trans hd
      · exact h

theorem letters_words : ∀ n < 0x80, isLetter (Char.ofNat n) = true →
    isWord (Char.ofNat n) = true := by
  decide

/-- the characters above ASCII that are read as letters are word characters -/
theorem folded_words : ∀ n ∈ [0x17F, 0x212A],
    (wordRanges.toList.any fun range => range.1 ≤ n && n ≤ range.2) = true := by
  decide +kernel

theorem isWord_of_isLetter {c : Char} (h : isLetter c = true) : isWord c = true := by
  have hlow : c.toNat < 0x80 := by
    simp only [isLetter, Bool.or_eq_true, Bool.and_eq_true, decide_eq_true_eq] at h
    rcases h with ⟨-, hz⟩ | ⟨-, hz⟩
    · have hz : c.toNat ≤ 122 := hz
      omega
    · have hz : c.toNat ≤ 90 := hz
      omega
  have hword := letters_words c.toNat hlow
  rw [Char.ofNat_toNat] at hword
  exact hword h

/-- what is read as a letter belongs to words -/
theorem isWord_of_isLetter_foldChar {c : Char} (h : isLetter (foldChar c) = true) :
    isWord c = true := by
  have hfolded : ∀ d : Char, d.toNat ∈ [0x17F, 0x212A] → isWord d = true := by
    intro d hd
    have hhigh : ¬ d.toNat < 0x80 := by
      simp only [List.mem_cons, List.not_mem_nil, or_false] at hd
      omega
    rw [isWord, if_neg hhigh, Ranges.holds, ← Array.any_toList]
    exact folded_words d.toNat hd
  unfold foldChar at h
  split at h
  · rename_i hc
    exact hfolded c (hc ▸ by decide)
  · split at h
    · rename_i hc
      exact hfolded c (hc ▸ by decide)
    · unfold lowerChar at h
      split at h
      · rename_i hc
        refine isWord_of_isLetter ?_
        rw [isLetter, decide_eq_true hc.1, decide_eq_true hc.2]
        exact Bool.or_true _
      · exact isWord_of_isLetter h

theorem eq_of_map_foldChar_eq {m word : Text} (h : m.map foldChar = word)
    (hword : ∀ d ∈ word, isLetter d = false) : m = word := by
  induction m generalizing word with
  | nil => exact h
  | cons c m ih =>
    subst h
    obtain ⟨hc, hm⟩ := List.forall_mem_cons.mp hword
    rw [List.map_cons, ← eq_of_foldChar_eq rfl hc, ← ih rfl hm]

section
variable {lead t m r : Text}

theorem readFold?_self (h : ∀ c ∈ lead, foldChar c = c) (t : Text) :
    readFold? lead (lead ++ t) = some (lead, t) := by
  induction lead with
  | nil => rfl
  | cons l lead ih =>
    obtain ⟨hl, h⟩ := List.forall_mem_cons.mp h
    rw [List.cons_append, readFold?, if_pos hl, ih h]
    rfl

theorem readFold?_append_right (h : readFold? lead t = some (m, r)) (u : Text) :
    readFold? lead (t ++ u) = some (m, r ++ u) := by
  induction lead generalizing t m with
  | nil => cases h; rfl
  | cons l lead ih =>
    cases t with
    | nil => cases h
    | cons c t =>
      rw [readFold?] at h
      split at h
      · rename_i hc
        obtain ⟨p, hp, e⟩ := Option.map_eq_some_iff.mp h
        cases e
        rw [List.cons_append, readFold?, if_pos hc, ih hp]
        rfl
      · cases h

theorem readFold?_eq_some_iff :
    readFold? lead t = some (m, r) ↔ t = m ++ r ∧ m.map foldChar = lead := by
  induction lead generalizing t m with
  | nil =>
    rw [readFold?, List.map_eq_nil_iff]
    constructor
    · rintro ⟨⟩
      exact ⟨rfl, rfl⟩
    · rintro ⟨rfl, rfl⟩
      rfl
  | cons l lead ih =>
    cases t with
    | nil =>
      constructor
      · intro h
        cases h
      · rintro ⟨ht, hm⟩
        rw [(List.append_eq_nil_iff.mp ht.symm).1] at hm
        cases hm
    | cons c t =>
      rw [readFold?]
      constructor
      · intro h
        split at h
        · rename_i hc
          obtain ⟨⟨m', r'⟩, hread, e⟩ := Option.map_eq_some_iff.mp h
          cases e
          obtain ⟨rfl, rfl⟩ := ih.mp hread
          exact ⟨rfl, congrArg (· :: m'.map foldChar) hc⟩
        · cases h
      · rintro ⟨ht, hm⟩
        obtain ⟨d, m', rfl, hd, hm'⟩ := List.map_eq_cons_iff.mp hm
        obtain ⟨rfl, htail⟩ := List.cons.inj ht
        have hread : readFold? lead t = some (m', r) := ih.mpr ⟨htail, hm'⟩
        rw [if_pos hd, hread]
        rfl

/-- of two words that are read off one text one begins the other -/
theorem prefix_of_readFold? {lead' m' r' : Text} (h : readFold? lead t = some (m, r))
    (h' : readFold? lead' t = some (m', r')) : lead <+: lead' ∨ lead' <+: lead := by
  obtain ⟨ht, rfl⟩ := readFold?_eq_some_iff.mp h
  obtain ⟨ht', rfl⟩ := readFold?_eq_some_iff.mp h'
  have hprefix := List.prefix_or_prefix_of_prefix ⟨r, ht.symm⟩ ⟨r', ht'.symm⟩
  exact hprefix.imp (fun h => h.map foldChar) fun h => h.map foldChar

/-- what is read is read from itself -/
theorem readFold?_taken (h : readFold? lead t = some (m, r)) : readFold? lead m = some (m, []) := by
  induction lead generalizing t m with
  | nil => cases h; rfl
  | cons l lead ih =>
    cases t with
    | nil => cases h
    | cons c t =>
      rw [readFold?] at h
      split at h
      · rename_i hc
        obtain ⟨p, hp, e⟩ := Option.map_eq_some_iff.mp h
        cases e
        rw [readFold?, if_pos hc, ih hp]
        rfl
      · cases h

theorem readFold?_of_append {d : Char} {u : Text} (hd : foldChar d ∉ lead)
    (h : readFold? lead (t ++ d :: u) = some (m, r)) :
    ∃ r', readFold? lead t = some (m, r') ∧ r = r' ++ d :: u := by
  induction lead generalizing t m with
  | nil => cases h; exact ⟨t, rfl, rfl⟩
  | cons l lead ih =>
    obtain ⟨hl, hd⟩ := List.ne_and_not_mem_of_not_mem_cons hd
    cases t with
    | nil =>
      rw [List.nil_append, readFold?, if_neg hl] at h
      cases h
    | cons c t =>
      rw [List.cons_append, readFold?] at h
      split at h
      · rename_i hc
        obtain ⟨p, hp, e⟩ := Option.map_eq_some_iff.mp h
        cases e
        obtain ⟨r', hr', e⟩ := ih hd hp
        exact ⟨r', by rw [readFold?, if_pos hc, hr']; rfl, e⟩
      · cases h

/-- a word that has its first character nowhere else does not reach over that character -/
theorem readFold?_of_append_head {l d : Char} {v u : Text} (hd : foldChar d ∉ lead) (hv : v ≠ [])
    (h : readFold? (l :: lead) (v ++ d :: u) = some (m, r)) :
    ∃ r', readFold? (l :: lead) v = some (m, r') ∧ r = r' ++ d :: u := by
  obtain ⟨c, v, rfl⟩ := List.exists_cons_of_ne_nil hv
  rw [List.cons_append, readFold?] at h
  split at h
  · rename_i hc
    obtain ⟨⟨m', r'⟩, hread, e⟩ := Option.map_eq_some_iff.mp h
    cases e
    obtain ⟨front, hfront, rfl⟩ := readFold?_of_append hd hread
    exact ⟨front, by rw [readFold?, if_pos hc, hfront]; rfl, rfl⟩
  · cases h

end

/-! ## the first finding -/

section
variable {α : Type} {p : Text → Option (α × Text)} {t : Text}

theorem seek_eq_none :
    seek p t = none ↔ ∀ front back, t = front ++ back → back ≠ [] → p back = none := by
  induction t with
  | nil =>
    refine ⟨fun _ front back e hne => absurd ?_ hne, fun _ => rfl⟩
    exact (List.append_eq_nil_iff.mp e.symm).2
  | cons c t ih =>
    rw [seek]
    constructor
    · intro h front back e hne
      split at h
      · exact nomatch h
      · rename_i hno
        cases front with
        | nil =>
          rw [List.nil_append] at e
          rw [← e]
          exact hno
        | cons d front =>
          exact ih.mp (Option.map_eq_none_iff.mp h) front back (List.cons.inj e).2 hne
    · intro h
      rw [h [] (c :: t) rfl (List.cons_ne_nil _ _)]
      refine Option.map_eq_none_iff.mpr (ih.mpr fun front back e hne => ?_)
      exact h (c :: front) back (by rw [e]; rfl) hne

/-- nothing is found before the first finding -/
theorem none_before_of_seek {before rest : Text} {a : α} (h : seek p t = some (before, a, rest)) :
    ∃ u, t = before ++ u ∧ p u = some (a, rest) ∧
      ∀ front back, before = front ++ back → back ≠ [] → p (back ++ u) = none := by
  induction t generalizing before with
  | nil => exact nomatch h
  | cons c t ih =>
    rw [seek] at h
    split at h
    · rename_i hread
      cases h
      exact ⟨c :: t, rfl, hread, fun front back e hne =>
        absurd (List.append_eq_nil_iff.mp e.symm).2 hne⟩
    · rename_i hno
      obtain ⟨⟨b, a', r'⟩, hx, e⟩ := Option.map_eq_some_iff.mp h
      cases e
      obtain ⟨u, rfl, hread, hbefore⟩ := ih hx
      refine ⟨u, rfl, hread, fun front back e hne => ?_⟩
      cases front with
      | nil =>
        rw [List.nil_append] at e
        rw [← e]
        exact hno
      | cons d front => exact hbefore front back (List.cons.inj e).2 hne

/-- nothing is found in a text, whatever follows, up to a place where something is found -/
theorem seek_append {u rest : Text} {a : α}
    (ht : ∀ front back, t = front ++ back → back ≠ [] → p (back ++ u) = none) (hu : u ≠ [])
    (h : p u = some (a, rest)) : seek p (t ++ u) = some (t, a, rest) := by
  induction t with
  | nil =>
    cases u with
    | nil => exact absurd rfl hu
    | cons d u =>
      rw [List.nil_append, seek, h]
  | cons c t ih =>
    have hc := ht [] (c :: t) rfl (List.cons_ne_nil _ _)
    rw [List.cons_append] at hc ⊢
    rw [seek, hc, ih fun front back e => ht (c :: front) back (by rw [e]; rfl)]
    rfl

end
end SiteBundle.Text
