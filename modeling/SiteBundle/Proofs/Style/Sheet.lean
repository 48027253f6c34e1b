import SiteBundle.Proofs.Style.Address
import SiteBundle.Proofs.Text.Replacing

/-!
# The references of a sheet

A sheet refers to files in two `Way`s.  In a sheet that is `Legible` every text that begins like a
reference is one, and no reference holds what begins like one of the other kind; so the searches for
the two kinds find its references, each at its place (`Legible.foundIn`).

Such sheets may be put behind each other with empty lines between them (`legible_join`), and their
references may be written otherwise (`Legible.rebase`): a text that begins like a reference begins so
before and after.

* `Way.find?_eq_some_iff`    a reference, with what stands around its address;
* `Reference.Quotable`       an address that can be written so;
* `Reference.Movable`        a reference that can be written for another directory.
-/

namespace SiteBundle

open Text

/-! ## the two ways to refer to a file -/

inductive Way where
  | url
  | sheet
deriving DecidableEq

namespace Way

def other : Way → Way
  | .url => .sheet
  | .sheet => .url

/-- what a reference begins with, in either case -/
def word : Way → Text
  | .url => "url(".toList
  | .sheet => "@import".toList

def find? : Way → Text → Option (Reference × Text)
  | .url => urlReference?
  | .sheet => importReference?

/-- what is written in front of a quote -/
def opening : Way → Text
  | .url => "url(".toList
  | .sheet => "@import ".toList

def closing : Way → Text
  | .url => [')']
  | .sheet => []

end Way

/-! ### what begins like a reference -/

/-- a character of an address without quotes -/
def isBareChar (c : Char) : Bool := !(c == ')' || isBlank c)

/-- Where an address should stand, none does, whatever else the text may turn into: nothing is there, or
words, and no reference begins in the first of them. -/
inductive NoAddress : Text → Prop
  | closed (u : Text) : NoAddress (')' :: u)
  | words {c d : Char} {a b : Text} (u : Text) (hc : isQuote c = false)
      (ha : ∀ e ∈ c :: a, isBareChar e = true ∧ foldChar e ≠ '(' ∧ foldChar e ≠ '@')
      (hb : ∀ e ∈ b, isBlank e = true) (hne : b ≠ []) (hd : isBlank d = false ∧ d ≠ ')') :
      NoAddress (c :: a ++ (b ++ d :: u))

/-- The text begins like a reference.  It is one, or may turn into one when there is more text behind
it. -/
def Way.Opens : Way → Text → Prop
  | .url, t => ∃ m r, readFold? "url(".toList t = some (m, r) ∧ ¬ NoAddress (r.dropWhile isBlank)
  | .sheet, t => ∃ m r, readFold? "@import".toList t = some (m, r) ∧
      ∀ c ∈ (r.dropWhile isBlank).head?, isQuote c = true

/-- the text of an address with its quotes -/
def Reference.text (r : Reference) : Text := r.quote ++ (r.url ++ r.quote)

/-- an address that is read as it is written -/
inductive Reference.Quotable (r : Reference) (w : Way) : Prop
  | quoted (q : Char) (hq : isQuote q = true) (hquote : r.quote = [q]) (hno : q ∉ r.url)
  | bare (hw : w = .url) (hquote : r.quote = []) (hne : r.url ≠ [])
      (hhead : ∀ c ∈ r.url.head?, isQuote c = false)
      (hall : ∀ c ∈ r.url, c ≠ ')' ∧ isBlank c = false)

/-- what stands in front of an address -/
def Way.Front (w : Way) (t : Text) : Prop :=
  ∃ word b, t = word ++ b ∧ readFold? w.word word = some (word, []) ∧ (∀ c ∈ b, isBlank c = true) ∧
    (w = .sheet → b ≠ [])

/-- what stands behind an address -/
def Way.Back : Way → Text → Prop
  | .url, t => ∃ b, t = b ++ [')'] ∧ ∀ c ∈ b, isBlank c = true
  | .sheet, t => t = []

section
variable {w : Way} {r : Reference} {t rest m : Text}

theorem quotedAddress?_eq_some_iff : quotedAddress? t = some (r, rest) ↔
    ∃ q, isQuote q = true ∧ r.quote = [q] ∧ q ∉ r.url ∧ t = r.text ++ rest := by
  have hcut : ∀ q v, (cutAt? q v).map (fun p => ((⟨[q], p.1⟩ : Reference), p.2)) = some (r, rest) →
      r.quote = [q] ∧ q ∉ r.url ∧ q :: v = r.text ++ rest := by
    intro q v h
    obtain ⟨⟨before, behind⟩, hcut, e⟩ := Option.map_eq_some_iff.mp h
    cases e
    obtain ⟨rfl, hno⟩ := cutAt?_eq_some hcut
    exact ⟨rfl, hno, by simp [Reference.text]⟩
  constructor
  · intro h
    unfold quotedAddress? at h
    split at h
    · obtain ⟨hquote, hno, ht⟩ := hcut _ _ h
      exact ⟨'"', rfl, hquote, hno, ht⟩
    · obtain ⟨hquote, hno, ht⟩ := hcut _ _ h
      exact ⟨'\'', rfl, hquote, hno, ht⟩
    · exact nomatch h
  · rintro ⟨q, hq, hquote, hno, ht⟩
    have hv : t = q :: (r.url ++ q :: rest) := by
      rw [ht, Reference.text, hquote]
      simp
    rcases Bool.or_eq_true_iff.mp hq with hq | hq
    · obtain rfl := beq_iff_eq.mp hq
      rw [hv, quotedAddress?, cutAt?_append hno, Option.map_some, ← hquote]
    · obtain rfl := beq_iff_eq.mp hq
      rw [hv, quotedAddress?, cutAt?_append hno, Option.map_some, ← hquote]

theorem isBareChar_iff {c : Char} : isBareChar c = true ↔ c ≠ ')' ∧ isBlank c = false := by
  rw [isBareChar, Bool.not_eq_true', Bool.or_eq_false_iff, beq_eq_false_iff_ne]

theorem isQuote_eq_false_iff {c : Char} : isQuote c = false ↔ c ≠ '"' ∧ c ≠ '\'' := by
  rw [isQuote, Bool.or_eq_false_iff, beq_eq_false_iff_ne, beq_eq_false_iff_ne]

/-- where an address without quotes ends -/
theorem span_isBareChar {u : Text} (hu : ∀ c ∈ u, isBareChar c = true)
    (hrest : ∀ c ∈ rest.head?, isBareChar c = false) :
    (u ++ rest).takeWhile isBareChar = u ∧ (u ++ rest).dropWhile isBareChar = rest := by
  rw [List.takeWhile_append_of_pos hu, List.dropWhile_append_of_pos hu]
  cases rest with
  | nil => exact ⟨List.append_nil u, rfl⟩
  | cons d rest =>
    have hd : ¬ isBareChar d = true := Bool.eq_false_iff.mp (hrest d rfl)
    rw [List.takeWhile_cons_of_neg hd, List.dropWhile_cons_of_neg hd]
    exact ⟨List.append_nil u, rfl⟩

theorem bareAddress?_eq_some_iff : bareAddress? t = some (r, rest) ↔
    r.quote = [] ∧ r.url ≠ [] ∧ (∀ c ∈ r.url.head?, isQuote c = false) ∧
      (∀ c ∈ r.url, c ≠ ')' ∧ isBlank c = false) ∧ t = r.url ++ rest ∧
      ∀ c ∈ rest.head?, c = ')' ∨ isBlank c = true := by
  constructor
  · intro h
    cases t with
    | nil => exact nomatch h
    | cons c u =>
      rw [bareAddress?] at h
      split at h
      · exact nomatch h
      · rename_i hc
        obtain ⟨h₁, h₂, h₃, h₄⟩ : c ≠ '"' ∧ c ≠ '\'' ∧ c ≠ ')' ∧ ¬ isBlank c = true := by
          simpa only [not_or] using hc
        cases h
        refine ⟨rfl, List.cons_ne_nil _ _, ?_, ?_, ?_, ?_⟩
        · rintro d ⟨⟩
          exact isQuote_eq_false_iff.mpr ⟨h₁, h₂⟩
        · intro d hd
          rcases List.mem_cons.mp hd with rfl | hd
          · exact ⟨h₃, Bool.eq_false_iff.mpr h₄⟩
          · exact isBareChar_iff.mp (List.all_eq_true.mp List.all_takeWhile d hd)
        · exact congrArg (c :: ·) List.takeWhile_append_dropWhile.symm
        · intro d hd
          have hnot := List.head?_dropWhile_not isBareChar u
          rw [show (u.dropWhile isBareChar).head? = some d from hd] at hnot
          exact or_iff_not_imp_left.mpr (by simpa [isBareChar] using hnot)
  · rintro ⟨hempty, hne, hhead, hall, rfl, hrest⟩
    obtain ⟨quote, url⟩ := r
    obtain rfl : quote = [] := hempty
    obtain ⟨c, u, rfl⟩ := List.exists_cons_of_ne_nil hne
    obtain ⟨hc, hu⟩ := List.forall_mem_cons.mp hall
    obtain ⟨hdouble, hsingle⟩ := isQuote_eq_false_iff.mp (hhead c rfl)
    have hstop : ∀ d ∈ rest.head?, isBareChar d = false := by
      intro d hd
      rw [← Bool.not_eq_true, isBareChar_iff]
      rintro ⟨h₁, h₂⟩
      exact (hrest d hd).elim h₁ fun h => nomatch h₂.symm.trans h
    obtain ⟨htake, hdrop⟩ := span_isBareChar (fun d hd => isBareChar_iff.mpr (hu d hd)) hstop
    rw [List.cons_append, bareAddress?, if_neg]
    · show some ((⟨[], c :: (u ++ rest).takeWhile isBareChar⟩ : Reference),
        (u ++ rest).dropWhile isBareChar) = _
      rw [htake, hdrop]
    · rw [not_or, not_or, not_or]
      exact ⟨hdouble, hsingle, hc.1, Bool.eq_false_iff.mp hc.2⟩

/-- an address with or without quotes -/
theorem address_eq_some_iff : (quotedAddress? t).or (bareAddress? t) = some (r, rest) ↔
    r.Quotable .url ∧ t = r.text ++ rest ∧
      (r.quote = [] → ∀ c ∈ rest.head?, c = ')' ∨ isBlank c = true) := by
  constructor
  · intro h
    rcases Option.or_eq_some_iff.mp h with h | ⟨-, h⟩
    · obtain ⟨q, hq, hquote, hno, ht⟩ := quotedAddress?_eq_some_iff.mp h
      refine ⟨.quoted q hq hquote hno, ht, fun hnil => ?_⟩
      rw [hquote] at hnil
      exact nomatch hnil
    · obtain ⟨hquote, hne, hhead, hall, ht, hrest⟩ := bareAddress?_eq_some_iff.mp h
      refine ⟨.bare rfl hquote hne hhead hall, ?_, fun _ => hrest⟩
      rw [ht, Reference.text, hquote, List.nil_append, List.append_nil]
  · rintro ⟨hquotable, ht, hrest⟩
    cases hquotable with
    | quoted q hq hquote hno =>
      rw [quotedAddress?_eq_some_iff.mpr ⟨q, hq, hquote, hno, ht⟩]
      rfl
    | bare hw hquote hne hhead hall =>
      have ht' : t = r.url ++ rest := by
        rw [ht, Reference.text, hquote, List.nil_append, List.append_nil]
      have hread := bareAddress?_eq_some_iff.mpr ⟨hquote, hne, hhead, hall, ht', hrest hquote⟩
      have hno : quotedAddress? t = none := by
        refine Option.eq_none_iff_forall_ne_some.mpr fun ⟨r', rest'⟩ h => ?_
        obtain ⟨q, hq, hquote', -, h⟩ := quotedAddress?_eq_some_iff.mp h
        obtain ⟨c, u, hu⟩ := List.exists_cons_of_ne_nil hne
        rw [ht', hu, Reference.text, hquote'] at h
        have hc := hhead c (by rw [hu]; rfl)
        rw [(List.cons.inj h).1, hq] at hc
        exact nomatch hc
      rw [hno, hread]
      rfl

theorem isBlank_of_isQuote {c : Char} (h : isQuote c = true) : isBlank c = false := by
  rcases Bool.or_eq_true_iff.mp h with h | h
  · rw [beq_iff_eq.mp h]
    rfl
  · rw [beq_iff_eq.mp h]
    rfl

/-- a written address does not begin with white space -/
theorem Reference.Quotable.head (h : r.Quotable w) (u : Text) :
    ∀ c ∈ (r.text ++ u).head?, isBlank c = false := by
  intro c hc
  cases h with
  | quoted q hq hquote hno =>
    rw [Reference.text, hquote] at hc
    cases hc
    exact isBlank_of_isQuote hq
  | bare hw hquote hne hhead hall =>
    obtain ⟨d, v, hv⟩ := List.exists_cons_of_ne_nil hne
    rw [Reference.text, hquote, hv] at hc
    obtain rfl : d = c := Option.some.inj hc
    exact (hall d (hv ▸ List.mem_cons_self)).2

theorem dropWhile_blank {b u : Text} (hb : ∀ c ∈ b, isBlank c = true)
    (hu : ∀ c ∈ u.head?, isBlank c = false) : (b ++ u).dropWhile isBlank = u := by
  rw [List.dropWhile_append_of_pos hb]
  cases u with
  | nil => rfl
  | cons c u => exact List.dropWhile_cons_of_neg (by rw [hu c rfl]; exact Bool.false_ne_true)

/-- the word and the white space in front of an address are read as they are written -/
theorem Way.Front.read {front : Text} (h : w.Front front) (hquotable : r.Quotable w) (u : Text) :
    ∃ word b, readFold? w.word (front ++ (r.text ++ u)) = some (word, b ++ (r.text ++ u)) ∧
      (∀ c ∈ b, isBlank c = true) ∧ (w = .sheet → b ≠ []) ∧
      (b ++ (r.text ++ u)).dropWhile isBlank = r.text ++ u := by
  obtain ⟨word, b, rfl, hword, hb, hne⟩ := h
  have hread := readFold?_append_right hword (b ++ (r.text ++ u))
  rw [List.nil_append, ← List.append_assoc] at hread
  exact ⟨word, b, hread, hb, hne, dropWhile_blank hb (hquotable.head u)⟩

/-- what was read stands around an address that can be written so -/
theorem Way.exists_around_of_find? (h : w.find? t = some (r, rest)) : r.Quotable w ∧ ∃ front back,
    t = front ++ (r.text ++ (back ++ rest)) ∧ w.Front front ∧ w.Back back := by
  cases w with
  | url =>
    obtain ⟨⟨word, u⟩, hword, h⟩ := Option.bind_eq_some_iff.mp h
    obtain ⟨⟨r', v⟩, haddress, h⟩ := Option.bind_eq_some_iff.mp h
    dsimp only at haddress h
    split at h
    · rename_i hclose
      cases h
      obtain ⟨hquotable, hu, -⟩ := address_eq_some_iff.mp haddress
      refine ⟨hquotable, word ++ u.takeWhile isBlank, v.takeWhile isBlank ++ [')'], ?_,
        ⟨word, _, rfl, readFold?_taken hword, List.all_eq_true.mp List.all_takeWhile, nofun⟩,
        _, rfl, List.all_eq_true.mp List.all_takeWhile⟩
      rw [List.append_assoc, List.append_assoc (v.takeWhile isBlank), List.singleton_append, ← hclose,
        List.takeWhile_append_dropWhile, ← hu, List.takeWhile_append_dropWhile,
        readFold?_append hword]
    · exact nomatch h
  | sheet =>
    obtain ⟨⟨word, u⟩, hword, h⟩ := Option.bind_eq_some_iff.mp h
    dsimp only at h
    split at h
    · exact nomatch h
    · rename_i hblank
      obtain ⟨q, hq, hquote, hno, hu⟩ := quotedAddress?_eq_some_iff.mp h
      refine ⟨.quoted q hq hquote hno, word ++ u.takeWhile isBlank, [], ?_, ⟨word, _, rfl,
        readFold?_taken hword, List.all_eq_true.mp List.all_takeWhile, fun _ hnil => ?_⟩, rfl⟩
      · rw [List.append_assoc, List.nil_append, ← hu, List.takeWhile_append_dropWhile,
          readFold?_append hword]
      · exact hblank (List.isEmpty_iff.mpr hnil)

/-- an address that can be written so is read in front of what closes it -/
theorem Way.find?_around {front back : Text} (hquotable : r.Quotable w) (hfront : w.Front front)
    (hback : w.Back back) (rest : Text) :
    w.find? (front ++ (r.text ++ (back ++ rest))) = some (r, rest) := by
  obtain ⟨word, b, hread, hb, hne, hdrop⟩ := hfront.read hquotable (back ++ rest)
  cases w with
  | url =>
    obtain ⟨b', rfl, hb'⟩ := hback
    have hclose : ((b' ++ [')']) ++ rest).dropWhile isBlank = ')' :: rest := by
      rw [List.append_assoc]
      refine dropWhile_blank hb' ?_
      rintro c ⟨⟩
      rfl
    have hends : ∀ c ∈ (b' ++ [')'] ++ rest).head?, c = ')' ∨ isBlank c = true := by
      intro c hc
      cases b' with
      | nil => exact .inl (Option.some.inj hc).symm
      | cons d b' =>
        obtain rfl : d = c := Option.some.inj hc
        exact .inr (hb' d List.mem_cons_self)
    have haddress := address_eq_some_iff.mpr ⟨hquotable, rfl, fun _ => hends⟩
    show urlReference? _ = _
    unfold urlReference?
    rw [show readFold? "url(".toList _ = _ from hread]
    simp only [Option.bind_eq_bind, Option.bind_some, hdrop, haddress, hclose]
    rfl
  | sheet =>
    obtain rfl : back = [] := hback
    cases hquotable with
    | bare hw => exact nomatch hw
    | quoted q hq hquote hno =>
      have haddress : quotedAddress? (r.text ++ rest) = some (r, rest) :=
        quotedAddress?_eq_some_iff.mpr ⟨q, hq, hquote, hno, rfl⟩
      have htake : ((b ++ (r.text ++ rest)).takeWhile isBlank).isEmpty = false := by
        rw [List.takeWhile_append_of_pos hb]
        exact List.isEmpty_eq_false_iff.mpr (List.append_ne_nil_of_left_ne_nil (hne rfl) _)
      rw [List.nil_append] at hread hdrop ⊢
      show importReference? _ = _
      unfold importReference?
      rw [show readFold? "@import".toList _ = _ from hread]
      simp only [Option.bind_eq_bind, Option.bind_some, hdrop, htake, haddress]
      rfl

/-- **A reference, with what stands around its address.** -/
theorem Way.find?_eq_some_iff : w.find? t = some (r, rest) ↔ r.Quotable w ∧ ∃ front back,
    t = front ++ (r.text ++ (back ++ rest)) ∧ w.Front front ∧ w.Back back := by
  refine ⟨exists_around_of_find?, ?_⟩
  rintro ⟨hquotable, front, back, rfl, hfront, hback⟩
  exact find?_around hquotable hfront hback rest

/-- a reference, with what is taken of the text -/
theorem Way.find?_append_iff : w.find? (m ++ t) = some (r, t) ↔ r.Quotable w ∧ ∃ front back,
    m = front ++ (r.text ++ back) ∧ w.Front front ∧ w.Back back := by
  have hsame : ∀ front back : Text, m ++ t = front ++ (r.text ++ (back ++ t)) ↔
      m = front ++ (r.text ++ back) := by
    intro front back
    rw [← List.append_assoc, ← List.append_assoc, List.append_left_inj, List.append_assoc]
  rw [find?_eq_some_iff]
  simp only [hsame]

/-- what is found does not depend on what follows -/
theorem Way.find?_behind (h : w.find? (m ++ t) = some (r, t)) (u : Text) :
    w.find? (m ++ u) = some (r, u) :=
  find?_append_iff.mpr (find?_append_iff.mp h)

/-- an address that can be read is read when it is written -/
theorem Way.find?_written (h : r.Quotable w) (u : Text) :
    w.find? (w.opening ++ (r.text ++ w.closing) ++ u) = some (r, u) := by
  refine find?_append_iff.mpr ⟨h, w.opening, w.closing, rfl, ?_, ?_⟩
  · cases w with
    | url => exact ⟨"url(".toList, [], rfl, by decide, nofun, nofun⟩
    | sheet => exact ⟨"@import".toList, [' '], rfl, by decide, by decide, fun _ => List.cons_ne_nil _ _⟩
  · cases w with
    | url => exact ⟨[], rfl, nofun⟩
    | sheet => rfl

end

/-! ## words in an address -/

section
variable {word : Text}

theorem not_occurs_join {steps : List Text} (hl : foldChar '/' ∉ word) (hne : word ≠ [])
    (h : ∀ step ∈ steps, ¬ Occurs word step) : ¬ Occurs word (join ['/'] steps) := by
  induction steps with
  | nil =>
    rintro ⟨a, b, heq, hread⟩
    obtain ⟨l, word, rfl⟩ := List.exists_cons_of_ne_nil hne
    rw [(List.append_eq_nil_iff.mp heq.symm).2] at hread
    exact nomatch hread
  | cons step steps ih =>
    obtain ⟨hstep, hsteps⟩ := List.forall_mem_cons.mp h
    by_cases hnil : steps = []
    · rw [hnil]
      exact hstep
    · rw [join_cons step hnil, List.singleton_append]
      exact fun hoccurs => (hoccurs.split hl).elim hstep (ih hsteps)

end

namespace Way

theorem exists_word (w : Way) : ∃ l word, w.word = l :: word ∧ (l = 'u' ∨ l = '@') ∧
    ∀ c ∈ word, c ≠ 'u' ∧ c ≠ '@' := by
  cases w with
  | url => exact ⟨'u', "rl(".toList, rfl, .inl rfl, by decide⟩
  | sheet => exact ⟨'@', "import".toList, rfl, .inr rfl, by decide⟩

theorem word_ne_nil (w : Way) : w.word ≠ [] := by
  cases w <;> exact List.cons_ne_nil _ _

/-- characters that no reference begins over -/
theorem foldChar_not_mem (w : Way) : ∀ c ∈ ['/', '?', '#', '"', '\'', ')', ' ', '\n'],
    foldChar c ∉ w.word := by
  cases w <;> decide

end Way

/-! ## legible sheets -/

/-- A sheet with its references: what begins like a reference is one, and holds nothing that begins like
one of the other kind. -/
inductive Legible : Text → List (Way × Reference) → Prop
  | nil : Legible [] []
  | plain {c : Char} {t : Text} {refs : List (Way × Reference)}
      (hno : ∀ w : Way, ¬ w.Opens (c :: t)) (h : Legible t refs) : Legible (c :: t) refs
  | found {w : Way} {r : Reference} {m t : Text} {refs : List (Way × Reference)}
      (hread : w.find? (m ++ t) = some (r, t)) (hother : ¬ Occurs w.other.word m)
      (h : Legible t refs) : Legible (m ++ t) ((w, r) :: refs)

section
variable {w : Way} {r : Reference} {m t u code : Text} {refs refs' : List (Way × Reference)}

/-- what stands behind the words, if there are any -/
theorem dropWhile_words {a b : Text} {d : Char} (u : Text) (ha : ∀ e ∈ a, isBareChar e = true)
    (hb : ∀ e ∈ b, isBlank e = true) (hd : isBareChar d = false ∧ isBlank d = false ∨
      b ≠ [] ∧ isBlank d = false) :
    ((a ++ (b ++ d :: u)).dropWhile isBareChar).dropWhile isBlank = d :: u := by
  have hstop : ∀ c ∈ (b ++ d :: u).head?, isBareChar c = false := by
    intro c hc
    cases b with
    | nil =>
      obtain rfl : d = c := Option.some.inj hc
      exact hd.elim (·.1) fun h => absurd rfl h.1
    | cons e b =>
      obtain rfl : e = c := Option.some.inj hc
      rw [isBareChar, hb e List.mem_cons_self, Bool.or_true]
      rfl
  rw [(span_isBareChar ha hstop).2, dropWhile_blank hb]
  rintro e ⟨⟩
  exact hd.elim (·.2) (·.2)

/-- where an address stands, it is not so that none does -/
theorem Reference.Quotable.address {b : Text} (h : r.Quotable .url) (hb : ∀ c ∈ b, isBlank c = true)
    (u : Text) : ¬ NoAddress (r.text ++ (b ++ ')' :: u)) := by
  generalize ht : r.text ++ (b ++ ')' :: u) = t
  intro hno
  cases h with
  | quoted q hq hquote _ =>
    rw [Reference.text, hquote] at ht
    cases hno with
    | closed v =>
      obtain rfl : q = ')' := (List.cons.inj ht).1
      exact nomatch hq
    | words v hc =>
      obtain rfl := (List.cons.inj ht).1
      exact nomatch hc.symm.trans hq
  | bare _ hquote hne _ hall =>
    rw [Reference.text, hquote, List.nil_append, List.append_nil] at ht
    have hbare : ∀ c ∈ r.url, isBareChar c = true := fun c hc => isBareChar_iff.mpr (hall c hc)
    cases hno with
    | closed v =>
      obtain ⟨c, url, hurl⟩ := List.exists_cons_of_ne_nil hne
      rw [hurl] at ht
      exact (hall c (hurl ▸ List.mem_cons_self)).1 (List.cons.inj ht).1
    | words v _ ha hb' hne' hd =>
      -- what closes the address is not what stands behind the words
      have hclose := dropWhile_words (b := b) (d := ')') u hbare hb (.inl ⟨rfl, rfl⟩)
      rw [ht, dropWhile_words v (fun e he => (ha e he).1) hb' (.inr ⟨hne', hd.1⟩)] at hclose
      exact hd.2 (List.cons.inj hclose).1

theorem Way.opens_of_find? {rest : Text} (h : w.find? t = some (r, rest)) : w.Opens t := by
  obtain ⟨hquotable, front, back, rfl, hfront, hback⟩ := exists_around_of_find? h
  obtain ⟨word, b, hread, -, -, hdrop⟩ := hfront.read hquotable (back ++ rest)
  cases w with
  | url =>
    refine ⟨_, _, hread, ?_⟩
    obtain ⟨b', rfl, hb'⟩ := hback
    rw [hdrop, List.append_assoc]
    exact hquotable.address hb' rest
  | sheet =>
    refine ⟨_, _, hread, ?_⟩
    rw [hdrop]
    cases hquotable with
    | quoted q hq hquote hno =>
      rw [Reference.text, hquote]
      rintro c ⟨⟩
      exact hq
    | bare hw => exact nomatch hw

/-- a text begins like a reference with the first letter of its word -/
theorem Way.not_opens {c : Char} (w : Way) (h : foldChar c ≠ 'u' ∧ foldChar c ≠ '@') (t : Text) :
    ¬ w.Opens (c :: t) := by
  have hno : ∀ l word, (l = 'u' ∨ l = '@') → readFold? (l :: word) (c :: t) = none := by
    rintro l word (rfl | rfl)
    · exact if_neg h.1
    · exact if_neg h.2
  intro hopens
  cases w with
  | url =>
    obtain ⟨m, r, hread, -⟩ := hopens
    exact nomatch hread.symm.trans (hno _ _ (.inl rfl))
  | sheet =>
    obtain ⟨m, r, hread, -⟩ := hopens
    exact nomatch hread.symm.trans (hno _ _ (.inr rfl))

/-- a text without these letters may stand before a legible sheet -/
theorem Legible.behind {front : Text} (hfront : ∀ c ∈ front, foldChar c ≠ 'u' ∧ foldChar c ≠ '@')
    (h : Legible t refs) : Legible (front ++ t) refs := by
  induction front with
  | nil => exact h
  | cons c front ih =>
    obtain ⟨hc, hfront⟩ := List.forall_mem_cons.mp hfront
    exact .plain (fun w => w.not_opens hc _) (ih hfront)

theorem Way.find?_eq_none (h : ¬ w.Opens t) : w.find? t = none :=
  Option.eq_none_iff_forall_ne_some.mpr fun ⟨_, _⟩ hread => h (opens_of_find? hread)

/-- a word of references is read at the front of the text -/
def BeginsReference (m : Text) : Prop := ∃ w : Way, (readFold? w.word m).isSome = true

theorem BeginsReference.append (h : BeginsReference m) (t : Text) : BeginsReference (m ++ t) := by
  obtain ⟨w, hw⟩ := h
  obtain ⟨x, hx⟩ := Option.isSome_iff_exists.mp hw
  exact ⟨w, by rw [readFold?_append_right hx]; rfl⟩

theorem BeginsReference.head (h : BeginsReference m) :
    ∃ c m', m = c :: m' ∧ (foldChar c = 'u' ∨ foldChar c = '@') := by
  obtain ⟨w, hw⟩ := h
  obtain ⟨l, word, hl, hchar, -⟩ := w.exists_word
  rw [hl] at hw
  cases m with
  | nil => cases hw
  | cons c m =>
    rw [readFold?] at hw
    split at hw
    · rename_i hc
      exact ⟨c, m, rfl, hc.symm ▸ hchar⟩
    · cases hw

theorem BeginsReference.ne_nil (h : BeginsReference m) : m ≠ [] := by
  obtain ⟨c, m', rfl, -⟩ := h.head
  exact List.cons_ne_nil _ _

theorem Way.beginsReference (h : w.find? (m ++ t) = some (r, t)) : BeginsReference m := by
  obtain ⟨-, front, back, rfl, ⟨word, b, rfl, hword, -⟩, -⟩ := find?_append_iff.mp h
  rw [List.append_assoc]
  exact .append ⟨w, by rw [hword]; rfl⟩ _

/-- it ends with a quote or a parenthesis -/
theorem Way.last_of_find? (h : w.find? (m ++ t) = some (r, t)) :
    ∃ m' c, m = m' ++ [c] ∧ ∀ w : Way, foldChar c ∉ w.word := by
  obtain ⟨hquotable, front, back, rfl, -, hback⟩ := find?_append_iff.mp h
  cases w with
  | url =>
    obtain ⟨b, rfl, -⟩ := hback
    refine ⟨front ++ (r.text ++ b), ')', by simp only [List.append_assoc], fun w => ?_⟩
    exact w.foldChar_not_mem ')' (by decide)
  | sheet =>
    obtain rfl : back = [] := hback
    cases hquotable with
    | quoted q hq hquote hno =>
      refine ⟨front ++ (q :: r.url), q, ?_, fun w => w.foldChar_not_mem q ?_⟩
      · rw [Reference.text, hquote]
        simp only [List.append_assoc, List.cons_append, List.nil_append, List.append_nil]
      · rcases Bool.or_eq_true_iff.mp hq with hq | hq
        · rw [beq_iff_eq.mp hq]
          decide
        · rw [beq_iff_eq.mp hq]
          decide
    | bare hw => exact nomatch hw

/-- where the word of a kind does not occur, no reference of this kind is found -/
theorem Way.find?_inside {w' : Way} (h : w.find? (m ++ t) = some (r, t)) (hno : ¬ Occurs w'.word m) :
    ∀ m₁ m₂, m = m₁ ++ m₂ → m₂ ≠ [] → w'.find? (m₂ ++ u) = none := by
  intro m₁ m₂ hm hne
  refine Option.eq_none_iff_forall_ne_some.mpr fun ⟨r', rest⟩ hread => hno ?_
  obtain ⟨-, front, back, heq, ⟨word, b, rfl, hword, -⟩, -⟩ := find?_eq_some_iff.mp hread
  obtain ⟨m', c, hlast, hc⟩ := last_of_find? h
  obtain ⟨v, d, rfl⟩ := (List.eq_nil_or_concat m₂).resolve_left hne
  rw [List.concat_eq_append, ← List.append_assoc, hlast] at hm
  obtain ⟨hm', hd⟩ := List.append_inj' hm rfl
  obtain rfl : c = d := List.singleton_inj.mp hd
  have hread := readFold?_append_right hword (b ++ (r'.text ++ (back ++ rest)))
  rw [← List.append_assoc, ← heq, List.concat_eq_append, List.append_assoc, List.singleton_append]
    at hread
  obtain ⟨r₀, hr₀, -⟩ := readFold?_of_append (hc w') hread
  rw [hlast, hm', List.append_assoc]
  exact Occurs.append ⟨[], v, rfl, by rw [hr₀]; rfl⟩ m₁ [c]

/-- the references of one kind -/
def ofWay (w : Way) (refs : List (Way × Reference)) : List Reference :=
  refs.filterMap fun x => if x.1 = w then some x.2 else none

theorem ofWay_self (w : Way) (r : Reference) (refs : List (Way × Reference)) :
    ofWay w ((w, r) :: refs) = r :: ofWay w refs := List.filterMap_cons_some (if_pos rfl)

theorem ofWay_other {w' : Way} (hw : w' ≠ w) : ofWay w ((w', r) :: refs) = ofWay w refs :=
  List.filterMap_cons_none (if_neg hw)

theorem mem_ofWay : r ∈ ofWay w refs ↔ (w, r) ∈ refs := by
  rw [ofWay, List.mem_filterMap]
  constructor
  · rintro ⟨⟨w', r'⟩, hmem, h⟩
    split at h
    · rename_i hw
      rwa [← hw, ← Option.some.inj h]
    · exact nomatch h
  · exact fun hmem => ⟨(w, r), hmem, if_pos rfl⟩

/-- **The searches find the references of a legible sheet.** -/
theorem Legible.foundIn (h : Legible code refs) (w : Way) :
    foundIn (fun _ => w.find?) code = ofWay w refs := by
  induction h with
  | nil => rfl
  | plain hno _ ih =>
    rw [foundIn_cons (Way.find?_eq_none (hno w))]
    exact ih
  | @found w' r m t refs hread hother _ ih =>
    by_cases hw : w' = w
    · subst hw
      rw [foundIn_found (Way.beginsReference hread).ne_nil hread, ih, ofWay_self]
    · have hw' : w'.other = w := by
        cases w' <;> cases w <;> first | rfl | exact absurd rfl hw
      rw [foundIn_over (Way.find?_inside hread (hw' ▸ hother)), ih, ofWay_other hw]

/-- the references of a legible sheet can be read as they are written, and hold none of the other kind -/
theorem Legible.quotable (h : Legible code refs) :
    ∀ x ∈ refs, x.2.Quotable x.1 ∧ ¬ Occurs x.1.other.word x.2.url := by
  induction h with
  | nil => exact nofun
  | plain _ _ ih => exact ih
  | @found w r m t refs hread hother _ ih =>
    refine List.forall_mem_cons.mpr ⟨?_, ih⟩
    obtain ⟨hquotable, front, back, rfl, -, -⟩ := Way.find?_append_iff.mp hread
    refine ⟨hquotable, fun hoccurs => hother ?_⟩
    rw [Reference.text, List.append_assoc, List.append_assoc, ← List.append_assoc]
    exact hoccurs.append (front ++ r.quote) (r.quote ++ back)

/-! ## sheets behind each other -/

theorem NoAddress.append (h : NoAddress t) (u : Text) : NoAddress (t ++ u) := by
  cases h with
  | closed v => exact .closed (v ++ u)
  | words v hc ha hb hne hd =>
    rw [List.append_assoc, List.append_assoc]
    exact .words (v ++ u) hc ha hb hne hd

theorem not_noAddress_nil : ¬ NoAddress [] := nofun

/-- a text that does not begin like a reference does not begin so with another line behind it -/
theorem Way.opens_append (h : w.Opens (t ++ '\n' :: u)) : w.Opens t := by
  have hfold : foldChar '\n' ∉ w.word := w.foldChar_not_mem '\n' (by decide)
  cases w with
  | url =>
    obtain ⟨m, r, hread, hno⟩ := h
    obtain ⟨r', hr', rfl⟩ := readFold?_of_append hfold hread
    refine ⟨m, r', hr', fun haddress => hno ?_⟩
    rw [List.dropWhile_append, if_neg]
    · exact haddress.append _
    · intro hempty
      rw [List.isEmpty_iff.mp hempty] at haddress
      exact not_noAddress_nil haddress
  | sheet =>
    obtain ⟨m, r, hread, hquote⟩ := h
    obtain ⟨r', hr', rfl⟩ := readFold?_of_append hfold hread
    refine ⟨m, r', hr', fun c hc => hquote c ?_⟩
    cases hdrop : r'.dropWhile isBlank with
    | nil =>
      rw [hdrop] at hc
      exact nomatch hc
    | cons d r'' =>
      rw [hdrop] at hc
      rw [List.dropWhile_append, hdrop]
      exact hc

theorem Legible.append (h : Legible t refs) (h' : Legible u refs') :
    Legible (t ++ '\n' :: u) (refs ++ refs') := by
  induction h with
  | nil => exact .plain (fun w => w.not_opens (by decide) u) h'
  | plain hno _ ih => exact .plain (fun w hopens => hno w (Way.opens_append hopens)) ih
  | @found w r m t refs hread hother _ ih =>
    rw [List.append_assoc]
    exact .found (Way.find?_behind hread _) hother ih

/-- sheets with empty lines between them -/
theorem legible_join {sheets : List (Text × List (Way × Reference))}
    (h : ∀ x ∈ sheets, Legible x.1 x.2) :
    Legible (join "\n\n".toList (sheets.map (·.1))) (sheets.map (·.2)).flatten := by
  induction sheets with
  | nil => exact .nil
  | cons x sheets ih =>
    obtain ⟨hx, hsheets⟩ := List.forall_mem_cons.mp h
    cases sheets with
    | nil =>
      show Legible x.1 (x.2 ++ [])
      rw [List.append_nil]
      exact hx
    | cons y sheets =>
      have hjoin : join "\n\n".toList (x.1 :: y.1 :: sheets.map (·.1)) = _ :=
        join_cons x.1 (List.cons_ne_nil y.1 (sheets.map (·.1)))
      rw [List.map_cons, List.map_cons, hjoin, List.map_cons, List.flatten_cons]
      exact hx.append (Legible.append .nil (ih hsheets))

end
end SiteBundle
