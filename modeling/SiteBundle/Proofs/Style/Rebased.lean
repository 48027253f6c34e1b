import Mathlib.Data.List.Forall2
import Mathlib.Tactic.Choose
import SiteBundle.Proofs.Style.Sheet

/-!
# Sheets for another directory

Writing a sheet for another directory rewrites its references one kind after the other
(`Way.pass`).  Nothing that did not begin like a reference does so afterwards (`Rewritten.opens`), so
a legible sheet stays legible, and its references are those it had, each written for the other
directory (`Legible.rebase`).

A reference can be written so when the names on the way to what it refers to can stand in it
(`Reference.Admits`); it then leads where it led (`Reference.movable`, `Keeps`).
-/

namespace SiteBundle

open Text

/-! ## references written otherwise -/

/-- a text and the same text with its references written otherwise -/
inductive Rewritten : Text → Text → Prop
  | nil : Rewritten [] []
  | plain (c : Char) {t u : Text} (h : Rewritten t u) : Rewritten (c :: t) (c :: u)
  | found {m m' t u : Text} (hm : BeginsReference m) (hm' : BeginsReference m') (h : Rewritten t u) :
      Rewritten (m ++ t) (m' ++ u)

theorem foldChar_of_isBlank {c : Char} (h : isBlank c = true) : foldChar c = c := by
  have hlong : c ≠ '\u017F' := by
    rintro rfl
    exact nomatch h
  have hkelvin : c ≠ '\u212A' := by
    rintro rfl
    exact nomatch h
  rw [foldChar, if_neg hlong, if_neg hkelvin, lowerChar, if_neg]
  rintro ⟨hlow, hhigh⟩
  have hlow : 65 ≤ c.toNat := hlow
  have hhigh : c.toNat ≤ 90 := hhigh
  simp only [isBlank, Bool.or_eq_true, Bool.and_eq_true, decide_eq_true_eq, beq_iff_eq] at h
  omega

/-- a reference begins neither with white space nor with a quote or a parenthesis -/
theorem BeginsReference.head_plain {m : Text} (h : BeginsReference m) :
    ∃ c m', m = c :: m' ∧ isBlank c = false ∧ isQuote c = false ∧ c ≠ ')' := by
  obtain ⟨c, m', rfl, hc⟩ := h.head
  refine ⟨c, m', rfl, ?_, ?_, ?_⟩
  · rw [Bool.eq_false_iff]
    intro hblank
    rw [foldChar_of_isBlank hblank] at hc
    rcases hc with rfl | rfl <;> exact nomatch hblank
  · rw [Bool.eq_false_iff]
    intro hquote
    rcases Bool.or_eq_true_iff.mp hquote with hq | hq
    · rw [beq_iff_eq.mp hq] at hc
      exact absurd hc (by decide)
    · rw [beq_iff_eq.mp hq] at hc
      exact absurd hc (by decide)
  · rintro rfl
    exact absurd hc (by decide)

section
variable {t u lead x u' a : Text} {c : Char} {w : Way}

/-- the rest of a word is read over plain characters only -/
theorem Rewritten.read (h : Rewritten t u) (hlead : ∀ l ∈ lead, l ≠ 'u' ∧ l ≠ '@')
    (hread : readFold? lead u = some (x, u')) :
    ∃ t', readFold? lead t = some (x, t') ∧ Rewritten t' u' := by
  induction lead generalizing t u x with
  | nil =>
    cases hread
    exact ⟨t, rfl, h⟩
  | cons l lead ih =>
    obtain ⟨hl, hlead⟩ := List.forall_mem_cons.mp hlead
    cases h with
    | nil => cases hread
    | plain c h =>
      rw [readFold?] at hread
      split at hread
      · rename_i hc
        obtain ⟨⟨y, v⟩, hy, e⟩ := Option.map_eq_some_iff.mp hread
        cases e
        obtain ⟨t', ht', hrest⟩ := ih h hlead hy
        exact ⟨t', by rw [readFold?, if_pos hc, ht']; rfl, hrest⟩
      · cases hread
    | found hm hm' h =>
      obtain ⟨c, m', rfl, hc⟩ := hm'.head
      rw [List.cons_append, readFold?] at hread
      split at hread
      · rename_i hfold
        rw [hfold] at hc
        exact absurd hc (not_or.mpr hl)
      · cases hread

theorem Rewritten.dropWhile (h : Rewritten t u) :
    Rewritten (t.dropWhile isBlank) (u.dropWhile isBlank) := by
  induction h with
  | nil => exact .nil
  | plain c h ih =>
    cases hc : isBlank c with
    | true =>
      rw [List.dropWhile_cons_of_pos hc, List.dropWhile_cons_of_pos hc]
      exact ih
    | false =>
      have hc : ¬ isBlank c = true := by rw [hc]; exact Bool.false_ne_true
      rw [List.dropWhile_cons_of_neg hc, List.dropWhile_cons_of_neg hc]
      exact .plain c h
  | @found m m' t u hm hm' h ih =>
    have hkept : ∀ {m : Text} (t : Text), BeginsReference m →
        (m ++ t).dropWhile isBlank = m ++ t := by
      intro m t hm
      obtain ⟨c, m', rfl, hblank, -⟩ := hm.head_plain
      exact List.dropWhile_cons_of_neg (by rw [hblank]; exact Bool.false_ne_true)
    rw [hkept t hm, hkept u hm']
    exact .found hm hm' h

/-- what stands in front of the references stays -/
theorem Rewritten.over (h : Rewritten (a ++ t) u)
    (hno : ∀ a₁ a₂, a = a₁ ++ a₂ → a₂ ≠ [] → ¬ BeginsReference (a₂ ++ t)) :
    ∃ u', u = a ++ u' ∧ Rewritten t u' := by
  induction a generalizing u with
  | nil => exact ⟨u, rfl, h⟩
  | cons c a ih =>
    have hfirst : ¬ BeginsReference (c :: a ++ t) := hno [] (c :: a) rfl (List.cons_ne_nil _ _)
    generalize hv : c :: a ++ t = v at h hfirst
    cases h with
    | nil => exact nomatch hv
    | plain d h =>
      obtain ⟨rfl, rfl⟩ := List.cons.inj hv
      obtain ⟨u', rfl, hrest⟩ := ih h fun a₁ a₂ e => hno (c :: a₁) a₂ (congrArg (c :: ·) e)
      exact ⟨u', rfl, hrest⟩
    | found hm _ _ => exact absurd (hm.append _) hfirst

/-- no reference begins in words where no address stands -/
theorem not_beginsReference {a b : Text} (u : Text)
    (ha : ∀ e ∈ a, foldChar e ≠ '(' ∧ foldChar e ≠ '@') (hb : ∀ e ∈ b, isBlank e = true)
    (hne : b ≠ []) : ∀ a₁ a₂, a ++ b = a₁ ++ a₂ → a₂ ≠ [] → ¬ BeginsReference (a₂ ++ u) := by
  have hblank : ∀ {e : Char} (v : Text), isBlank e = true → ¬ BeginsReference (e :: v) := by
    intro e v he h
    obtain ⟨c, m', hm, hc, -⟩ := h.head_plain
    obtain rfl := (List.cons.inj hm).1
    exact nomatch hc.symm.trans he
  intro a₁ a₂ heq hne₂ hbegins
  rcases List.append_eq_append_iff.mp heq with ⟨v, rfl, hv⟩ | ⟨v, rfl, hv⟩
  · -- it would begin with white space
    obtain ⟨c, a₂, rfl⟩ := List.exists_cons_of_ne_nil hne₂
    exact hblank _ (hb c (hv ▸ List.mem_append_right _ List.mem_cons_self)) hbegins
  · -- its word would stand in the words
    obtain ⟨e, b, rfl⟩ := List.exists_cons_of_ne_nil hne
    have he := hb e List.mem_cons_self
    obtain ⟨w, hw⟩ := hbegins
    obtain ⟨⟨x, y⟩, hread⟩ := Option.isSome_iff_exists.mp hw
    rw [hv, List.append_assoc, List.cons_append] at hread
    have hfold : foldChar e ∉ w.word := by
      rw [foldChar_of_isBlank he]
      intro hmem
      have hnone : ∀ c ∈ w.word, isBlank c = false := by cases w <;> decide
      exact nomatch (hnone e hmem).symm.trans he
    obtain ⟨r', hr', -⟩ := readFold?_of_append hfold hread
    have hoccurs : Occurs w.word v := ⟨[], v, rfl, by rw [hr']; rfl⟩
    cases w with
    | url =>
      obtain ⟨c, hc, hfold⟩ := hoccurs.exists_mem (l := '(') (by decide)
      exact (ha c (List.mem_append_right _ hc)).1 hfold
    | sheet =>
      obtain ⟨c, hc, hfold⟩ := hoccurs.exists_mem (l := '@') (by decide)
      exact (ha c (List.mem_append_right _ hc)).2 hfold

theorem NoAddress.rewritten (h : NoAddress t) (hu : Rewritten t u) : NoAddress u := by
  generalize ht : t = t' at hu
  cases h with
  | closed v =>
    cases hu with
    | nil => exact nomatch ht
    | plain c _ =>
      obtain rfl := (List.cons.inj ht).1
      exact .closed _
    | found hm _ _ =>
      obtain ⟨c, m', rfl, -, -, hc⟩ := hm.head_plain
      exact absurd (List.cons.inj ht).1.symm hc
  | @words c d a b v hc ha hb hne hd =>
    rw [← ht, ← List.append_assoc] at hu
    obtain ⟨u', rfl, hrest⟩ := hu.over (not_beginsReference (d :: v) (fun e he => (ha e he).2) hb hne)
    rw [List.append_assoc]
    generalize hv : d :: v = t' at hrest
    cases hrest with
    | nil => exact nomatch hv
    | plain e _ =>
      obtain rfl := (List.cons.inj hv).1
      exact .words _ hc ha hb hne hd
    | found _ hm' _ =>
      obtain ⟨e, m', rfl, hblank, -, hparen⟩ := hm'.head_plain
      exact .words _ hc ha hb hne ⟨hblank, hparen⟩

/-- what did not begin like a reference does not begin so when references behind it are written
otherwise -/
theorem Rewritten.opens (h : Rewritten t u) (hopens : w.Opens (c :: u)) : w.Opens (c :: t) := by
  -- behind its first character, a word is read over plain characters
  have hword : ∀ (l : Char) (lead : Text), (∀ d ∈ lead, d ≠ 'u' ∧ d ≠ '@') →
      ∀ {y v}, readFold? (l :: lead) (c :: u) = some (y, v) →
        ∃ v', readFold? (l :: lead) (c :: t) = some (y, v') ∧ Rewritten v' v := by
    intro l lead hlead y v hread
    rw [readFold?] at hread
    split at hread
    · rename_i hc
      obtain ⟨⟨y', v'⟩, hy, e⟩ := Option.map_eq_some_iff.mp hread
      cases e
      obtain ⟨t', ht', hrest⟩ := h.read hlead hy
      exact ⟨t', by rw [readFold?, if_pos hc, ht']; rfl, hrest⟩
    · cases hread
  cases w with
  | url =>
    obtain ⟨y, v, hread, hno⟩ := hopens
    obtain ⟨v', hv', hrest⟩ := hword 'u' "rl(".toList (by decide) hread
    exact ⟨y, v', hv', fun haddress => hno (haddress.rewritten hrest.dropWhile)⟩
  | sheet =>
    obtain ⟨y, v, hread, hquote⟩ := hopens
    obtain ⟨v', hv', hrest⟩ := hword '@' "import".toList (by decide) hread
    refine ⟨y, v', hv', fun d hd => ?_⟩
    have hdrop := hrest.dropWhile
    generalize v'.dropWhile isBlank = x at hd hdrop
    generalize v.dropWhile isBlank = z at hquote hdrop
    cases hdrop with
    | nil => cases hd
    | plain e _ => exact hquote d hd
    | found _ hm' _ =>
      -- a reference does not begin with a quote
      obtain ⟨e, m', rfl, -, he, -⟩ := hm'.head_plain
      cases he.symm.trans (hquote e rfl)

end

/-! ## one reference -/

/-- the reference for another directory; one that does not depend on where it stands stays -/
def Reference.rebased (source target : Text) (r : Reference) : Reference :=
  match rebaseReference? r.url source target with
  | some url => ⟨r.quote, url⟩
  | none => r

/-- the reference for another directory is one, and holds none of the other kind -/
structure Reference.Movable (w : Way) (source target : Text) (r : Reference) : Prop where
  quotable : (r.rebased source target).Quotable w
  other : ¬ Occurs w.other.word (r.rebased source target).url

/-- what is written for a reference -/
def Way.written (w : Way) (source target m : Text) (r : Reference) : Text :=
  match rebaseReference? r.url source target with
  | some address => w.opening ++ ((⟨r.quote, address⟩ : Reference).text ++ w.closing)
  | none => m

section
variable {w : Way} {r : Reference} {source target m t : Text}

theorem Way.rewritten_eq (h : w.find? (m ++ t) = some (r, t)) :
    rewritten source target w.opening w.closing w.find? (m ++ t) =
      some (w.written source target m r, t) := by
  have htake : (m ++ t).take ((m ++ t).length - t.length) = m := by
    rw [List.length_append, Nat.add_sub_cancel, List.take_left]
  rw [rewritten, h, Option.map_some, written]
  dsimp only
  cases rebaseReference? r.url source target with
  | some address => simp only [Reference.text, List.append_assoc]
  | none => exact congrArg (fun m => some (m, t)) htake

theorem Way.rewritten_eq_none (h : w.find? t = none) :
    rewritten source target w.opening w.closing w.find? t = none := by
  rw [rewritten, h, Option.map_none]

/-- nothing of the other kind is written around an address -/
theorem Way.not_occurs_written (h : r.Quotable w) (hno : ¬ Occurs w.other.word r.url) :
    ¬ Occurs w.other.word (w.opening ++ (r.text ++ w.closing)) := by
  obtain ⟨l, word, hword, hl, -⟩ := w.other.exists_word
  have hplain : ∀ v : Text, (∀ c ∈ v, foldChar c ≠ 'u' ∧ foldChar c ≠ '@') →
      ¬ Occurs w.other.word v := by
    intro v hv hoccurs
    obtain ⟨c, hc, hfold⟩ := hoccurs.exists_mem (hword ▸ List.mem_cons_self)
    rcases hl with rfl | rfl
    · exact (hv c hc).1 hfold
    · exact (hv c hc).2 hfold
  have hnil : ¬ Occurs w.other.word [] := hplain [] fun c hc => absurd hc List.not_mem_nil
  have hclosing : ¬ Occurs w.other.word w.closing := by
    refine hplain _ ?_
    cases w <;> decide
  have htext : ¬ Occurs w.other.word (r.text ++ w.closing) := by
    cases h with
    | quoted q hq hquote _ =>
      have hq : foldChar q ∉ w.other.word := by
        refine w.other.foldChar_not_mem q ?_
        rcases Bool.or_eq_true_iff.mp hq with hq | hq
        · rw [beq_iff_eq.mp hq]
          decide
        · rw [beq_iff_eq.mp hq]
          decide
      have heq : r.text ++ w.closing = [] ++ q :: (r.url ++ q :: w.closing) := by
        rw [Reference.text, hquote]
        simp only [List.append_assoc, List.cons_append, List.nil_append]
      rw [heq]
      intro hoccurs
      rcases hoccurs.split hq with hoccurs | hoccurs
      · exact hnil hoccurs
      · exact (hoccurs.split hq).elim hno hclosing
    | bare hw hquote _ _ _ =>
      subst hw
      have heq : r.text ++ Way.closing .url = r.url ++ ')' :: [] := by
        rw [Reference.text, hquote, List.nil_append, List.append_nil]
        rfl
      rw [heq]
      exact fun hoccurs =>
        (hoccurs.split (Way.foldChar_not_mem _ ')' (by decide))).elim hno hnil
  obtain ⟨front, c, hopening, hc, hfront⟩ : ∃ front c, w.opening = front ++ [c] ∧
      foldChar c ∉ w.other.word ∧ ¬ Occurs w.other.word front := by
    cases w with
    | url =>
      refine ⟨"url".toList, '(', rfl, by decide, fun hoccurs => ?_⟩
      obtain ⟨c, hc, hfold⟩ := Occurs.exists_mem (l := '@') hoccurs (by decide)
      have hall : ∀ c ∈ "url".toList, foldChar c ≠ '@' := by decide
      exact hall c hc hfold
    | sheet =>
      refine ⟨"@import".toList, ' ', rfl, by decide, fun hoccurs => ?_⟩
      obtain ⟨c, hc, hfold⟩ := Occurs.exists_mem (l := 'u') hoccurs (by decide)
      have hall : ∀ c ∈ "@import".toList, foldChar c ≠ 'u' := by decide
      exact hall c hc hfold
  rw [hopening, List.append_assoc, List.singleton_append]
  exact fun hoccurs => (hoccurs.split hc).elim hfront htext

theorem Way.beginsReference_opening (w : Way) (u : Text) : BeginsReference (w.opening ++ u) := by
  refine .append ⟨w, ?_⟩ u
  cases w <;> decide

/-- what is written for a reference is read as the reference for the other directory -/
theorem Way.find?_rebased (hread : w.find? (m ++ t) = some (r, t)) (hother : ¬ Occurs w.other.word m)
    (h : r.Movable w source target) (u : Text) :
    w.find? (w.written source target m r ++ u) = some (r.rebased source target, u) ∧
      ¬ Occurs w.other.word (w.written source target m r) ∧
      BeginsReference (w.written source target m r) := by
  obtain ⟨hquotable, hno⟩ := h
  unfold Reference.rebased at hquotable hno ⊢
  unfold Way.written
  cases hrebased : rebaseReference? r.url source target with
  | some address =>
    rw [hrebased] at hquotable hno
    exact ⟨find?_written hquotable u, not_occurs_written hquotable hno, w.beginsReference_opening _⟩
  | none => exact ⟨find?_behind hread u, hother, beginsReference hread⟩

end

/-! ### which references can be written for another directory -/

/-- the reference for another directory leads where it led; one that does not depend on where it stands,
or leads out of the site, stays as it is -/
structure Reference.Keeps (dir base : List Text) (r r' : Reference) : Prop where
  quote : r'.quote = r.quote
  leads : isRelative r.url = true → ∀ x, resolve? dir r.url = some x →
    isRelative r'.url = true ∧ resolve? base r'.url = some x
  stays : (isRelative r.url = true → resolve? dir r.url = none) → r' = r

/-- the name can stand in the address of a reference -/
structure Reference.Admits (w : Way) (r : Reference) (name : Text) : Prop where
  address : IsAddressName name
  /-- it holds nothing that ends an address between quotes -/
  quoted : ∀ q ∈ r.quote, q ∉ name
  /-- nor what ends, or cannot begin, an address without them -/
  bare : r.quote = [] → (∀ c ∈ name, c ≠ ')' ∧ isBlank c = false) ∧
    ∀ c ∈ name.head?, isQuote c = false
  word : ¬ Occurs w.other.word name

section
variable {w : Way} {r : Reference} {source target suffix : Text} {base place : List Text}

theorem Reference.keeps_self (dir : List Text) (r : Reference) : r.Keeps dir dir r :=
  ⟨rfl, fun hrel _ hx => ⟨hrel, hx⟩, fun _ => rfl⟩

/-- a step of a path, up or by a name that can stand in the reference -/
theorem Reference.Admits.step {step : Text} (h : step = ['.', '.'] ∨ r.Admits w step) :
    (∀ q ∈ r.quote, isQuote q = true → q ∉ step) ∧
      (r.quote = [] → (∀ c ∈ step, c ≠ ')' ∧ isBlank c = false) ∧
        ∀ c ∈ step.head?, isQuote c = false) ∧ ¬ Occurs w.other.word step := by
  rcases h with rfl | h
  · refine ⟨fun q _ hq hmem => ?_, fun _ => ⟨by decide, fun c hc => ?_⟩, fun hoccurs => ?_⟩
    · have hdots : ∀ c ∈ (['.', '.'] : Text), isQuote c = false := by decide
      exact nomatch (hdots q hmem).symm.trans hq
    · cases hc
      decide
    · obtain ⟨l, word, hword, hl, -⟩ := w.other.exists_word
      obtain ⟨c, hc, hfold⟩ := hoccurs.exists_mem (hword ▸ List.mem_cons_self)
      have hdots : ∀ c ∈ (['.', '.'] : Text), foldChar c = '.' := by decide
      rw [hdots c hc] at hfold
      rcases hl with rfl | rfl
      · exact absurd hfold (by decide)
      · exact absurd hfold (by decide)
  · exact ⟨fun q hq _ => h.quoted q hq, h.bare, h.word⟩

theorem isQuote_plain {c : Char} (h : isQuote c = true) : c ≠ '/' := by
  rintro rfl
  exact nomatch h

/-- the address of a place can be written where the reference stands -/
theorem Reference.quotable_addressOf (h : r.Quotable w) (hother : ¬ Occurs w.other.word r.url)
    (hnames : ∀ name ∈ place, r.Admits w name) (hne : place ≠ base)
    (hstart : suffix = [] ∨ ∃ c u, suffix = c :: u ∧ isSuffixStart c = true)
    (hinside : suffix <:+: r.url) :
    (⟨r.quote, addressOf base place suffix⟩ : Reference).Quotable w ∧
      ¬ Occurs w.other.word (addressOf base place suffix) := by
  have hsteps : ∀ step ∈ stepsBetween base place, (∀ q ∈ r.quote, isQuote q = true → q ∉ step) ∧
      (r.quote = [] → (∀ c ∈ step, c ≠ ')' ∧ isBlank c = false) ∧
        ∀ c ∈ step.head?, isQuote c = false) ∧ ¬ Occurs w.other.word step := fun step hstep =>
    Admits.step ((mem_stepsBetween hstep).imp_right (hnames step))
  have hstepNe : ∀ step ∈ stepsBetween base place, step ≠ [] := fun step hstep =>
    (isAddressStep_of_mem (fun name hname => (hnames name hname).address) step hstep).ne_nil
  have hnil := stepsBetween_ne_nil hne
  unfold addressOf
  generalize stepsBetween base place = steps at hsteps hstepNe hnil
  constructor
  · cases h with
    | quoted q hq hquote hno =>
      refine .quoted q hq hquote fun hmem => ?_
      rcases List.mem_append.mp hmem with hmem | hmem
      · rcases mem_join hmem with hmem | ⟨step, hstep, hmem⟩
        · exact isQuote_plain hq (List.mem_singleton.mp hmem)
        · exact (hsteps step hstep).1 q (hquote ▸ List.mem_singleton_self q) hq hmem
      · exact hno (hinside.mem hmem)
    | bare hw hquote _ _ hall =>
      obtain ⟨step, rest, rfl⟩ := List.exists_cons_of_ne_nil hnil
      have hbare := fun s hs => (hsteps s hs).2.1 hquote
      obtain ⟨c, step, rfl⟩ := List.exists_cons_of_ne_nil (hstepNe step List.mem_cons_self)
      obtain ⟨behind, hbehind⟩ : ∃ behind, join ['/'] ((c :: step) :: rest) ++ suffix = c :: behind := by
        cases rest with
        | nil => exact ⟨_, rfl⟩
        | cons next rest => exact ⟨_, rfl⟩
      refine .bare hw hquote (hbehind ▸ List.cons_ne_nil _ _) ?_ fun d hd => ?_
      · rw [hbehind]
        rintro d ⟨⟩
        exact (hbare _ List.mem_cons_self).2 c rfl
      · rcases List.mem_append.mp hd with hd | hd
        · rcases mem_join hd with hd | ⟨s, hs, hd⟩
          · rw [List.mem_singleton.mp hd]
            decide
          · exact (hbare s hs).1 d hd
        · exact hall d (hinside.mem hd)
  · have hslash := w.other.foldChar_not_mem '/' (by decide)
    have hjoin := not_occurs_join hslash w.other.word_ne_nil fun step hstep => (hsteps step hstep).2.2
    rcases hstart with rfl | ⟨c, u, rfl, hc⟩
    · rwa [List.append_nil]
    · have hfold : foldChar c ∉ w.other.word := by
        refine w.other.foldChar_not_mem c ?_
        rcases Bool.or_eq_true_iff.mp hc with hc | hc
        · rw [beq_iff_eq.mp hc]
          decide
        · rw [beq_iff_eq.mp hc]
          decide
      refine fun hoccurs => (hoccurs.split hfold).elim hjoin fun hoccurs => hother ?_
      obtain ⟨front, back, hurl⟩ := hinside
      rw [← hurl, List.append_assoc]
      have hsuffix := hoccurs.append [c] []
      rw [List.append_nil] at hsuffix
      exact hsuffix.append front back

/-- a reference can be written for another directory when the names on the way to what it refers to can
stand in it, and this is not the directory itself -/
theorem Reference.movable (h : r.Quotable w) (hother : ¬ Occurs w.other.word r.url)
    (hplace : isRelative r.url = true → ∀ place suffix,
      resolve? (directoryNames source) r.url = some (place, suffix) →
        place ≠ directoryNames target ∧ ∀ name ∈ place, r.Admits w name) :
    r.Movable w source target ∧
      r.Keeps (directoryNames source) (directoryNames target) (r.rebased source target) := by
  have hsame : rebaseReference? r.url source target = none → r.Movable w source target ∧
      r.rebased source target = r := by
    intro hnone
    have hself : r.rebased source target = r := by rw [rebased, hnone]
    exact ⟨⟨hself.symm ▸ h, hself.symm ▸ hother⟩, hself⟩
  cases hrel : isRelative r.url with
  | false =>
    have hnone : rebaseReference? r.url source target = none := by rw [rebaseReference?_eq, hrel]; rfl
    obtain ⟨hmovable, hself⟩ := hsame hnone
    refine ⟨hmovable, ?_⟩
    rw [hself]
    exact ⟨rfl, fun h => (nomatch hrel.symm.trans h), fun _ => rfl⟩
  | true =>
    cases hresolve : resolve? (directoryNames source) r.url with
    | none =>
      have hnone : rebaseReference? r.url source target = none := by
        rw [rebaseReference?_eq, hrel, hresolve]
        rfl
      obtain ⟨hmovable, hself⟩ := hsame hnone
      refine ⟨hmovable, ?_⟩
      rw [hself]
      exact ⟨rfl, fun _ x hx => (nomatch hresolve.symm.trans hx), fun _ => rfl⟩
    | some x =>
      obtain ⟨place, suffix⟩ := x
      obtain ⟨hne, hnames⟩ := hplace hrel place suffix hresolve
      obtain ⟨hstart, hends, hinside⟩ := suffix_of_resolve? hresolve
      have hrebased : r.rebased source target =
          ⟨r.quote, addressOf (directoryNames target) place suffix⟩ := by
        rw [rebased, rebaseReference?_eq, hrel, hresolve]
        rfl
      obtain ⟨hquotable, hno⟩ := quotable_addressOf h hother hnames hne hstart hinside
      obtain ⟨hrel', hleads⟩ :=
        rebased_resolves (fun name hname => (hnames name hname).address) hne hstart hends
      refine ⟨⟨hrebased ▸ hquotable, hrebased ▸ hno⟩, ?_⟩
      rw [hrebased]
      refine ⟨rfl, fun _ y hy => ⟨hrel', ?_⟩, fun hstays => ?_⟩
      · obtain rfl := Option.some.inj (hresolve.symm.trans hy)
        exact hleads
      · exact nomatch hresolve.symm.trans (hstays hrel)

end

/-! ## one kind of references -/

/-- a sheet with its references of one kind written for another directory -/
def Way.pass (w : Way) (source target code : Text) : Text :=
  replace (fun _ => rewritten source target w.opening w.closing w.find?) code

/-- the reference, if it is of the kind, for another directory -/
def Way.moved (w : Way) (source target : Text) (x : Way × Reference) : Way × Reference :=
  if x.1 = w then (x.1, x.2.rebased source target) else x

section
variable {w : Way} {source target code : Text} {refs : List (Way × Reference)}

theorem Legible.pass (h : Legible code refs)
    (hmovable : ∀ x ∈ refs, x.1 = w → x.2.Movable w source target) :
    Legible (w.pass source target code) (refs.map (w.moved source target)) ∧
      Rewritten code (w.pass source target code) := by
  induction h with
  | nil => exact ⟨.nil, .nil⟩
  | @plain c t refs hno _ ih =>
    obtain ⟨hlegible, hrewritten⟩ := ih hmovable
    have hpass : w.pass source target (c :: t) = c :: w.pass source target t :=
      replace_cons (Way.rewritten_eq_none (Way.find?_eq_none (hno w)))
    rw [hpass]
    exact ⟨.plain (fun w' hopens => hno w' (hrewritten.opens hopens)) hlegible, .plain c hrewritten⟩
  | @found w' r m t refs hread hother _ ih =>
    obtain ⟨hmov, hrest⟩ := List.forall_mem_cons.mp hmovable
    obtain ⟨hlegible, hrewritten⟩ := ih hrest
    have hbegins := Way.beginsReference hread
    rw [List.map_cons]
    by_cases hw : w' = w
    · subst hw
      have hpass : w'.pass source target (m ++ t) =
          w'.written source target m r ++ w'.pass source target t :=
        replace_found hbegins.ne_nil (Way.rewritten_eq hread)
      obtain ⟨hread', hother', hbegins'⟩ := Way.find?_rebased hread hother (hmov rfl)
        (w'.pass source target t)
      rw [hpass, Way.moved, if_pos rfl]
      exact ⟨.found hread' hother' hlegible, .found hbegins hbegins' hrewritten⟩
    · have hw' : w'.other = w := by
        cases w' <;> cases w <;> first | rfl | exact absurd rfl hw
      have hpass : w.pass source target (m ++ t) = m ++ w.pass source target t :=
        replace_over fun m₁ m₂ hm hne =>
          Way.rewritten_eq_none (Way.find?_inside hread (hw' ▸ hother) m₁ m₂ hm hne)
      rw [hpass, Way.moved, if_neg hw]
      exact ⟨.found (Way.find?_behind hread _) hother hlegible, .found hbegins hbegins hrewritten⟩

/-! ## all references -/

/-- a reference of a sheet that is written for another directory -/
def Reference.relocated (source target : Text) (r : Reference) : Reference :=
  if source = target then r else r.rebased source target

/-- **A legible sheet for another directory has the references that it had, for that directory.** -/
theorem Legible.rebase (h : Legible code refs)
    (hmovable : source ≠ target → ∀ x ∈ refs, x.2.Movable x.1 source target) :
    Legible (rebaseReferences code source target)
      (refs.map fun x => (x.1, x.2.relocated source target)) := by
  unfold rebaseReferences Reference.relocated
  by_cases hsame : source = target
  · simp only [if_pos hsame]
    exact (List.map_id' refs).symm ▸ h
  · simp only [if_neg hsame]
    replace hmovable := hmovable hsame
    obtain ⟨hurl, -⟩ := h.pass (w := .url) fun x hx hw => hw ▸ hmovable x hx
    have hsecond : ∀ x ∈ refs.map (Way.url.moved source target), x.1 = .sheet →
        x.2.Movable .sheet source target := by
      intro x hx hw
      obtain ⟨y, hy, rfl⟩ := List.mem_map.mp hx
      have hne : y.1 ≠ .url := by
        intro hyw
        rw [Way.moved, if_pos hyw, hyw] at hw
        exact nomatch hw
      rw [Way.moved, if_neg hne] at hw ⊢
      exact hw ▸ hmovable y hy
    obtain ⟨hsheet, -⟩ := hurl.pass hsecond
    rw [List.map_map] at hsheet
    have hboth : ∀ x ∈ refs, (Way.sheet.moved source target ∘ Way.url.moved source target) x =
        (x.1, x.2.rebased source target) := by
      rintro ⟨w, r⟩ -
      cases w <;> rfl
    rw [List.map_congr_left hboth] at hsheet
    exact hsheet

end

/-! ## merged sheets -/

/-- a sheet and the directory that its references are read from -/
structure Sheet where
  dir : Text
  code : Text

/-- the references of a sheet, as a search finds them -/
def Sheet.references (w : Way) (x : Sheet) : List (Sheet × Reference) :=
  (foundIn (fun _ => w.find?) x.code).map (x, ·)

/-- the references of the sheet can be written for the directory `target` -/
structure Sheet.Portable (target : Text) (x : Sheet) : Prop where
  legible : ∃ refs, Legible x.code refs
  admits : x.dir ≠ target → ∀ w : Way, ∀ r ∈ foundIn (fun _ => w.find?) x.code,
    isRelative r.url = true → ∀ place suffix,
      resolve? (directoryNames x.dir) r.url = some (place, suffix) →
        place ≠ directoryNames target ∧ ∀ name ∈ place, r.Admits w name

/-- sheets written for one directory, one behind the other -/
def mergedSheet (target : Text) (sheets : List Sheet) : Text :=
  join "\n\n".toList (sheets.map fun x => rebaseReferences x.code x.dir target)

section
variable {w : Way} {target : Text} {x : Sheet} {sheets : List Sheet} {refs : List (Way × Reference)}

theorem Sheet.Portable.movable (h : x.Portable target) (hrefs : Legible x.code refs)
    (hne : x.dir ≠ target) : ∀ y ∈ refs, y.2.Movable y.1 x.dir target ∧
      y.2.Keeps (directoryNames x.dir) (directoryNames target) (y.2.rebased x.dir target) := by
  rintro ⟨w, r⟩ hmem
  obtain ⟨hquotable, hother⟩ := hrefs.quotable _ hmem
  refine Reference.movable hquotable hother (h.admits hne w r ?_)
  rw [hrefs.foundIn]
  exact mem_ofWay.mpr hmem

theorem ofWay_map (f : Reference → Reference) (w : Way) (refs : List (Way × Reference)) :
    ofWay w (refs.map fun y => (y.1, f y.2)) = (ofWay w refs).map f := by
  induction refs with
  | nil => rfl
  | cons y refs ih =>
    obtain ⟨w', r⟩ := y
    by_cases hw : w' = w
    · subst hw
      rw [List.map_cons, ofWay_self, ofWay_self, List.map_cons, ih]
    · rw [List.map_cons, ofWay_other hw, ofWay_other hw, ih]

theorem ofWay_flatten (w : Way) (refs : List (List (Way × Reference))) :
    ofWay w refs.flatten = refs.flatMap (ofWay w) := by
  rw [ofWay, List.filterMap_flatten, List.flatMap_def]
  rfl

/-- the references of merged sheets are those of the sheets, written for the directory -/
theorem foundIn_mergedSheet (h : ∀ x ∈ sheets, x.Portable target) (w : Way) :
    foundIn (fun _ => w.find?) (mergedSheet target sheets) =
      (sheets.flatMap (·.references w)).map fun p => p.2.relocated p.1.dir target := by
  choose! refs hrefs using fun x hx => (h x hx).legible
  have hlegible : Legible (mergedSheet target sheets) (sheets.map fun x =>
      (refs x).map fun y => (y.1, y.2.relocated x.dir target)).flatten := by
    have hjoin := @legible_join (sheets.map fun x =>
      (rebaseReferences x.code x.dir target, (refs x).map fun y => (y.1, y.2.relocated x.dir target)))
      fun y hy => ?_
    · rwa [List.map_map, List.map_map] at hjoin
    · obtain ⟨x, hx, rfl⟩ := List.mem_map.mp hy
      exact (hrefs x hx).rebase fun hne z hz => ((h x hx).movable (hrefs x hx) hne z hz).1
  rw [hlegible.foundIn, ofWay_flatten, List.flatMap_map, List.map_flatMap]
  refine List.flatMap_congr fun x hx => ?_
  rw [ofWay_map (·.relocated x.dir target), ← (hrefs x hx).foundIn w, Sheet.references, List.map_map]
  rfl

/-- **References of merged sheets lead where they led.** -/
theorem keeps_mergedSheet (h : ∀ x ∈ sheets, x.Portable target) (w : Way) :
    List.Forall₂ (fun p r => p.2.Keeps (directoryNames p.1.dir) (directoryNames target) r)
      (sheets.flatMap (·.references w)) (foundIn (fun _ => w.find?) (mergedSheet target sheets)) := by
  rw [foundIn_mergedSheet h, List.forall₂_map_right_iff, List.forall₂_same]
  rintro ⟨x, r⟩ hp
  obtain ⟨x', hx, hr⟩ := List.mem_flatMap.mp hp
  obtain ⟨r', hr, e⟩ := List.mem_map.mp hr
  cases e
  unfold Reference.relocated
  split
  · rename_i hsame
    rw [hsame]
    exact Reference.keeps_self _ _
  · rename_i hne
    obtain ⟨refs, hrefs⟩ := (h x hx).legible
    rw [hrefs.foundIn] at hr
    exact ((h x hx).movable hrefs hne (w, r) (mem_ofWay.mp hr)).2

end
end SiteBundle
