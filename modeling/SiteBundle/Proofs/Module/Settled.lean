import SiteBundle.Proofs.Module.Statements

/-!
# Lines that begin with a statement

`opensStatement` tells whether a line begins with a static import or an export.  A line that does not
is no business of the export patterns.  A line that does is `Settled` when the patterns for default
exports and declarations read it in the same way whatever lines follow (`Decided`); what is put in the
place of the statement then begins with no statement (`opensStatement_text`, `opensStatement_var`).

* `behindExport`    the character behind `export`, which tells the kinds of exports apart;
* `Settled.drop`    white space and semicolons in front do not matter.
-/

namespace SiteBundle

open Text

/-- what may stand between the beginning of a line and a statement -/
def isMargin (c : Char) : Bool := isBlank c || c == ';'

/-- behind a word these make a call, a meta property or the name of a property of it -/
def isUse (c : Char) : Bool := c == '(' || c == '.' || c == ':'

/-- whether a line begins with a static import or an export -/
def opensStatement (l : Text) : Bool :=
  let l := l.dropWhile isMargin
  match (keyword? "import".toList l).or (keyword? "export".toList l) with
  | none => false
  | some r => !(r.head?.any isIdentChar) && !((r.dropWhile isBlank).head?.any isUse)

example : ["  import a from './a.js';", "\texport default 1", "; export {a}", "import(a)",
      "important()", "import.meta.url", "var exported = 1;"].map (fun l => opensStatement l.toList) =
    [true, true, true, false, false, false, false] := by
  decide +kernel

/-! ## lines without a statement -/

section
variable {t l m r rest indent : Text} {s : Spot}

theorem opensStatement_margin (hm : ∀ c ∈ m, isMargin c = true) (l : Text) :
    opensStatement (m ++ l) = opensStatement l := by
  unfold opensStatement
  rw [List.dropWhile_append_of_pos hm]

theorem opensStatement_cons {c : Char} (hc : isMargin c = false) (hi : c ≠ 'i') (he : c ≠ 'e')
    (l : Text) : opensStatement (c :: l) = false := by
  unfold opensStatement
  rw [List.dropWhile_cons_of_neg (by rw [hc]; exact Bool.false_ne_true)]
  show (match (keyword? ('i' :: "mport".toList) (c :: l)).or
    (keyword? ('e' :: "xport".toList) (c :: l)) with | none => false | some r => _) = false
  rw [keyword?_of_ne hi, keyword?_of_ne he]
  rfl

theorem isMargin_of_isIndent {c : Char} (h : isIndent c = true) : isMargin c = true :=
  Bool.or_eq_true_iff.mpr (.inl (isBlank_of_isIndent h))

/-- the variable that holds a default export begins no statement -/
theorem opensStatement_var (hindent : ∀ c ∈ indent, isIndent c = true) (l : Text) :
    opensStatement (indent ++ ("var ".toList ++ l)) = false := by
  rw [opensStatement_margin fun c hc => isMargin_of_isIndent (hindent c hc)]
  exact opensStatement_cons (c := 'v') (by decide) (by decide) (by decide) _

/-- nor does a declaration -/
theorem opensStatement_text {words : List Text} {e : Exported}
    (hwords : ∀ w ∈ words, ∃ c ∈ ['c', 'l', 'v'], w.head? = some c)
    (hindent : ∀ c ∈ indent, isIndent c = true)
    (h : declared? words indent t = some (e, rest)) (l : Text) :
    opensStatement (e.text ++ l) = false := by
  obtain ⟨rfl, -, ⟨c, k, hk, hc, -⟩, -⟩ := declared?_parts hwords h
  have hkinds : ∀ c ∈ ['a', 'f', 'c', 'l', 'v'], isMargin c = false ∧ c ≠ 'i' ∧ c ≠ 'e' := by decide
  obtain ⟨hmargin, hi, he⟩ := hkinds c hc
  rw [Exported.text, hk, List.append_assoc, List.append_assoc,
    opensStatement_margin fun c hc => isMargin_of_isIndent (hindent c hc)]
  exact opensStatement_cons hmargin hi he _

/-! ## kinds of exports -/

/-- the first character behind `export` and white space -/
def behindExport (t : Text) : Option Char :=
  (exportAt? .start t).bind fun r =>
    if r.2.head?.any isIdentChar then none else (r.2.dropWhile isBlank).head?

theorem exportAt?_text (hindent : ∀ c ∈ indent, isIndent c = true) (r : Text) :
    exportAt? .start (indent ++ ("export".toList ++ r)) = some (indent, r) := by
  rw [exportAt?_start, List.dropWhile_append_of_pos hindent, List.takeWhile_append_of_pos hindent]
  show (keyword? "export".toList ("export".toList ++ r)).map _ = _
  rw [keyword?_eq_some.mpr rfl]
  exact congrArg (fun i => some (i, r)) (List.append_nil indent)

/-- the text behind the word, when a character that is in no name follows -/
theorem behindExport_eq {c : Char} {r' : Text} (h : exportAt? s t = some (indent, r))
    (hdrop : r.dropWhile isBlank = c :: r')
    (hhead : r.head?.any isIdentChar = false) : behindExport t = some c := by
  have hindent := exportAt?_eq_some h
  rw [behindExport, hindent.1, exportAt?_text hindent.2, Option.bind_some, if_neg, hdrop]
  · rfl
  · rw [hhead]
    exact Bool.false_ne_true

theorem any_isIdentChar_of_isBlank {c : Char} (h : isBlank c = true) (r : Text) :
    (c :: r).head?.any isIdentChar = false := isIdentChar_of_isBlank h

theorem behindExport_of_someBlank {c : Char} {r₁ : Text} (h : exportAt? s t = some (indent, r))
    (hblank : someBlank? r = some (c :: r₁)) : behindExport t = some c := by
  obtain ⟨b, r', rfl, hb, hr⟩ := someBlank?_eq_some.mp hblank
  have hdrop : (b :: r').dropWhile isBlank = c :: r₁ := by
    rw [List.dropWhile_cons_of_pos hb]
    exact hr.symm
  exact behindExport_eq h hdrop (any_isIdentChar_of_isBlank hb _)

theorem behindExport_of_list {x : ExportList} (h : exportListAt? s t = some (x, rest)) :
    behindExport t = some '\x7b' := by
  obtain ⟨indent, r, behind, hr, hdrop, -⟩ := exportListAt?_eq_some h
  refine behindExport_eq hr hdrop ?_
  cases r with
  | nil => exact nomatch hdrop
  | cons c r =>
    cases hc : isBlank c with
    | true => exact any_isIdentChar_of_isBlank hc r
    | false =>
      rw [List.dropWhile_cons_of_neg (by rw [hc]; exact Bool.false_ne_true)] at hdrop
      cases hdrop
      exact rfl

theorem behindExport_of_default (h : defaultAt? s t = some (indent, rest)) :
    behindExport t = some 'd' := by
  obtain ⟨r, r₁, r₂, hr, hr₁, rfl, -⟩ := defaultAt?_eq_some h
  exact behindExport_of_someBlank hr hr₁

theorem behindExport_of_namedDefault {e : Exported} (h : namedDefaultAt? s t = some (e, rest)) :
    behindExport t = some 'd' := by
  obtain ⟨indent, r, hr, -⟩ := namedDefaultAt?_eq_some h
  exact behindExport_of_default hr

theorem behindExport_of_declaration {e : Exported} (h : declarationAt? s t = some (e, rest)) :
    ∃ c ∈ ['a', 'f', 'c', 'l', 'v'], behindExport t = some c := by
  obtain ⟨indent, r, r₁, hr, hr₁, he⟩ := declarationAt?_eq_some h
  obtain ⟨-, -, ⟨c, k, -, hc, hhead⟩, -⟩ := declared?_parts declaration_words he
  obtain ⟨r₂, rfl⟩ := List.head?_eq_some_iff.mp hhead
  exact ⟨c, hc, behindExport_of_someBlank hr hr₁⟩

/-- what stands before and behind the word -/
theorem exists_of_behindExport {c : Char} (h : behindExport l = some c) :
    ∃ indent r, l = indent ++ ("export".toList ++ r) ∧ (∀ d ∈ indent, isIndent d = true) ∧
      r.head?.any isIdentChar = false ∧ (r.dropWhile isBlank).head? = some c := by
  obtain ⟨⟨indent, r⟩, hr, hread⟩ := Option.bind_eq_some_iff.mp h
  obtain ⟨hl, hindent⟩ := exportAt?_eq_some hr
  split at hread
  · exact nomatch hread
  · rename_i hhead
    exact ⟨indent, r, hl, hindent, Bool.eq_false_iff.mpr hhead, hread⟩

/-- more text behind changes nothing -/
theorem behindExport_append {c : Char} (h : behindExport l = some c) (u : Text) :
    behindExport (l ++ u) = some c := by
  obtain ⟨indent, r, rfl, hindent, hhead, hread⟩ := exists_of_behindExport h
  obtain ⟨r', hr'⟩ := List.head?_eq_some_iff.mp hread
  rw [List.append_assoc, List.append_assoc]
  have hdrop : (r ++ u).dropWhile isBlank = c :: (r' ++ u) := by
    rw [List.dropWhile_append, hr']
    rfl
  refine behindExport_eq (exportAt?_text hindent _) hdrop ?_
  cases r with
  | nil => exact nomatch hr'
  | cons d r => exact hhead

/-- an export that a pattern may read begins its line -/
theorem opensStatement_of_behindExport {c : Char} (h : behindExport t = some c)
    (hc : isUse c = false) : opensStatement (firstLine t) = true := by
  obtain ⟨indent, r, rfl, hindent, hhead, hread⟩ := exists_of_behindExport h
  have hno : '\n' ∉ indent ++ "export".toList := by
    intro hmem
    rcases List.mem_append.mp hmem with hmem | hmem
    · exact nomatch hindent _ hmem
    · exact absurd hmem (by decide)
  rw [← List.append_assoc, firstLine_append hno, List.append_assoc,
    opensStatement_margin fun c hc => isMargin_of_isIndent (hindent c hc)]
  -- the line goes on as the text does, or ends
  have hline : (firstLine r).head?.any isIdentChar = false ∧
      ((firstLine r).dropWhile isBlank).head?.any isUse = false := by
    rcases firstLine_eq_or r with hr' | ⟨u, hr'⟩
    · rw [← hr', hread]
      exact ⟨hhead, hc⟩
    · constructor
      · cases hfirst : firstLine r with
        | nil => rfl
        | cons d l =>
          rw [hr', hfirst] at hhead
          exact hhead
      · cases hdrop : (firstLine r).dropWhile isBlank with
        | nil => rfl
        | cons d l =>
          rw [hr', List.dropWhile_append, hdrop] at hread
          cases hread
          exact hc
  show (match (keyword? "import".toList ("export".toList ++ firstLine r)).or
    (keyword? "export".toList ("export".toList ++ firstLine r)) with
      | none => false
      | some r => !(r.head?.any isIdentChar) && !((r.dropWhile isBlank).head?.any isUse)) = true
  rw [keyword?_eq_some.mpr rfl,
    show keyword? "import".toList ("export".toList ++ firstLine r) = none from
      keyword?_of_ne (by decide)]
  show (!_ && !_) = true
  rw [hline.1, hline.2]
  rfl

end

/-! ## lines that are read whatever follows -/

/-- what the pattern reads on the line does not depend on the lines behind -/
def Decided {α : Type} (p : Spot → Text → Option (α × Text)) (l : Text) : Prop :=
  ∀ t, p .start (l ++ '\n' :: t) = (p .start l).map fun r => (r.1, r.2 ++ '\n' :: t)

/-- a line that begins with no statement, or with an export that is read on it -/
inductive Settled (l : Text) : Prop
  | bare (h : opensStatement l = false)
  | value (h : (defaultAt? .start l).isSome) (decided : Decided defaultAt? l)
      (named : Decided namedDefaultAt? l)
  | declaration (h : (declarationAt? .start l).isSome) (decided : Decided declarationAt? l)

section
variable {α : Type} {p : Spot → Text → Option (α × Text)} {c : Char} {t l m : Text}

theorem Decided.read (h : Decided p (firstLine t)) : ∃ u, p .start t =
    (p .start (firstLine t)).map fun r => (r.1, r.2 ++ u) := by
  rcases firstLine_eq_or t with ht | ⟨u, ht⟩
  · refine ⟨[], ?_⟩
    rw [← ht]
    cases p .start t with
    | none => rfl
    | some r => rw [Option.map_some, List.append_nil]
  · refine ⟨'\n' :: u, ?_⟩
    rw [← h u, ← ht]

theorem Decided.isSome (h : Decided p (firstLine t)) (hread : (p .start (firstLine t)).isSome) :
    (p .start t).isSome := by
  obtain ⟨u, hu⟩ := h.read
  rw [hu, Option.isSome_map]
  exact hread

/-- a pattern that reads the same behind one more character of white space -/
theorem Decided.tail {g : α → α} (hg : ∀ a b, g a = g b → a = b)
    (hcons : ∀ t, p .start (c :: t) = (p .start t).map fun r => (g r.1, r.2))
    (h : Decided p (c :: l)) : Decided p l := by
  intro t
  have hinj : ∀ r r' : α × Text, (g r.1, r.2) = (g r'.1, r'.2) → r = r' := fun r r' e =>
    Prod.ext (hg _ _ (Prod.mk.inj e).1) (Prod.mk.inj e).2
  refine Option.map_injective hinj ?_
  have ht := h t
  rw [List.cons_append, hcons, hcons, Option.map_map] at ht
  rw [ht, Option.map_map]
  rfl

theorem exportAt?_cons (hc : isIndent c = true) (t : Text) : exportAt? .start (c :: t) =
    (exportAt? .start t).map fun r => (c :: r.1, r.2) := by
  rw [exportAt?_start, exportAt?_start, List.dropWhile_cons_of_pos hc,
    List.takeWhile_cons_of_pos hc, Option.map_map]
  rfl

theorem defaultAt?_cons (hc : isIndent c = true) (t : Text) : defaultAt? .start (c :: t) =
    (defaultAt? .start t).map fun r => (c :: r.1, r.2) := by
  unfold defaultAt?
  rw [exportAt?_cons hc]
  cases exportAt? .start t with
  | none => rfl
  | some r =>
    simp only [Option.map_some, Option.bind_eq_bind, Option.bind_some]
    cases someBlank? r.2 with
    | none => rfl
    | some r₁ =>
      simp only [Option.bind_some]
      cases keyword? "default".toList r₁ with
      | none => rfl
      | some r₂ =>
        simp only [Option.bind_some]
        cases someBlank? r₂ <;> rfl

def Exported.indented (c : Char) (e : Exported) : Exported := { e with indent := c :: e.indent }

theorem Exported.indented_inj (c : Char) (e e' : Exported) (h : e.indented c = e'.indented c) :
    e = e' := by
  cases e
  cases e'
  cases h
  rfl

theorem declared?_cons (words : List Text) (indent t : Text) : declared? words (c :: indent) t =
    (declared? words indent t).map fun r => (r.1.indented c, r.2) := by
  unfold declared?
  cases (functionKeywords? t).or (wordKeyword? words t) with
  | none => rfl
  | some r =>
    simp only [Option.bind_eq_bind, Option.bind_some]
    cases ident? r.2 <;> rfl

theorem namedDefaultAt?_cons (hc : isIndent c = true) (t : Text) : namedDefaultAt? .start (c :: t) =
    (namedDefaultAt? .start t).map fun r => (r.1.indented c, r.2) := by
  unfold namedDefaultAt?
  rw [defaultAt?_cons hc]
  cases defaultAt? .start t with
  | none => rfl
  | some r => exact declared?_cons _ r.1 r.2

theorem declarationAt?_cons (hc : isIndent c = true) (t : Text) : declarationAt? .start (c :: t) =
    (declarationAt? .start t).map fun r => (r.1.indented c, r.2) := by
  unfold declarationAt?
  rw [exportAt?_cons hc]
  cases exportAt? .start t with
  | none => rfl
  | some r =>
    simp only [Option.map_some, Option.bind_eq_bind, Option.bind_some]
    cases someBlank? r.2 with
    | none => rfl
    | some r₁ => exact declared?_cons _ r.1 r₁

/-- an export behind a character that may stand in front is indented by it -/
theorem isIndent_of_behindExport {d : Char} (hc : isMargin c = true)
    (h : behindExport (c :: t) = some d) : isIndent c = true := by
  obtain ⟨⟨indent, r⟩, hr, -⟩ := Option.bind_eq_some_iff.mp h
  obtain ⟨ht, hindent⟩ := exportAt?_eq_some hr
  cases indent with
  | nil =>
    cases ht
    exact absurd hc (by decide)
  | cons d indent =>
    cases ht
    exact hindent c List.mem_cons_self

theorem Settled.tail (h : Settled (c :: l)) (hc : isMargin c = true) : Settled l := by
  cases h with
  | bare h =>
    rw [← List.singleton_append, opensStatement_margin fun d hd => List.mem_singleton.mp hd ▸ hc] at h
    exact .bare h
  | value h decided named =>
    obtain ⟨r, hr⟩ := Option.isSome_iff_exists.mp h
    have hindent := isIndent_of_behindExport hc (behindExport_of_default hr)
    rw [defaultAt?_cons hindent, Option.isSome_map] at h
    exact .value h (decided.tail (fun _ _ e => (List.cons.inj e).2) (defaultAt?_cons hindent))
      (named.tail (Exported.indented_inj c) (namedDefaultAt?_cons hindent))
  | declaration h decided =>
    obtain ⟨r, hr⟩ := Option.isSome_iff_exists.mp h
    obtain ⟨d, -, hd⟩ := behindExport_of_declaration hr
    have hindent := isIndent_of_behindExport hc hd
    rw [declarationAt?_cons hindent, Option.isSome_map] at h
    exact .declaration h (decided.tail (Exported.indented_inj c) (declarationAt?_cons hindent))

/-- what may stand in front does not matter -/
theorem Settled.drop (h : Settled (m ++ l)) (hm : ∀ c ∈ m, isMargin c = true) : Settled l := by
  induction m with
  | nil => exact h
  | cons c m ih =>
    obtain ⟨hc, hm⟩ := List.forall_mem_cons.mp hm
    exact ih (h.tail hc) hm

/-- the export that begins a settled line -/
theorem Settled.behindExport (h : Settled (firstLine t)) (hread : behindExport t = some c)
    (hc : isUse c = false) :
    (c = 'd' ∧ (defaultAt? .start (firstLine t)).isSome ∧ Decided defaultAt? (firstLine t) ∧
      Decided namedDefaultAt? (firstLine t)) ∨
    (c ∈ ['a', 'f', 'c', 'l', 'v'] ∧ (declarationAt? .start (firstLine t)).isSome ∧
      Decided declarationAt? (firstLine t)) := by
  -- what is read on the line is read in the text
  have hline : ∀ d, SiteBundle.behindExport (firstLine t) = some d → c = d := by
    intro d hd
    obtain ⟨u, ht⟩ := exists_firstLine_append t
    have hd' : SiteBundle.behindExport t = some d := by
      rw [ht]
      exact behindExport_append hd u
    exact Option.some.inj (hread.symm.trans hd')
  cases h with
  | bare h =>
    rw [opensStatement_of_behindExport hread hc] at h
    exact nomatch h
  | value h decided named =>
    obtain ⟨r, hr⟩ := Option.isSome_iff_exists.mp h
    exact .inl ⟨hline _ (behindExport_of_default hr), h, decided, named⟩
  | declaration h decided =>
    obtain ⟨r, hr⟩ := Option.isSome_iff_exists.mp h
    obtain ⟨d, hd, hbehind⟩ := behindExport_of_declaration hr
    exact .inr ⟨hline d hbehind ▸ hd, h, decided⟩

end
end SiteBundle
