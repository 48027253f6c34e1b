import SiteBundle.Module.Statement
import SiteBundle.Proofs.Text.LineStarts

/-!
# What the statement patterns read

Each pattern reads only where a line begins and takes something off the text.

* `keyword?_eq_some`, `statementEnd_eq`, `clause?_eq_some` and others   the readers;
* `atLines_importAt?` and others   where the patterns read;
* `importAt?_eq_some`, `exportListAt?_eq_some`, `defaultAt?_eq_some`, `declared?_parts`
  what they read;
* `takes_importAt?` and others     what they take.
-/

namespace SiteBundle

open Text

/-! ## readers -/

section
variable {t r rest : Text}

theorem keyword?_eq_some {w : Text} : keyword? w t = some r ↔ t = w ++ r :=
  ⟨fun h => (dropLead?_append h).symm, fun h => h ▸ dropLead?_self w r⟩

/-- a word that begins otherwise is not there -/
theorem keyword?_of_ne {c d : Char} {w : Text} (h : d ≠ c) : keyword? (c :: w) (d :: t) = none :=
  if_neg h

theorem someBlank?_eq_some : someBlank? t = some r ↔
    ∃ c t', t = c :: t' ∧ isBlank c = true ∧ r = t'.dropWhile isBlank := by
  cases t with
  | nil => exact ⟨nofun, fun ⟨_, _, h, _⟩ => nomatch h⟩
  | cons c t =>
    rw [someBlank?]
    split
    · rename_i hc
      refine ⟨fun h => ⟨c, t, rfl, hc, (Option.some.inj h).symm⟩, ?_⟩
      rintro ⟨c', t', h, -, rfl⟩
      cases h
      rfl
    · rename_i hc
      refine ⟨nofun, ?_⟩
      rintro ⟨c', t', h, hc', -⟩
      cases h
      exact absurd hc' hc

theorem someBlank?_suffix (h : someBlank? t = some r) : r <:+ t := by
  obtain ⟨c, t', rfl, -, rfl⟩ := someBlank?_eq_some.mp h
  exact (List.dropWhile_suffix _).trans (List.suffix_cons _ _)

theorem statementEnd_eq (t : Text) : ∃ b, t = b ++ statementEnd t ∧ '\n' ∉ b ∧
    ∀ c ∈ b, isIndent c = true ∨ c = ';' := by
  have hindent : ∀ c ∈ t.takeWhile isIndent, isIndent c = true :=
    List.all_eq_true.mp List.all_takeWhile
  have hnewline : '\n' ∉ t.takeWhile isIndent := fun h => nomatch hindent _ h
  have hsplit := (List.takeWhile_append_dropWhile (p := isIndent) (l := t)).symm
  unfold statementEnd
  split
  · rename_i rest hrest
    rw [hrest] at hsplit
    refine ⟨t.takeWhile isIndent ++ [';'], ?_, ?_, ?_⟩
    · rw [List.append_assoc]
      exact hsplit
    · rw [List.mem_append]
      exact fun h => h.elim hnewline fun h => nomatch List.mem_singleton.mp h
    · intro c hc
      exact (List.mem_append.mp hc).imp (hindent c) List.mem_singleton.mp
  · exact ⟨_, hsplit, hnewline, fun c hc => .inl (hindent c hc)⟩

theorem statementEnd_suffix (t : Text) : statementEnd t <:+ t := by
  obtain ⟨b, hb, -⟩ := statementEnd_eq t
  exact ⟨b, hb.symm⟩

theorem readUpTo_append (m rest : Text) : readUpTo (m ++ rest) rest = m := by
  rw [readUpTo, List.length_append, Nat.add_sub_cancel, List.take_left]

theorem address?_eq_some {a : Text} (h : address? t = some (a, rest)) :
    ∃ m q, t = m ++ q :: rest ∧ isQuote q = true := by
  cases t with
  | nil => exact nomatch h
  | cons q r =>
    rw [address?] at h
    split at h
    · split at h
      · rename_i d rest' hdrop
        cases h
        refine ⟨q :: r.takeWhile fun c => !isQuote c, d, ?_, ?_⟩
        · rw [List.cons_append, ← hdrop, List.takeWhile_append_dropWhile]
        · have := List.head_dropWhile_not (fun c => !isQuote c) (hdrop ▸ List.cons_ne_nil _ _)
          simpa [hdrop] using this
      · exact nomatch h
    · exact nomatch h

theorem fromPart?_eq_some {a : Text} (h : fromPart? t = some (a, rest)) :
    ∃ m q, t = m ++ q :: rest ∧ isQuote q = true := by
  obtain ⟨r, hr, h⟩ := Option.bind_eq_some_iff.mp h
  obtain ⟨m, q, hm, hq⟩ := address?_eq_some h
  refine ⟨t.takeWhile isBlank ++ ("from".toList ++ (r.takeWhile isBlank ++ m)), q, ?_, hq⟩
  rw [List.append_assoc, List.append_assoc, List.append_assoc, ← hm,
    List.takeWhile_append_dropWhile, ← keyword?_eq_some.mp hr, List.takeWhile_append_dropWhile]

theorem clause?_eq_some {c a : Text} (h : clause? t = some (c, a, rest)) :
    ∃ m q, t = m ++ q :: rest ∧ isQuote q = true := by
  induction t generalizing c with
  | nil =>
    unfold clause? at h
    split at h
    · rename_i hfrom
      cases h
      exact fromPart?_eq_some hfrom
    · exact nomatch h
  | cons d t ih =>
    unfold clause? at h
    split at h
    · rename_i hfrom
      cases h
      exact fromPart?_eq_some hfrom
    · dsimp only at h
      split at h
      · exact nomatch h
      · obtain ⟨⟨c', p⟩, hp, e⟩ := Option.map_eq_some_iff.mp h
        cases e
        obtain ⟨m, q, rfl, hq⟩ := ih hp
        exact ⟨d :: m, q, rfl, hq⟩

theorem ident?_suffix {name : Text} (h : ident? t = some (name, rest)) :
    name ++ rest = t ∧ name ≠ [] := by
  unfold ident? at h
  dsimp only at h
  split at h
  · exact nomatch h
  · rename_i hne
    cases h
    exact ⟨List.takeWhile_append_dropWhile, fun e => hne (List.isEmpty_iff.mpr e)⟩

theorem wordKeyword?_eq_some {words : List Text} {word : Text}
    (h : wordKeyword? words t = some (word, rest)) :
    word ∈ words ∧ ∃ r, t = word ++ r ∧ someBlank? r = some rest := by
  obtain ⟨w, hw, h⟩ := List.exists_of_findSome?_eq_some h
  obtain ⟨r, hr, h⟩ := Option.bind_eq_some_iff.mp h
  obtain ⟨r', hr', h⟩ := Option.bind_eq_some_iff.mp h
  cases h
  exact ⟨hw, r, keyword?_eq_some.mp hr, hr'⟩

/-- the keywords of a function begin with one of its words, and are a front part of the text but for
the last white space before the name -/
theorem functionKeywords?_eq_some {keywords : Text}
    (h : functionKeywords? t = some (keywords, rest)) : ∃ c k gap, keywords = c :: k ∧
      (c = 'a' ∨ c = 'f') ∧ t = keywords ++ gap ++ rest := by
  unfold functionKeywords? at h
  obtain ⟨r, hr, h⟩ := Option.bind_eq_some_iff.mp h
  -- what stands before the keyword `function`
  obtain ⟨front, c, k, hfront, hc, ht⟩ : ∃ front c k, front ++ "function".toList = c :: k ∧
      (c = 'a' ∨ c = 'f') ∧ t = front ++ "function".toList ++ r := by
    have hnone : t = "function".toList ++ r → ∃ front c k, front ++ "function".toList = c :: k ∧
        (c = 'a' ∨ c = 'f') ∧ t = front ++ "function".toList ++ r :=
      fun ht => ⟨[], _, _, rfl, .inr rfl, ht⟩
    split at hr
    · rename_i behind hasync
      cases hblank : someBlank? behind with
      | none =>
        rw [hblank] at hr
        exact hnone (keyword?_eq_some.mp hr)
      | some start =>
        rw [hblank] at hr
        obtain ⟨gap, hgap⟩ := someBlank?_suffix hblank
        refine ⟨"async".toList ++ gap, _, _, rfl, .inl rfl, ?_⟩
        have hstart : start = "function".toList ++ r := keyword?_eq_some.mp hr
        rw [keyword?_eq_some.mp hasync, ← hgap, hstart, List.append_assoc _ gap,
          List.append_assoc, List.append_assoc gap]
    · exact hnone (keyword?_eq_some.mp hr)
  dsimp only at h
  split at h
  · rename_i behind hdrop
    obtain ⟨r', hr', h⟩ := Option.bind_eq_some_iff.mp h
    cases h
    obtain ⟨gap, hgap⟩ := someBlank?_suffix hr'
    have hsplit : t = front ++ "function".toList ++ (r.takeWhile isBlank ++ ['*']) ++ behind := by
      rw [List.append_assoc _ _ behind, List.append_assoc _ _ behind, List.singleton_append, ← hdrop,
        List.takeWhile_append_dropWhile]
      exact ht
    have hread : readUpTo t behind = front ++ "function".toList ++ (r.takeWhile isBlank ++ ['*']) := by
      rw [hsplit, readUpTo_append]
    refine ⟨c, k ++ (r.takeWhile isBlank ++ ['*']), gap, ?_, hc, ?_⟩
    · rw [hread, hfront]
      rfl
    · rw [hread, List.append_assoc _ gap, hgap]
      exact hsplit
  · split at h
    · exact nomatch h
    · rename_i hgap
      cases h
      have hne : r.takeWhile isBlank ≠ [] := fun e => hgap (List.isEmpty_iff.mpr e)
      have hsplit : t = front ++ "function".toList ++ r.takeWhile isBlank ++
          r.dropWhile isBlank := by
        rw [List.append_assoc _ _ (r.dropWhile isBlank), List.takeWhile_append_dropWhile]
        exact ht
      have hread : (readUpTo t (r.dropWhile isBlank)).dropLast =
          front ++ "function".toList ++ (r.takeWhile isBlank).dropLast := by
        rw [hsplit, readUpTo_append, List.dropLast_append_of_ne_nil hne]
      refine ⟨c, k ++ (r.takeWhile isBlank).dropLast, [(r.takeWhile isBlank).getLast hne], ?_, hc, ?_⟩
      · rw [hread, hfront]
        rfl
      · rw [hread, List.append_assoc _ _ [_], List.dropLast_concat_getLast]
        exact hsplit

end

theorem isBlank_of_isIndent {c : Char} (h : isIndent c = true) : isBlank c = true := by
  rcases Bool.or_eq_true_iff.mp h with h | h <;> rw [beq_iff_eq.mp h] <;> rfl

theorem isIdentChar_of_isBlank {c : Char} (h : isBlank c = true) : isIdentChar c = false := by
  rw [isIdentChar, isWord_of_isBlank h, beq_of_isBlank h rfl]
  rfl

/-! ## patterns -/

section
variable {s : Spot} {t r rest indent : Text}

theorem exportAt?_start (t : Text) : exportAt? .start t =
    (keyword? "export".toList (t.dropWhile isIndent)).map fun r => (t.takeWhile isIndent, r) := by
  unfold exportAt?
  cases keyword? "export".toList (t.dropWhile isIndent) <;> rfl

theorem atLines_exportAt? : AtLines exportAt? := by
  intro s t
  unfold exportAt?
  cases s.atLineStart <;> rfl

theorem exportAt?_eq_some (h : exportAt? s t = some (indent, r)) :
    t = indent ++ ("export".toList ++ r) ∧ ∀ c ∈ indent, isIndent c = true := by
  rw [atLines_exportAt?] at h
  split at h
  · rw [exportAt?_start] at h
    obtain ⟨r', hr', h⟩ := Option.map_eq_some_iff.mp h
    cases h
    rw [← keyword?_eq_some.mp hr', List.takeWhile_append_dropWhile]
    exact ⟨rfl, List.all_eq_true.mp List.all_takeWhile⟩
  · exact nomatch h

theorem Text.AtLines.bind {α β : Type} {p : Spot → Text → Option (α × Text)} (hp : AtLines p)
    (g : Text → α × Text → Option (β × Text)) : AtLines fun s t => (p s t).bind (g t) := by
  intro s t
  show (p s t).bind (g t) = if s.atLineStart then (p .start t).bind (g t) else none
  rw [hp s t]
  cases s.atLineStart <;> rfl

theorem atLines_importAt? : AtLines importAt? := by
  intro s t
  unfold importAt?
  cases s.atLineStart <;> rfl

theorem atLines_exportStarAt? : AtLines exportStarAt? := atLines_exportAt?.bind _

theorem atLines_exportListAt? : AtLines exportListAt? := atLines_exportAt?.bind _

theorem atLines_defaultAt? : AtLines defaultAt? := atLines_exportAt?.bind _

theorem atLines_namedDefaultAt? : AtLines namedDefaultAt? :=
  atLines_defaultAt?.bind fun _ r => declared? ["class".toList] r.1 r.2

theorem atLines_declarationAt? : AtLines declarationAt? := atLines_exportAt?.bind _

/-- the text behind an export is a part of the text behind `export` -/
theorem takes_of_suffix {α : Type} {p : Spot → Text → Option (α × Text)}
    (h : ∀ s t a rest, p s t = some (a, rest) →
      ∃ indent r, exportAt? s t = some (indent, r) ∧ rest <:+ r) : Takes p := by
  intro s t a rest hread
  obtain ⟨indent, r, hexport, front, rfl⟩ := h s t a rest hread
  refine ⟨indent ++ ("export".toList ++ front), ?_, ?_⟩
  · exact List.append_ne_nil_of_right_ne_nil _ (List.cons_ne_nil _ _)
  · rw [(exportAt?_eq_some hexport).1, List.append_assoc, List.append_assoc]

theorem defaultAt?_eq_some (h : defaultAt? s t = some (indent, rest)) :
    ∃ r r₁ r₂, exportAt? s t = some (indent, r) ∧ someBlank? r = some r₁ ∧
      r₁ = "default".toList ++ r₂ ∧ someBlank? r₂ = some rest := by
  obtain ⟨⟨i, r⟩, hr, h⟩ := Option.bind_eq_some_iff.mp h
  obtain ⟨r₁, hr₁, h⟩ := Option.bind_eq_some_iff.mp h
  obtain ⟨r₂, hr₂, h⟩ := Option.bind_eq_some_iff.mp h
  obtain ⟨r₃, hr₃, h⟩ := Option.bind_eq_some_iff.mp h
  cases h
  exact ⟨r, r₁, r₂, hr, hr₁, keyword?_eq_some.mp hr₂, hr₃⟩

theorem declared?_eq_some {words : List Text} {e : Exported}
    (h : declared? words indent t = some (e, rest)) :
    ∃ r, (functionKeywords? t).or (wordKeyword? words t) = some (e.keywords, r) ∧
      e.indent = indent ∧ e.name ++ rest = r ∧ e.name ≠ [] := by
  obtain ⟨⟨keywords, r⟩, hr, h⟩ := Option.bind_eq_some_iff.mp h
  obtain ⟨⟨name, rest'⟩, hname, h⟩ := Option.bind_eq_some_iff.mp h
  cases h
  obtain ⟨hsplit, hne⟩ := ident?_suffix hname
  exact ⟨r, hr, rfl, hsplit, hne⟩

/-- what is declared begins with a keyword, and its parts are parts of the text -/
theorem declared?_parts {words : List Text} {e : Exported}
    (hwords : ∀ w ∈ words, ∃ c ∈ ['c', 'l', 'v'], w.head? = some c)
    (h : declared? words indent t = some (e, rest)) : e.indent = indent ∧ rest <:+ t ∧
      (∃ c k, e.keywords = c :: k ∧ c ∈ ['a', 'f', 'c', 'l', 'v'] ∧ t.head? = some c) ∧
      (∀ c ∈ e.keywords, c ∈ t) ∧ ∀ c ∈ e.name, c ∈ t := by
  obtain ⟨r, hkeywords, hindent, hname, -⟩ := declared?_eq_some h
  -- the text is the keywords, white space, the name, and the rest
  obtain ⟨c, k, gap, hk, hc, ht⟩ : ∃ c k gap, e.keywords = c :: k ∧ c ∈ ['a', 'f', 'c', 'l', 'v'] ∧
      t = e.keywords ++ gap ++ r := by
    rcases Option.or_eq_some_iff.mp hkeywords with hfunction | ⟨-, hword⟩
    · obtain ⟨c, k, gap, hk, hc, ht⟩ := functionKeywords?_eq_some hfunction
      refine ⟨c, k, gap, hk, ?_, ht⟩
      rcases hc with rfl | rfl <;> decide
    · obtain ⟨hmem, r', ht, hblank⟩ := wordKeyword?_eq_some hword
      obtain ⟨gap, hgap⟩ := someBlank?_suffix hblank
      obtain ⟨c, hc, hhead⟩ := hwords _ hmem
      obtain ⟨k, hk⟩ := List.head?_eq_some_iff.mp hhead
      refine ⟨c, k, gap, hk, List.mem_append_right ['a', 'f'] hc, ?_⟩
      rw [List.append_assoc, hgap]
      exact ht
  rw [← hname] at ht
  refine ⟨hindent, ⟨e.keywords ++ gap ++ e.name, ?_⟩, ⟨c, k, hk, hc, ?_⟩, fun d hd => ?_, fun d hd => ?_⟩
  · rw [List.append_assoc _ e.name]
    exact ht.symm
  · rw [ht, hk]
    rfl
  · rw [ht]
    exact List.mem_append_left _ (List.mem_append_left _ hd)
  · rw [ht]
    exact List.mem_append_right _ (List.mem_append_left _ hd)

theorem namedDefaultAt?_eq_some {e : Exported} (h : namedDefaultAt? s t = some (e, rest)) :
    ∃ indent r, defaultAt? s t = some (indent, r) ∧
      declared? ["class".toList] indent r = some (e, rest) := by
  obtain ⟨⟨i, r⟩, hr, h⟩ := Option.bind_eq_some_iff.mp h
  exact ⟨i, r, hr, h⟩

def declarationWords : List Text :=
  ["const".toList, "let".toList, "var".toList, "class".toList]

theorem declarationAt?_eq_some {e : Exported} (h : declarationAt? s t = some (e, rest)) :
    ∃ indent r r₁, exportAt? s t = some (indent, r) ∧ someBlank? r = some r₁ ∧
      declared? declarationWords indent r₁ = some (e, rest) := by
  obtain ⟨⟨i, r⟩, hr, h⟩ := Option.bind_eq_some_iff.mp h
  obtain ⟨r₁, hr₁, h⟩ := Option.bind_eq_some_iff.mp h
  exact ⟨i, r, r₁, hr, hr₁, h⟩

theorem class_words : ∀ w ∈ ["class".toList], ∃ c ∈ ['c', 'l', 'v'], w.head? = some c := by
  decide

theorem declaration_words : ∀ w ∈ declarationWords, ∃ c ∈ ['c', 'l', 'v'], w.head? = some c := by
  decide

/-- a list of exports, read from its parts -/
theorem exportListAt?_eq_some {x : ExportList} (h : exportListAt? s t = some (x, rest)) :
    ∃ indent r behind, exportAt? s t = some (indent, r) ∧
      r.dropWhile isBlank = '\x7b' :: (x.specifiers ++ '\x7d' :: behind) ∧
      '\x7d' ∉ x.specifiers ∧ x.hasSource = (fromPart? behind).isSome ∧
      (x.hasSource = false → rest = statementEnd (behind.dropWhile isBlank)) ∧ rest <:+ behind := by
  obtain ⟨⟨i, r⟩, hr, h⟩ := Option.bind_eq_some_iff.mp h
  dsimp only at h
  split at h
  · rename_i r' hdrop
    obtain ⟨⟨inside, behind⟩, hcut, h⟩ := Option.bind_eq_some_iff.mp h
    obtain ⟨hr', hno⟩ := cutAt?_eq_some hcut
    cases h
    refine ⟨i, r, behind, hr, hdrop.trans (congrArg _ hr'), hno, rfl, fun hx => ?_, ?_⟩
    · have hfrom : fromPart? behind = none := Option.not_isSome_iff_eq_none.mp (Bool.eq_false_iff.mp hx)
      refine congrArg statementEnd ?_
      split
      · rename_i hsome
        cases hfrom.symm.trans hsome
      · rfl
    · refine (statementEnd_suffix _).trans ?_
      split
      · rename_i a rest hfrom
        obtain ⟨m, q, hm, -⟩ := fromPart?_eq_some hfrom
        exact ⟨m ++ [q], by rw [List.append_assoc]; exact hm.symm⟩
      · exact List.dropWhile_suffix _
  · cases h

theorem takes_exportListAt? : Takes exportListAt? := by
  refine takes_of_suffix fun s t x rest h => ?_
  obtain ⟨indent, r, behind, hr, hdrop, -, -, -, hrest⟩ := exportListAt?_eq_some h
  refine ⟨indent, r, hr, hrest.trans ?_⟩
  refine List.IsSuffix.trans ⟨'\x7b' :: (x.specifiers ++ ['\x7d']), ?_⟩ (List.dropWhile_suffix isBlank)
  rw [hdrop, List.cons_append, List.append_assoc]
  rfl

theorem takes_defaultAt? : Takes defaultAt? := by
  refine takes_of_suffix fun s t indent rest h => ?_
  obtain ⟨r, r₁, r₂, hr, hr₁, rfl, hrest⟩ := defaultAt?_eq_some h
  exact ⟨indent, r, hr, ((someBlank?_suffix hrest).trans (List.suffix_append _ _)).trans
    (someBlank?_suffix hr₁)⟩

theorem takes_namedDefaultAt? : Takes namedDefaultAt? := by
  refine takes_of_suffix fun s t e rest h => ?_
  obtain ⟨indent, r', hr', he⟩ := namedDefaultAt?_eq_some h
  obtain ⟨r, r₁, r₂, hr, hr₁, rfl, hrest⟩ := defaultAt?_eq_some hr'
  exact ⟨indent, r, hr, (((declared?_parts class_words he).2.1.trans (someBlank?_suffix hrest)).trans
    (List.suffix_append _ _)).trans (someBlank?_suffix hr₁)⟩

theorem takes_declarationAt? : Takes declarationAt? := by
  refine takes_of_suffix fun s t e rest h => ?_
  obtain ⟨indent, r, r₁, hr, hr₁, he⟩ := declarationAt?_eq_some h
  exact ⟨indent, r, hr, (declared?_parts declaration_words he).2.1.trans (someBlank?_suffix hr₁)⟩

/-- an import ends on the line of its address -/
theorem importAt?_eq_some {i : Import} (h : importAt? s t = some (i, rest)) :
    (∃ r, t.dropWhile isIndent = "import".toList ++ r) ∧
      ∃ m q, t = m ++ q :: rest ∧ q ≠ '\n' := by
  rw [atLines_importAt?] at h
  split at h
  · obtain ⟨r, hr, h⟩ := Option.bind_eq_some_iff.mp h
    obtain ⟨⟨clause, specifier, rest'⟩, hparts, h⟩ := Option.bind_eq_some_iff.mp h
    cases h
    have hr := keyword?_eq_some.mp hr
    obtain ⟨m, q, hm, hq⟩ : ∃ m q, r.dropWhile isBlank = m ++ q :: rest' ∧ isQuote q = true := by
      rcases Option.or_eq_some_iff.mp hparts with hclause | ⟨-, haddress⟩
      · exact clause?_eq_some hclause
      · obtain ⟨p, hp, e⟩ := Option.map_eq_some_iff.mp haddress
        cases e
        exact address?_eq_some hp
    obtain ⟨b, hb, hno, -⟩ := statementEnd_eq rest'
    refine ⟨⟨r, hr⟩, ?_⟩
    have hsplit : t = t.takeWhile isIndent ++ ("import".toList ++ (r.takeWhile isBlank ++ m)) ++
        (q :: b) ++ statementEnd rest' := by
      rw [List.append_assoc, List.cons_append, ← hb, List.append_assoc, List.append_assoc,
        List.append_assoc, ← hm, List.takeWhile_append_dropWhile, ← hr,
        List.takeWhile_append_dropWhile]
    -- what is behind the address on its line is taken too
    have hno : '\n' ∉ q :: b := by
      intro h
      rcases List.mem_cons.mp h with e | hmem
      · rw [← e] at hq
        exact nomatch hq
      · exact hno hmem
    obtain ⟨b', d, hlast⟩ := (List.eq_nil_or_concat (q :: b)).resolve_left (List.cons_ne_nil _ _)
    rw [hlast, List.concat_eq_append] at hsplit hno
    refine ⟨t.takeWhile isIndent ++ ("import".toList ++ (r.takeWhile isBlank ++ m)) ++ b', d, ?_, ?_⟩
    · rw [List.append_assoc _ b', List.append_cons b', ← List.append_assoc]
      exact hsplit
    · exact fun e => hno (List.mem_append_right _ (List.mem_singleton.mpr e.symm))
  · exact nomatch h

theorem takes_importAt? : Takes importAt? := by
  intro s t i rest h
  obtain ⟨-, m, q, rfl, -⟩ := importAt?_eq_some h
  exact ⟨m ++ [q], List.append_ne_nil_of_right_ne_nil _ (List.cons_ne_nil _ _),
    by rw [List.append_assoc]; rfl⟩

end
end SiteBundle
