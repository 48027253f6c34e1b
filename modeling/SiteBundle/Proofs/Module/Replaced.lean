import SiteBundle.Proofs.Bundle.Naming
import SiteBundle.Proofs.Module.Order
import SiteBundle.Proofs.Module.Settled

/-!
# Modules without their statements

The imports of a module are replaced, then its lists of exports are taken out, then default exports and
declarations lose what makes them exports.  Each pass leaves at the beginnings of lines what the passes
behind it read, when the source is `Orderly`: every import and every export is spelled in a way that
the patterns read, and nothing of the kind stands behind it on its line.

* `Spelled`, `Orderly`     what may stand at the beginnings of lines of a source;
* `Bounded`, `Readied`     what is left of it when the imports have been replaced (`starts_bound`);
* `starts_lists`, `starts_namedDefault`, `starts_default`, `starts_declaration`   the other passes;
* `FinishedModule.Bound.bare`   no line is left that begins with an import or an export.
-/

namespace SiteBundle

open Text

/-! ## replacing what a pattern finds -/

section
variable {α : Type} {p : Spot → Text → Option (α × Text)} {f : α → Text} {t : Text}

/-- the text that stands for a piece -/
def Text.Piece.text (f : α → Text) : Piece α → Text
  | .plain c => [c]
  | .found _ a => f a

theorem replaced_eq (p : Spot → Text → Option (α × Text)) (f : α → Text) (t : Text) :
    replaced p f t = ((pieces p t).map (Piece.text f)).flatten := by
  have hpieces : ∀ s skip t, piecesFrom (fun s t => (p s t).map fun r => (f r.1, r.2)) s skip t =
      (piecesFrom p s skip t).map (Piece.map f) := by
    intro s skip t
    induction t generalizing s skip with
    | nil => rfl
    | cons c t ih =>
      cases skip with
      | succ skip => exact ih _ _
      | zero =>
        rw [piecesFrom, piecesFrom]
        cases p s (c :: t) with
        | none => exact congrArg (Piece.plain c :: ·) (ih _ _)
        | some r => exact congrArg (Piece.found s.offset (f r.1) :: ·) (ih _ _)
  rw [replaced, replace, pieces, hpieces, List.flatMap_def, List.map_map]
  refine congrArg List.flatten (List.map_congr_left fun piece _ => ?_)
  cases piece <;> rfl

/-- every piece stands for itself -/
def StandsFor (p : Spot → Text → Option (α × Text)) (f : α → Text) (t : Text)
    (piece : Piece α) (part : Text) : Prop :=
  piece ∈ pieces p t ∧ part = piece.text f

theorem forall₂_standsFor (p : Spot → Text → Option (α × Text)) (f : α → Text) (t : Text) :
    List.Forall₂ (StandsFor p f t) (pieces p t) ((pieces p t).map (Piece.text f)) :=
  List.forall₂_map_right_iff.mpr (List.forall₂_same.mpr fun _ h => ⟨h, rfl⟩)

/-- an export statement is replaced by a text that begins a line of another kind -/
theorem starts_replaced (hp : AtLines p) (htakes : Takes p) (Before After : Text → Prop)
    (keep : ∀ t, p .start t = none → Before (firstLine t) → After (firstLine t))
    (put : ∀ t a rest, p .start t = some (a, rest) → Before (firstLine t) →
      '\n' ∉ f a ∧ ∀ l, After (f a ++ l))
    (h : Starts (fun t => Before (firstLine t)) true t) :
    Starts (fun t => After (firstLine t)) true (replaced p f t) := by
  have hplain : ∀ c part, StandsFor p f t (.plain c) part → part = [c] := fun _ _ h => h.2
  rw [replaced_eq, starts_true, and_comm]
  have hflatten := starts_flatten hp hplain htakes (fun t => Before (firstLine t))
    (fun t => After (firstLine t)) After (fun _ h => h)
    (fun s t parts hs hno hbefore hparts => by
      rw [firstLine_flatten_of_none hp hplain ((hp.eq_start hs t).trans hno) hparts]
      exact keep t hno hbefore)
    (fun s m rest o a part hs hread hbefore hpart => .inr fun u hu => by
      obtain ⟨hno, hafter⟩ := put _ a rest hread (hbefore.head hs)
      rw [hpart.2]
      exact hu.put hno (hafter _))
    (forall₂_standsFor p f t) h
  exact ⟨hflatten.1, hflatten.2 (.inl rfl)⟩

/-- what is found nowhere is read at no beginning of a line -/
theorem starts_of_foundIn (hp : AtLines p) (hnil : p .start [] = none) (h : foundIn p t = []) :
    Starts (fun u => p .start u = none) true t := by
  have hplain : ∀ o a, .found o a ∉ pieces p t := fun o a hmem =>
    List.ne_nil_of_mem (mem_foundIn.mpr ⟨o, hmem⟩) h
  suffices hgeneral : ∀ (s : Spot) t, (∀ o a, .found o a ∉ piecesFrom p s 0 t) →
      Starts (fun u => p .start u = none) s.atLineStart t from hgeneral .start t hplain
  intro s t hplain
  induction t generalizing s with
  | nil => exact fun _ => hnil
  | cons c t ih =>
    rw [piecesFrom] at hplain
    cases hread : p s (c :: t) with
    | some r =>
      rw [hread] at hplain
      exact absurd List.mem_cons_self (hplain _ _)
    | none =>
      rw [hread] at hplain
      refine ⟨fun hs => (hp.eq_start hs _).symm.trans hread, ?_⟩
      exact ih (s.next c) fun o a hmem => hplain o a (List.mem_cons_of_mem _ hmem)

end

/-! ## default exports and declarations -/

section
variable {t indent rest : Text} {s : Spot}

theorem newline_not_mem_text {words : List Text} {e : Exported}
    (hwords : ∀ w ∈ words, ∃ c ∈ ['c', 'l', 'v'], w.head? = some c)
    (h : declared? words indent t = some (e, rest)) (hindent : '\n' ∉ indent) (ht : '\n' ∉ t) :
    '\n' ∉ e.text := by
  obtain ⟨rfl, -, -, hkeywords, hname⟩ := declared?_parts hwords h
  intro hmem
  rcases List.mem_append.mp hmem with hmem | hmem
  · rcases List.mem_append.mp hmem with hmem | hmem
    · exact hindent hmem
    · exact ht (hkeywords _ hmem)
  · rcases List.mem_cons.mp hmem with e | hmem
    · exact absurd e (by decide)
    · exact ht (hname _ hmem)

/-- the declaration that is left of an export begins no statement; it is on one line when the export
was -/
theorem text_of_namedDefault {e : Exported} (h : namedDefaultAt? s t = some (e, rest)) :
    (∀ l, opensStatement (e.text ++ l) = false) ∧ ('\n' ∉ t → '\n' ∉ e.text) := by
  obtain ⟨indent, r, hdefault, he⟩ := namedDefaultAt?_eq_some h
  obtain ⟨r₀, r₁, r₂, hexport, hr₁, hr₂, hr⟩ := defaultAt?_eq_some hdefault
  obtain ⟨rfl, hindent⟩ := exportAt?_eq_some hexport
  refine ⟨opensStatement_text class_words hindent he, fun hno => newline_not_mem_text class_words he
    (fun h => hno (List.mem_append_left _ h)) fun h => hno ?_⟩
  have h₂ : '\n' ∈ r₁ := hr₂ ▸ List.mem_append_right _ ((someBlank?_suffix hr).mem h)
  exact List.mem_append_right _ (List.mem_append_right _ ((someBlank?_suffix hr₁).mem h₂))

theorem text_of_declaration {e : Exported} (h : declarationAt? s t = some (e, rest)) :
    (∀ l, opensStatement (e.text ++ l) = false) ∧ ('\n' ∉ t → '\n' ∉ e.text) := by
  obtain ⟨indent, r₀, r, hexport, hr, he⟩ := declarationAt?_eq_some h
  obtain ⟨rfl, hindent⟩ := exportAt?_eq_some hexport
  refine ⟨opensStatement_text declaration_words hindent he, fun hno =>
    newline_not_mem_text declaration_words he (fun h => hno (List.mem_append_left _ h))
      fun h => hno ?_⟩
  exact List.mem_append_right _ (List.mem_append_right _ ((someBlank?_suffix hr).mem h))

theorem not_mem_firstLine (t : Text) : '\n' ∉ firstLine t := (firstLine_cases t).1

theorem starts_namedDefault (h : Starts (fun t => Settled (firstLine t)) true t) :
    Starts (fun t => Settled (firstLine t)) true (replaced namedDefaultAt? Exported.text t) := by
  refine starts_replaced atLines_namedDefaultAt? takes_namedDefaultAt? Settled Settled
    (fun _ _ h => h)
    (fun t e rest hread hsettled => ?_) h
  obtain ⟨-, -, -, hnamed⟩ | ⟨hkind, -⟩ :=
    hsettled.behindExport (behindExport_of_namedDefault hread) (by decide)
  · obtain ⟨u, hu⟩ := hnamed.read
    obtain ⟨r, hr, heq⟩ := Option.map_eq_some_iff.mp (hu.symm.trans hread)
    cases heq
    obtain ⟨e, rest⟩ := r
    have hline := text_of_namedDefault hr
    exact ⟨hline.2 (not_mem_firstLine t), fun l => .bare (hline.1 l)⟩
  · exact absurd hkind (by decide)

/-- a line that begins with no statement, or with a declaration that is exported -/
def BareOrDeclared (l : Text) : Prop :=
  opensStatement l = false ∨ (declarationAt? .start l).isSome ∧ Decided declarationAt? l

theorem starts_default {variable_ : Text} (hv : '\n' ∉ variable_)
    (h : Starts (fun t => Settled (firstLine t)) true t) :
    Starts (fun t => BareOrDeclared (firstLine t)) true (replaced defaultAt?
      (fun indent => indent ++ "var ".toList ++ variable_ ++ " = ".toList) t) := by
  refine starts_replaced atLines_defaultAt? takes_defaultAt? Settled BareOrDeclared
    (fun t hno hsettled => ?_)
    (fun t indent rest hread hsettled => ?_) h
  · cases hsettled with
    | bare h => exact .inl h
    | value h decided named =>
      have hread := decided.isSome h
      rw [hno] at hread
      exact nomatch hread
    | declaration h decided => exact .inr ⟨h, decided⟩
  · obtain ⟨r, -, -, hexport, -⟩ := defaultAt?_eq_some hread
    have hindent := (exportAt?_eq_some hexport).2
    refine ⟨fun hmem => ?_, fun l => .inl ?_⟩
    · rcases List.mem_append.mp hmem with hmem | hmem
      · rcases List.mem_append.mp hmem with hmem | hmem
        · rcases List.mem_append.mp hmem with hmem | hmem
          · exact nomatch hindent _ hmem
          · exact absurd hmem (by decide)
        · exact hv hmem
      · exact absurd hmem (by decide)
    · rw [List.append_assoc, List.append_assoc, List.append_assoc]
      exact opensStatement_var hindent _

theorem starts_declaration (h : Starts (fun t => BareOrDeclared (firstLine t)) true t) :
    Starts (fun t => opensStatement (firstLine t) = false) true
      (replaced declarationAt? Exported.text t) := by
  refine starts_replaced atLines_declarationAt? takes_declarationAt? BareOrDeclared
    (fun l => opensStatement l = false) (fun t hno hline => ?_) (fun t e rest hread hline => ?_) h
  · refine hline.resolve_right fun ⟨h, decided⟩ => ?_
    have hread := decided.isSome h
    rw [hno] at hread
    exact nomatch hread
  · obtain ⟨c, hc, hbehind⟩ := behindExport_of_declaration hread
    rcases hline with hbare | ⟨-, decided⟩
    · have hkinds : ∀ c ∈ ['a', 'f', 'c', 'l', 'v'], isUse c = false := by decide
      rw [opensStatement_of_behindExport hbehind (hkinds c hc)] at hbare
      exact nomatch hbare
    · obtain ⟨u, hu⟩ := decided.read
      obtain ⟨r, hr, heq⟩ := Option.map_eq_some_iff.mp (hu.symm.trans hread)
      cases heq
      obtain ⟨e, rest⟩ := r
      have hline := text_of_declaration hr
      exact ⟨hline.2 (not_mem_firstLine t), hline.1⟩

end
/-! ## lists of exports -/

/-- a list of exports that begins a line, and the text behind it -/
structure ListAt (t inside behind : Text) : Prop where
  gap : ∃ gap, t = "export".toList ++ (gap ++ '\x7b' :: (inside ++ '\x7d' :: behind)) ∧
    ∀ c ∈ gap, isBlank c = true ∧ c ≠ '\n'
  closed : '\x7d' ∉ inside

section
variable {t inside behind m rest : Text} {s : Spot}

/-- what is read at a list -/
theorem ListAt.read (h : ListAt t inside behind) : ∃ x rest, exportListAt? .start t = some (x, rest) ∧
    x.hasSource = (fromPart? behind).isSome ∧
    (x.hasSource = false → rest = statementEnd (behind.dropWhile isBlank)) := by
  obtain ⟨⟨gap, rfl, hgap⟩, hclosed⟩ := h
  have hexport := exportAt?_text (List.forall_mem_nil _) (gap ++ '\x7b' :: (inside ++ '\x7d' :: behind))
  rw [List.nil_append] at hexport
  have hdrop : (gap ++ '\x7b' :: (inside ++ '\x7d' :: behind)).dropWhile isBlank =
      '\x7b' :: (inside ++ '\x7d' :: behind) := by
    rw [List.dropWhile_append_of_pos fun c hc => (hgap c hc).1]
    rfl
  have hcut := cutAt?_append hclosed behind
  have hsome : (exportListAt? .start ("export".toList ++
      (gap ++ '\x7b' :: (inside ++ '\x7d' :: behind)))).isSome := by
    unfold exportListAt?
    simp only [hexport, Option.bind_eq_bind, Option.bind_some, hdrop, hcut]
    rfl
  obtain ⟨⟨x, rest⟩, hread⟩ := Option.isSome_iff_exists.mp hsome
  obtain ⟨indent, r, behind', hexport', hdrop', hno, hsource, hrest, -⟩ := exportListAt?_eq_some hread
  -- both are cut at the first closing brace
  rw [hexport] at hexport'
  cases hexport'
  rw [hdrop] at hdrop'
  rw [(List.cons.inj hdrop').2, cutAt?_append hno] at hcut
  cases hcut
  exact ⟨x, rest, hread, hsource, hrest⟩

theorem ListAt.head (h : ListAt t inside behind) : ∃ u, t = 'e' :: u := by
  obtain ⟨⟨gap, rfl, -⟩, -⟩ := h
  exact ⟨_, rfl⟩

theorem ListAt.eq_append (h : ListAt t inside behind) : ∃ front, t = front ++ '\x7d' :: behind := by
  obtain ⟨⟨gap, rfl, -⟩, -⟩ := h
  exact ⟨"export".toList ++ (gap ++ '\x7b' :: inside), by
    rw [List.append_assoc, List.append_assoc, List.cons_append]⟩

/-- what stands at the beginning of a line when the imports have been replaced -/
inductive Readied (t : Text) : Prop
  | line (h : Settled (firstLine t))
  | list (inside behind : Text) (hlist : ListAt t inside behind) (h : Settled (firstLine behind))
  | reexport (inside behind : Text) (hlist : ListAt t inside behind)
      (h : (fromPart? behind).isSome)

/-- a settled line does not begin with a list -/
theorem Settled.exportListAt?_eq_none (h : Settled (firstLine t)) : exportListAt? .start t = none := by
  refine Option.eq_none_iff_forall_ne_some.mpr fun ⟨x, rest⟩ hread => ?_
  rcases h.behindExport (behindExport_of_list hread) (by decide) with ⟨hkind, -⟩ | ⟨hkind, -⟩
  · exact absurd hkind (by decide)
  · exact absurd hkind (by decide)

theorem exists_last_newline {l : Text} (h : '\n' ∈ l) :
    ∃ l₁ l₂, l = l₁ ++ '\n' :: l₂ ∧ '\n' ∉ l₂ := by
  obtain ⟨l₁, l₂, hl, hno⟩ := List.eq_append_cons_of_mem (List.mem_reverse.mpr h)
  refine ⟨l₂.reverse, l₁.reverse, ?_, fun hmem => hno (List.mem_reverse.mp hmem)⟩
  rw [← List.reverse_reverse l, hl, List.reverse_append, List.reverse_cons, List.append_assoc]
  rfl

/-- when a list is taken out, a line that begins where it stood is one that began there before, or its
own line goes on there -/
theorem ListAt.settled_rest (h : ListAt (m ++ rest) inside behind) (hsettled : Settled (firstLine behind))
    (hrest : rest = statementEnd (behind.dropWhile isBlank))
    (hstarts : Starts Readied s.atLineStart (m ++ rest)) :
    (s.over m).atLineStart = true ∨ Settled (firstLine rest) := by
  obtain ⟨b, hb, hbline, hbmargin⟩ := statementEnd_eq (behind.dropWhile isBlank)
  rw [← hrest] at hb
  have hblanks : ∀ c ∈ behind.takeWhile isBlank, isBlank c = true :=
    List.all_eq_true.mp List.all_takeWhile
  have hsplit := (List.takeWhile_append_dropWhile (p := isBlank) (l := behind)).symm
  have hmargin : ∀ c ∈ b, isMargin c = true := fun c hc => (hbmargin c hc).elim isMargin_of_isIndent
    fun e => e ▸ rfl
  have hdrop : ∀ l, '\n' ∉ l → (∀ c ∈ l, isBlank c = true) →
      Settled (firstLine (l ++ behind.dropWhile isBlank)) → Settled (firstLine rest) := by
    intro l hl hblank hline
    rw [hb, ← List.append_assoc, firstLine_append (fun hmem =>
      (List.mem_append.mp hmem).elim hl hbline)] at hline
    refine hline.drop fun c hc => ?_
    exact (List.mem_append.mp hc).elim (fun hc => Bool.or_eq_true_iff.mpr (.inl (hblank c hc)))
      (hmargin c)
  by_cases hnewline : '\n' ∈ behind.takeWhile isBlank
  · -- white space reaches into a later line
    obtain ⟨l₁, l₂, hl, hl₂⟩ := exists_last_newline hnewline
    obtain ⟨front, hfront⟩ := h.eq_append
    have hbehind := hsplit.trans (congrArg (· ++ behind.dropWhile isBlank) hl)
    have hwhole : m ++ rest = (front ++ '\x7d' :: (l₁ ++ ['\n'])) ++
        (l₂ ++ behind.dropWhile isBlank) :=
      hfront.trans ((congrArg (front ++ '\x7d' :: ·) hbehind).trans
        (by simp only [List.append_assoc, List.cons_append, List.nil_append]))
    have hover : (s.over (front ++ '\x7d' :: (l₁ ++ ['\n']))).atLineStart = true := by
      rw [← List.cons_append, ← List.append_assoc]
      exact atLineStart_over_concat _ _ _
    have hl₂blank : ∀ c ∈ l₂, isBlank c = true := fun c hc => hblanks c (hl ▸
      List.mem_append_right _ (List.mem_cons_of_mem _ hc))
    have hlist : ∀ {inside' behind'}, ListAt (l₂ ++ behind.dropWhile isBlank) inside' behind' →
        (s.over m).atLineStart = true := by
      intro inside' behind' hlist
      obtain ⟨u, hu⟩ := hlist.head
      cases l₂ with
      | cons c l₂ =>
        cases hu
        exact absurd (hl₂blank 'e' List.mem_cons_self) (by decide)
      | nil =>
        -- a list begins with its first letter, which is not taken
        rw [List.nil_append] at hu
        have hrest' : rest = behind.dropWhile isBlank := by
          rw [hrest, hu]
          rfl
        rw [List.nil_append, ← hrest'] at hwhole
        rwa [List.append_cancel_right hwhole]
    rw [hwhole] at hstarts
    cases hstarts.rest.head hover with
    | line hline => exact .inr (hdrop l₂ hl₂ hl₂blank hline)
    | list inside' behind' h' => exact .inl (hlist h')
    | reexport inside' behind' h' => exact .inl (hlist h')
  · refine .inr (hdrop _ hnewline hblanks ?_)
    rwa [← hsplit]

/-- the lists are taken out; none of them names a source -/
theorem starts_lists (hlists : ∀ x ∈ foundIn exportListAt? t, x.hasSource = false)
    (h : Starts Readied true t) :
    Starts (fun t => Settled (firstLine t)) true (replaced exportListAt? (fun _ => []) t) := by
  have hplain : ∀ c part, StandsFor exportListAt? (fun _ => []) t (.plain c) part → part = [c] :=
    fun _ _ h => h.2
  have hp := atLines_exportListAt?
  rw [replaced_eq, starts_true, and_comm]
  have hflatten := starts_flatten hp hplain takes_exportListAt? Readied
    (fun t => Settled (firstLine t)) Settled (fun _ h => h)
    (fun s u parts hs hno hready hparts => by
      rw [firstLine_flatten_of_none hp hplain ((hp.eq_start hs u).trans hno) hparts]
      have hlist : ∀ {inside behind}, ¬ ListAt u inside behind := fun hlist => by
        obtain ⟨x, rest, hread, -⟩ := hlist.read
        exact nomatch hno.symm.trans hread
      cases hready with
      | line h => exact h
      | list inside behind h => exact absurd h hlist
      | reexport inside behind h => exact absurd h hlist)
    (fun s m rest o x part hs hread hready hpart => by
      have hsource := hlists x (mem_foundIn.mpr ⟨o, hpart.1⟩)
      refine .inl ⟨hpart.2, ?_⟩
      cases hready.head hs with
      | line h => exact nomatch h.exportListAt?_eq_none.symm.trans hread
      | list inside behind hlist hsettled =>
        obtain ⟨x', rest', hread', -, hrest⟩ := hlist.read
        cases hread'.symm.trans hread
        exact hlist.settled_rest hsettled (hrest hsource) hready
      | reexport inside behind hlist hfrom =>
        obtain ⟨x', rest', hread', hx, -⟩ := hlist.read
        cases hread'.symm.trans hread
        rw [hsource, hfrom] at hx
        exact nomatch hx)
    (forall₂_standsFor exportListAt? (fun _ => []) t) h
  exact ⟨hflatten.1, hflatten.2 (.inl rfl)⟩

end

/-! ## imports -/

/-- no name of the import runs over the end of a line -/
def Import.OneLine (i : Import) : Prop :=
  ∀ whole named, splitClause (trim i.clause) = .ok (whole, named) →
    ∀ n ∈ namedIn named, '\n' ∉ n.1 ∧ '\n' ∉ n.2

/-- What may stand at the beginning of a line of a module: nothing or a settled export; an import or a
list of exports, behind which the line goes on so; or a re-export. -/
inductive Spelled (t : Text) : Prop
  | line (hno : importAt? .start t = none) (h : Settled (firstLine t))
  | statement (i : Import) (rest : Text) (hread : importAt? .start t = some (i, rest))
      (names : i.OneLine) (h : Settled (firstLine rest))
  | list (inside behind : Text) (hlist : ListAt t inside behind)
      (himports : ∀ u v, inside = u ++ '\n' :: v → importAt? .start (v ++ '\x7d' :: behind) = none)
      (h : Settled (firstLine behind) ∨ (fromPart? (firstLine behind)).isSome)
  | star (h : (exportStarAt? .start (firstLine t)).isSome)

/-- every line of a module is spelled in a way that the patterns read -/
def Orderly (source : Text) : Prop := Starts Spelled true source

section
variable {t u inside behind rest : Text}

theorem address?_append (h : (address? t).isSome) (u : Text) : (address? (t ++ u)).isSome := by
  obtain ⟨⟨a, rest⟩, h⟩ := Option.isSome_iff_exists.mp h
  cases t with
  | nil => cases h
  | cons q r =>
    rw [address?] at h
    rw [List.cons_append, address?]
    split at h
    · rename_i hquote
      split at h
      · rename_i d rest' hdrop
        have htake : (r ++ u).takeWhile (fun c => !isQuote c) = r.takeWhile fun c => !isQuote c := by
          rw [List.takeWhile_append, if_neg]
          intro hlength
          have hsplit := congrArg List.length
            (List.takeWhile_append_dropWhile (p := fun c => !isQuote c) (l := r))
          rw [List.length_append, hdrop, List.length_cons] at hsplit
          omega
        rw [htake, if_pos hquote, List.dropWhile_append, hdrop]
        rfl
      · cases h
    · cases h

theorem fromPart?_append (h : (fromPart? t).isSome) (u : Text) : (fromPart? (t ++ u)).isSome := by
  obtain ⟨⟨a, rest⟩, h⟩ := Option.isSome_iff_exists.mp h
  obtain ⟨r, hr, h⟩ := Option.bind_eq_some_iff.mp h
  have hr := keyword?_eq_some.mp hr
  have hkeyword : keyword? "from".toList ((t ++ u).dropWhile isBlank) = some (r ++ u) := by
    rw [List.dropWhile_append, hr]
    exact keyword?_eq_some.mpr rfl
  have haddress : (address? ((r ++ u).dropWhile isBlank)).isSome := by
    rw [List.dropWhile_append]
    split
    · rename_i hempty
      rw [List.isEmpty_iff.mp hempty] at h
      exact nomatch h
    · exact address?_append (Option.isSome_iff_exists.mpr ⟨_, h⟩) u
  unfold fromPart?
  rw [hkeyword]
  exact haddress

theorem exportStarAt?_isSome : (exportStarAt? .start t).isSome ↔ ∃ indent r r',
    exportAt? .start t = some (indent, r) ∧ r.dropWhile isBlank = '*' :: r' := by
  constructor
  · intro h
    obtain ⟨x, h⟩ := Option.isSome_iff_exists.mp h
    obtain ⟨⟨indent, r⟩, hr, h⟩ := Option.bind_eq_some_iff.mp h
    dsimp only at h
    split at h
    · rename_i r' hdrop
      exact ⟨indent, r, r', hr, hdrop⟩
    · exact nomatch h
  · rintro ⟨indent, r, r', hr, hdrop⟩
    unfold exportStarAt?
    simp only [hr, Option.bind_eq_bind, Option.bind_some, hdrop]
    rfl

theorem exportAt?_append {indent r : Text} (h : exportAt? .start t = some (indent, r)) (u : Text) :
    exportAt? .start (t ++ u) = some (indent, r ++ u) := by
  obtain ⟨rfl, hindent⟩ := exportAt?_eq_some h
  rw [List.append_assoc, List.append_assoc]
  exact exportAt?_text hindent _

theorem exportStarAt?_append (h : (exportStarAt? .start t).isSome) (u : Text) :
    (exportStarAt? .start (t ++ u)).isSome := by
  obtain ⟨indent, r, r', hr, hdrop⟩ := exportStarAt?_isSome.mp h
  refine exportStarAt?_isSome.mpr ⟨indent, r ++ u, r' ++ u, exportAt?_append hr u, ?_⟩
  rw [List.dropWhile_append, hdrop]
  rfl

/-- an export is no import -/
theorem importAt?_eq_none_of_export {r : Text × Text} (h : exportAt? .start t = some r) :
    importAt? .start t = none := by
  refine Option.eq_none_iff_forall_ne_some.mpr fun ⟨i, rest⟩ hread => ?_
  obtain ⟨⟨r', hr'⟩, -⟩ := importAt?_eq_some hread
  rw [exportAt?_start, hr'] at h
  exact nomatch h

/-- where the imports have been replaced -/
def Bounded (t : Text) : Prop := (exportStarAt? .start t).isSome ∨ Readied t

theorem bounded_var (l : Text) : Bounded ("var ".toList ++ l) := by
  refine .inr (.line (.bare ?_))
  rw [firstLine_append (by decide)]
  exact opensStatement_var (List.forall_mem_nil _) _

/-- lines that make variables, one after the other -/
theorem starts_join {lines : List Text} (hne : lines ≠ [])
    (hlines : ∀ l ∈ lines, '\n' ∉ l ∧ ∃ r, l = "var ".toList ++ r) (h : Starts Bounded false u) :
    Starts Bounded true (join ['\n'] lines ++ u) := by
  induction lines with
  | nil => exact absurd rfl hne
  | cons l lines ih =>
    obtain ⟨⟨hl, r, rfl⟩, hrest⟩ := List.forall_mem_cons.mp hlines
    cases lines with
    | nil =>
      refine starts_true.mpr ⟨?_, h.prepend hl⟩
      rw [join, List.append_assoc]
      exact bounded_var _
    | cons k lines =>
      have hbehind : Starts Bounded false ('\n' :: (join ['\n'] (k :: lines) ++ u)) :=
        ⟨fun h => absurd h Bool.false_ne_true, ih (List.cons_ne_nil _ _) hrest⟩
      rw [join, List.append_assoc, List.append_assoc, List.singleton_append]
      refine starts_true.mpr ⟨?_, hbehind.prepend hl⟩
      rw [List.append_assoc]
      exact bounded_var _

/-- the variables of an import are on lines of their own -/
theorem bindingText_line {m : FinishedModule} {name v : Text} (hname : '\n' ∉ name) (hv : '\n' ∉ v) :
    '\n' ∉ bindingText m.scope name v ∧ ∃ r, bindingText m.scope name v = "var ".toList ++ r := by
  have hbinding : '\n' ∉ m.scope.binding := List.not_mem_append (by decide) (Site.not_mem_toString rfl _)
  have hfield : '\n' ∉ '.' :: name := List.not_mem_append (s := ['.']) (by decide) hname
  refine ⟨?_, v ++ (" = ".toList ++ (m.scope.binding ++ ('.' :: name ++ [';']))), ?_⟩
  · exact List.not_mem_append (List.not_mem_append (List.not_mem_append (List.not_mem_append
      (List.not_mem_append (by decide) hv) (by decide)) hbinding) hfield) (by decide)
  · unfold bindingText
    generalize "var ".toList = word, " = ".toList = sign
    rw [List.append_assoc, List.append_assoc, List.append_assoc, List.append_assoc]

theorem newline_not_mem_of_isIdentifier (h : isIdentifier t = true) : '\n' ∉ t := by
  cases t with
  | nil => exact nomatch h
  | cons c r =>
    obtain ⟨hc, hr⟩ := Bool.and_eq_true_iff.mp h
    intro hmem
    rcases List.mem_cons.mp hmem with e | hmem
    · rw [← e] at hc
      exact nomatch hc
    · have := List.all_eq_true.mp hr _ hmem
      rw [isIdentChar_of_isBlank rfl] at this
      exact nomatch this

/-- what an import makes begins no statement, and if it makes nothing, the line goes on in its place -/
theorem starts_bindings {i : Import} {m : FinishedModule} {part : Text} (h : i.Reads m.scope part)
    (hnames : i.OneLine) : part = [] ∨ ∀ u, Starts Bounded false u → Starts Bounded true (part ++ u) := by
  rcases h with ⟨-, rfl⟩ | ⟨whole, named, hclause, hwhole, -, rfl⟩
  · exact .inl rfl
  · cases hlist : wholeOf whole ++ namedIn named with
    | nil => exact .inl rfl
    | cons n names =>
      refine .inr fun u hu => starts_join (by simp) (fun l hl => ?_) hu
      obtain ⟨n', hn', rfl⟩ := List.mem_map.mp hl
      rw [← hlist] at hn'
      rcases List.mem_append.mp hn' with hn' | hn'
      · unfold wholeOf at hn'
        split at hn'
        · exact nomatch hn'
        · rename_i hne
          rw [List.mem_singleton.mp hn']
          refine bindingText_line (show '\n' ∉ defaultName by decide) ?_
          exact newline_not_mem_of_isIdentifier
            (hwhole.resolve_left fun e => hne (List.isEmpty_iff.mpr e))
      · exact bindingText_line (hnames whole named hclause n' hn').1
          (hnames whole named hclause n' hn').2

/-- a line that begins within a list begins between its braces -/
theorem newline_in_list {gap u m : Text} (hgap : ∀ c ∈ gap, c ≠ '\n') (hm : m ≠ [])
    (h : "export".toList ++ (gap ++ '\x7b' :: (inside ++ ['\x7d'])) = u.concat '\n' ++ m) :
    ∃ v w, inside = v ++ '\n' :: w ∧ m = w ++ ['\x7d'] := by
  have hfront : '\n' ∉ "export".toList ++ (gap ++ ['\x7b']) := by
    intro hmem
    rcases List.mem_append.mp hmem with hmem | hmem
    · exact absurd hmem (by decide)
    · rcases List.mem_append.mp hmem with hmem | hmem
      · exact hgap _ hmem rfl
      · exact absurd hmem (by decide)
  have hsplit : ("export".toList ++ (gap ++ ['\x7b'])) ++ (inside ++ ['\x7d']) = u ++ '\n' :: m := by
    rw [List.concat_eq_append] at h
    simp only [List.append_assoc, List.cons_append, List.nil_append] at h ⊢
    exact h
  -- the line feed lies behind the opening brace
  obtain ⟨v, hv⟩ : ∃ v, inside ++ ['\x7d'] = v ++ '\n' :: m := by
    rcases List.append_eq_append_iff.mp hsplit with ⟨v, -, hv⟩ | ⟨v, hv, hv'⟩
    · exact ⟨v, hv⟩
    · cases v with
      | nil => exact ⟨[], hv'.symm⟩
      | cons c v =>
        cases hv'
        exact absurd (hv ▸ List.mem_append_right _ List.mem_cons_self) hfront
  obtain ⟨w, d, rfl⟩ := (List.eq_nil_or_concat m).resolve_left hm
  rw [List.concat_eq_append, ← List.cons_append, ← List.append_assoc] at hv
  obtain ⟨hinside, hd⟩ := List.append_inj' hv rfl
  cases hd
  exact ⟨v, w, hinside, List.concat_eq_append⟩

/-- a list of exports stays where it is, and what follows it on its line -/
theorem ListAt.flatten {earlier : List FinishedModule} {disk : Disk} {path : Place} {s : Spot}
    {parts : List Text} (h : ListAt t inside behind)
    (himports : ∀ u v, inside = u ++ '\n' :: v → importAt? .start (v ++ '\x7d' :: behind) = none)
    (hparts : List.Forall₂ (FinishedModule.Binds disk earlier path) (piecesFrom importAt? s 0 t) parts) :
    ∃ behind', ListAt parts.flatten inside behind' ∧ firstLine behind' = firstLine behind := by
  obtain ⟨⟨gap, rfl, hgap⟩, hclosed⟩ := h
  have hplain : ∀ c part, FinishedModule.Binds disk earlier path (.plain c) part → part = [c] :=
    fun _ _ h => h
  -- no import is read up to the closing brace
  have hfront : ∀ m₁ m₂, "export".toList ++ (gap ++ '\x7b' :: (inside ++ ['\x7d'])) = m₁ ++ m₂ →
      m₂ ≠ [] → importAt? (s.over m₁) (m₂ ++ behind) = none := by
    intro m₁ m₂ hm hne
    cases hstart : (s.over m₁).atLineStart with
    | false => exact atLines_importAt?.eq_none hstart _
    | true =>
      rw [atLines_importAt?.eq_start hstart]
      rcases List.eq_nil_or_concat m₁ with rfl | ⟨u, c, rfl⟩
      · rw [← List.nil_append m₂, ← hm, List.append_assoc]
        exact importAt?_eq_none_of_export (exportAt?_text (List.forall_mem_nil _) _)
      · rw [List.concat_eq_append, atLineStart_over_concat, beq_iff_eq] at hstart
        subst hstart
        obtain ⟨v, w, hinside, rfl⟩ := newline_in_list (fun c hc => (hgap c hc).2) hne hm
        rw [List.append_assoc]
        exact himports v w hinside
  rw [show "export".toList ++ (gap ++ '\x7b' :: (inside ++ '\x7d' :: behind)) =
    "export".toList ++ (gap ++ '\x7b' :: (inside ++ ['\x7d'])) ++ behind by
      simp only [List.append_assoc, List.cons_append, List.nil_append]] at hparts
  obtain ⟨parts', hparts', hflatten⟩ := flatten_of_none hplain hfront hparts
  have hover : (s.over ("export".toList ++ (gap ++ '\x7b' :: (inside ++ ['\x7d'])))).atLineStart =
      false := by
    rw [show "export".toList ++ (gap ++ '\x7b' :: (inside ++ ['\x7d'])) =
      "export".toList ++ (gap ++ '\x7b' :: inside) ++ ['\x7d'] by
        simp only [List.append_assoc, List.cons_append], atLineStart_over_concat]
    rfl
  have hline := firstLine_flatten atLines_importAt? hplain hover hparts'
  refine ⟨parts'.flatten, ⟨⟨gap, ?_, hgap⟩, hclosed⟩, hline⟩
  rw [hflatten]
  simp only [List.append_assoc, List.cons_append, List.nil_append]

theorem fromPart?_of_firstLine (h : (fromPart? (firstLine t)).isSome) : (fromPart? t).isSome := by
  obtain ⟨u, ht⟩ := exists_firstLine_append t
  rw [ht]
  exact fromPart?_append h u

theorem exportStarAt?_of_firstLine (h : (exportStarAt? .start (firstLine t)).isSome) :
    (exportStarAt? .start t).isSome := by
  obtain ⟨u, ht⟩ := exists_firstLine_append t
  rw [ht]
  exact exportStarAt?_append h u

/-- the imports of an orderly module are replaced -/
theorem starts_bound {disk : Disk} {earlier : List FinishedModule} {path : Place} {source : Text}
    {parts : List Text} (horderly : Orderly source)
    (h : List.Forall₂ (FinishedModule.Binds disk earlier path) (pieces importAt? source) parts) :
    Starts Bounded true parts.flatten := by
  have hplain : ∀ c part, FinishedModule.Binds disk earlier path (.plain c) part → part = [c] :=
    fun _ _ h => h
  rw [starts_true, and_comm]
  have hflatten := starts_flatten atLines_importAt? hplain takes_importAt? Spelled Bounded
    Settled (fun _ h => .inr (.line h))
    (fun s t parts hs hno hspelled hparts => by
      have hline := firstLine_flatten_of_none atLines_importAt? hplain
        ((atLines_importAt?.eq_start hs t).trans hno) hparts
      cases hspelled with
      | line _ h => exact .inr (.line (hline ▸ h))
      | statement i rest hread => exact nomatch hno.symm.trans hread
      | list inside behind hlist himports h =>
        obtain ⟨behind', hlist', hbehind⟩ := hlist.flatten himports hparts
        rw [← hbehind] at h
        exact .inr (h.elim (.list inside behind' hlist') fun h =>
          .reexport inside behind' hlist' (fromPart?_of_firstLine h))
      | star h => exact .inl (exportStarAt?_of_firstLine (hline ▸ h)))
    (fun s m rest o i part hs hread hspelled hpart => by
      cases hspelled.head hs with
      | line hno _ => exact nomatch hno.symm.trans hread
      | statement i' rest' hread' names hsettled =>
        cases hread'.symm.trans hread
        obtain ⟨d, -, -, hbindings⟩ := hpart
        have hreads := results_bindings d.scope path i
        rw [hbindings] at hreads
        exact (starts_bindings hreads names).imp_left fun hnil => ⟨hnil, .inr hsettled⟩
      | list inside behind hlist =>
        obtain ⟨x, r, hlistread, -⟩ := hlist.read
        obtain ⟨indent, r, -, hexport, -⟩ := exportListAt?_eq_some hlistread
        exact nomatch (importAt?_eq_none_of_export hexport).symm.trans hread
      | star hstar =>
        obtain ⟨indent, r, r', hexport, -⟩ :=
          exportStarAt?_isSome.mp (exportStarAt?_of_firstLine hstar)
        exact nomatch (importAt?_eq_none_of_export hexport).symm.trans hread)
    h horderly
  exact ⟨hflatten.1, hflatten.2 (.inl rfl)⟩

/-- what taking out the exports comes to -/
theorem withoutExports_eq_ok {code variable_ out : Text} {exports : Exports}
    (h : withoutExports code variable_ = .ok (out, exports)) : foundIn exportStarAt? code = [] ∧
      (∀ x ∈ foundIn exportListAt? code, x.hasSource = false) ∧
      out = replaced declarationAt? Exported.text (replaced defaultAt?
        (fun indent => indent ++ "var ".toList ++ variable_ ++ " = ".toList)
        (replaced namedDefaultAt? Exported.text (replaced exportListAt? (fun _ => []) code))) := by
  unfold withoutExports at h
  split at h
  · exact nomatch h
  · rename_i hstar
    dsimp only at h
    split at h
    · exact nomatch h
    · rename_i hlists
      cases h
      refine ⟨hstar, fun x hx => ?_, rfl⟩
      exact Bool.eq_false_iff.mpr (List.find?_eq_none.mp hlists x hx)

/-- **A module that is orderly is left without imports and exports at the beginnings of lines.** -/
theorem FinishedModule.Bound.bare {disk : Disk} {earlier : List FinishedModule} {m : FinishedModule}
    (h : m.Bound disk earlier) (horderly : Orderly m.source) :
    ∀ l ∈ splitOn '\n' m.code, opensStatement l = false := by
  obtain ⟨parts, hparts, hexports⟩ := h
  obtain ⟨hstar, hlists, hcode⟩ := withoutExports_eq_ok hexports
  have hready : Starts Readied true parts.flatten := by
    have hnone := starts_of_foundIn atLines_exportStarAt? rfl hstar
    refine ((starts_bound horderly hparts).and hnone).mono fun t ⟨hbounded, hno⟩ => ?_
    refine hbounded.resolve_left fun hread => ?_
    rw [hno] at hread
    exact nomatch hread
  have hvariable : '\n' ∉ defaultVariable m.number := fun h => (List.mem_append.mp h).elim
    (fun h => absurd h (by decide)) (Site.not_mem_toString rfl _)
  rw [hcode]
  exact (starts_declaration (starts_default hvariable
    (starts_namedDefault (starts_lists hlists hready)))).forall_lines

end

end SiteBundle
