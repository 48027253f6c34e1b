import SiteBundle.Proofs.Module.Replaced

/-!
# Module syntax is rolled up or refused

A form that cannot be expressed (`Inexpressible`) is an import of what is no file, of a whole namespace
or of a name that is not exported, or a re-export.  None is in a module that is finished
(`FinishedModule.Bound.not_inexpressible`), so a script with one is refused, and in one that is rolled
up no line of an orderly module begins with an import or an export (`rollUp_expressed`).

A statement behind another one on its line is not seen: `rollUp_twoOnALine_passed`.
-/

namespace SiteBundle

open Text

/-! ## re-exports -/

/-- a list that names a source -/
def ListFrom (t : Text) : Prop :=
  ∃ inside behind, ListAt t inside behind ∧ (fromPart? behind).isSome

/-- what stands at the beginning of a line exports what another module exports -/
inductive ReExports (t : Text) : Prop
  | star (h : (exportStarAt? .start (firstLine t)).isSome)
  | list (inside behind : Text) (hlist : ListAt t inside behind)
      (himports : ∀ u v, inside = u ++ '\n' :: v → importAt? .start (v ++ '\x7d' :: behind) = none)
      (h : (fromPart? (firstLine behind)).isSome)

section
variable {t inside behind : Text}

/-- a list ends at the first closing brace -/
theorem ListAt.behind_eq {v behind' : Text} (h : ListAt (v ++ '\x7d' :: behind') inside behind)
    (hv : '\x7d' ∉ v) : behind = behind' := by
  obtain ⟨⟨gap, ht, hgap⟩, hclosed⟩ := h
  have hfront : '\x7d' ∉ "export".toList ++ (gap ++ '\x7b' :: inside) := by
    intro hmem
    rcases List.mem_append.mp hmem with hmem | hmem
    · exact absurd hmem (by decide)
    · rcases List.mem_append.mp hmem with hmem | hmem
      · exact nomatch (hgap _ hmem).1
      · rcases List.mem_cons.mp hmem with e | hmem
        · exact absurd e (by decide)
        · exact hclosed hmem
  have hcut := cutAt?_append hfront behind
  have hsplit : v ++ '\x7d' :: behind' =
      "export".toList ++ (gap ++ '\x7b' :: inside) ++ '\x7d' :: behind := by
    rw [ht]
    simp only [List.append_assoc, List.cons_append]
  rw [← hsplit, cutAt?_append hv] at hcut
  cases hcut
  rfl

/-- what is taken of a list without a source: up to the closing brace, and some white space -/
theorem exportListAt?_split {s : Spot} {m rest : Text} {x : ExportList}
    (h : exportListAt? s (m ++ rest) = some (x, rest)) (hx : x.hasSource = false) :
    ∃ front margin, m = front ++ '\x7d' :: margin ∧ '\x7d' ∉ front ∧
      (∀ c ∈ margin, isMargin c = true) ∧ x.hasSource = (fromPart? (margin ++ rest)).isSome := by
  obtain ⟨indent, r, behind, hexport, hdrop, hno, hsource, hrest, -⟩ := exportListAt?_eq_some h
  obtain ⟨hsplit, hindent⟩ := exportAt?_eq_some hexport
  obtain ⟨b, hb, -, hbmargin⟩ := statementEnd_eq (behind.dropWhile isBlank)
  rw [← hrest hx] at hb
  obtain ⟨margin, rfl, hmargin⟩ : ∃ margin, behind = margin ++ rest ∧ ∀ c ∈ margin, isMargin c = true := by
    refine ⟨behind.takeWhile isBlank ++ b, ?_, fun c hc => ?_⟩
    · rw [List.append_assoc, ← hb, List.takeWhile_append_dropWhile]
    · rcases List.mem_append.mp hc with hc | hc
      · exact Bool.or_eq_true_iff.mpr (.inl (List.all_eq_true.mp List.all_takeWhile _ hc))
      · exact (hbmargin c hc).elim isMargin_of_isIndent fun e => e ▸ rfl
  have hr : r = r.takeWhile isBlank ++ '\x7b' :: (x.specifiers ++ '\x7d' :: (margin ++ rest)) := by
    rw [← hdrop, List.takeWhile_append_dropWhile]
  refine ⟨indent ++ ("export".toList ++ (r.takeWhile isBlank ++ '\x7b' :: x.specifiers)),
    margin, ?_, ?_, hmargin, hsource⟩
  · have hwhole : m ++ rest = indent ++ ("export".toList ++ (r.takeWhile isBlank ++
        '\x7b' :: (x.specifiers ++ '\x7d' :: (margin ++ rest)))) := hr ▸ hsplit
    refine List.append_cancel_right (hwhole.trans ?_)
    simp only [List.append_assoc, List.cons_append]
  · intro hmem
    rcases List.mem_append.mp hmem with hmem | hmem
    · exact nomatch hindent _ hmem
    · rcases List.mem_append.mp hmem with hmem | hmem
      · exact absurd hmem (by decide)
      · rcases List.mem_append.mp hmem with hmem | hmem
        · exact nomatch List.all_eq_true.mp List.all_takeWhile _ hmem
        · rcases List.mem_cons.mp hmem with e | hmem
          · exact absurd e (by decide)
          · exact hno hmem

/-- where all lists that are found name no source, none does -/
theorem starts_listFrom (hlists : ∀ x ∈ foundIn exportListAt? t, x.hasSource = false) :
    Starts (fun u => ¬ ListFrom u) true t := by
  have hfound : ∀ o x, .found o x ∈ pieces exportListAt? t → x.hasSource = false := fun o x hmem =>
    hlists x (mem_foundIn.mpr ⟨o, hmem⟩)
  refine findings_induction (reads_withTaken takes_exportListAt?) (motive := fun s t =>
    (∀ o x, .found o x ∈ piecesFrom exportListAt? s 0 t → x.hasSource = false) →
      Starts (fun u => ¬ ListFrom u) s.atLineStart t) ?_ ?_ ?_ .start t hfound
  · rintro s - - ⟨inside, behind, hlist, -⟩
    obtain ⟨u, hu⟩ := hlist.head
    cases hu
  · intro s c t hno ih hfound
    have hno : exportListAt? s (c :: t) = none := Option.map_eq_none_iff.mp hno
    rw [piecesFrom, hno] at hfound
    refine ⟨?_, ih fun o x hmem => hfound o x (List.mem_cons_of_mem _ hmem)⟩
    rintro hs ⟨inside, behind, hlist, -⟩
    obtain ⟨x, rest, hread, -⟩ := hlist.read
    rw [atLines_exportListAt?.eq_start hs, hread] at hno
    cases hno
  · rintro s ⟨x, m⟩ rest hread hm ih hfound
    have hread : exportListAt? s (m ++ rest) = some (x, rest) := withTaken_eq_some.mp hread
    rw [piecesFrom_found hm hread] at hfound
    have hsource := hfound _ _ List.mem_cons_self
    refine starts_append (fun m₁ m₂ hsplit hne => ?_)
      (ih fun o y hmem => hfound o y (List.mem_cons_of_mem _ hmem))
    rintro ⟨inside, behind, hlist, hfrom⟩
    obtain ⟨front, margin, rfl, hfront, hmargin, hfrom'⟩ := exportListAt?_split hread hsource
    have hsame : ∀ v, ListAt (v ++ '\x7d' :: (margin ++ rest)) inside behind → '\x7d' ∉ v → False := by
      intro v hlist hv
      rw [hlist.behind_eq hv, ← hfrom', hsource] at hfrom
      cases hfrom
    obtain ⟨u, hu⟩ := hlist.head
    rcases List.append_eq_append_iff.mp hsplit with ⟨v, -, hv⟩ | ⟨v, rfl, hv⟩
    · -- the line begins at the closing brace or in what is taken behind it, where no list begins
      have hnot : ∀ c ∈ m₂, c ≠ 'e' := by
        intro c hc
        rcases List.mem_cons.mp (hv ▸ List.mem_append_right v hc) with rfl | hc
        · decide
        · rintro rfl
          cases hmargin _ hc
      obtain ⟨c, m₂, rfl⟩ := List.exists_cons_of_ne_nil hne
      exact hnot c List.mem_cons_self (List.cons.inj hu).1
    · -- the line begins before the closing brace: both lists end there
      rw [hv, List.append_assoc, List.cons_append] at hlist
      exact hsame v hlist fun hmem => hfront (List.mem_append_right _ hmem)

/-- a re-export that the search for imports comes by is there when the imports are replaced -/
theorem not_starts_of_meets {disk : Disk} {earlier : List FinishedModule} {path : Place} {s : Spot}
    {source : Text} {parts : List Text} (h : Meets importAt? ReExports s source)
    (hparts : List.Forall₂ (FinishedModule.Binds disk earlier path)
      (piecesFrom importAt? s 0 source) parts) :
    ¬ Starts (fun t => exportStarAt? .start t = none ∧ ¬ ListFrom t) s.atLineStart parts.flatten := by
  have hplain : ∀ c part, FinishedModule.Binds disk earlier path (.plain c) part → part = [c] :=
    fun _ _ h => h
  induction h generalizing parts with
  | @here s t hs h =>
    intro hstarts
    obtain ⟨hstar, hlist⟩ := hstarts.head hs
    cases h with
    | star h =>
      obtain ⟨indent, r, r', hexport, -⟩ :=
        exportStarAt?_isSome.mp (exportStarAt?_of_firstLine h)
      have hno := (atLines_importAt?.eq_start hs t).trans (importAt?_eq_none_of_export hexport)
      have hread := exportStarAt?_of_firstLine
        (firstLine_flatten_of_none atLines_importAt? hplain hno hparts ▸ h)
      rw [hstar] at hread
      exact nomatch hread
    | list inside behind hat himports h =>
      obtain ⟨behind', hat', hbehind⟩ := hat.flatten himports hparts
      exact hlist ⟨inside, behind', hat', fromPart?_of_firstLine (hbehind ▸ h)⟩
  | @plain s c t hno h ih =>
    rw [piecesFrom, hno] at hparts
    cases hparts with
    | cons hpart hparts =>
      rw [List.flatten_cons, hplain _ _ hpart]
      exact fun hstarts => ih hparts hstarts.2
  | @found s m rest i hm hread h ih =>
    rw [piecesFrom_found hm hread] at hparts
    cases hparts with
    | cons hpart hparts =>
      intro hstarts
      -- an import does not end at the end of a line
      obtain ⟨-, m', q, hq, hne⟩ := importAt?_eq_some hread
      have hm' : m = m' ++ [q] := List.append_cancel_right (hq.trans (List.append_cons _ _ _))
      have hover : (s.over m).atLineStart = false := by
        rw [hm', atLineStart_over_concat]
        exact beq_eq_false_iff_ne.mpr hne
      refine ih hparts ?_
      rw [hover]
      exact hstarts.behind

end
/-! ## forms that cannot be expressed -/

/-- the names that an import asks for -/
def Import.Asks (i : Import) (name : Text) : Prop :=
  ∃ whole named, splitClause (trim i.clause) = .ok (whole, named) ∧
    ∃ v, (name, v) ∈ wholeOf whole ++ namedIn named

/-- the clause binds nothing, or names between braces and a variable outside -/
def Import.Bindable (i : Import) : Prop :=
  trim i.clause = [] ∨ ∃ whole named, splitClause (trim i.clause) = .ok (whole, named) ∧
    (whole = [] ∨ isIdentifier whole = true)

/-- a module of the disk can be rolled up to one that exports the name -/
def Exporting (disk : Disk) (q : Place) (name : Text) : Prop :=
  ∃ m earlier, FinishedModule.Bound disk earlier m ∧ m.path = q ∧
    readModule disk q = .ok m.source ∧ name ∈ m.scope.exports

/-- code at a place says what cannot be expressed -/
inductive Inexpressible (disk : Disk) (base : Place) (source : Text) : Prop
  /-- an import of what is no file beside the code, a package for example -/
  | unresolved (i : Import) (hi : i ∈ foundIn importAt? source)
      (h : locate? disk base i.specifier = none)
  /-- an import of a whole namespace, or with a clause that is none -/
  | unbindable (i : Import) (hi : i ∈ foundIn importAt? source) (h : ¬ i.Bindable)
  /-- an import of a name that the module does not export -/
  | missing (i : Import) (hi : i ∈ foundIn importAt? source) (q : Place)
      (hq : locate? disk base i.specifier = some q) (name : Text) (hname : i.Asks name)
      (h : ¬ Exporting disk q name)
  | reexport (h : Meets importAt? ReExports .start source)

namespace ModuleEntry
variable {disk : Disk} {e : ModuleEntry}

/-- the code of an entry or of a module that it leads to, and the place that its addresses are relative
to -/
def HasSource (disk : Disk) (e : ModuleEntry) (base : Place) (source : Text) : Prop :=
  e = .inline base source ∨
    ∃ q, e.Reaches disk q ∧ readModule disk q = .ok source ∧ q.dropLast = base

/-- how an entry is refused: for what a module says, or because one cannot be read; clauses that close
a brace first are not noticed -/
def Refuses (disk : Disk) (e : ModuleEntry) (f : Failure) : Prop :=
  f.cause.isRefusal = true ∨ f.Unread disk (e.Reaches disk) ∨
    f.cause = .outOfBounds ∧ e.ImportsBackwards disk

theorem refused_rollUp (disk : Disk) (e : ModuleEntry) :
    Results (e.rollUp disk) (fun _ => True) (e.Refuses disk) := by
  cases e with
  | file path =>
    refine (refused_rollUpFile disk path).mono (fun _ _ => trivial) fun f hf => ?_
    exact hf.imp_right (Or.imp_right fun ⟨hout, h⟩ => ⟨hout, .inr h⟩)
  | inline base code =>
    refine (refused_rollUpInline disk base code).mono (fun _ _ => trivial) fun f hf => ?_
    exact hf.imp_right (Or.imp_right fun ⟨hout, h⟩ => ⟨hout, h.imp_left fun h => ⟨base, code, rfl, h⟩⟩)

end ModuleEntry

section
variable {disk : Disk} {listed : List FinishedModule} {m : FinishedModule}

/-- what stands for an import of a finished module -/
theorem FinishedModule.Bound.reads (h : m.Bound disk listed) {i : Import}
    (hi : i ∈ foundIn importAt? m.source) : ∃ d ∈ listed, ∃ part,
      locate? disk m.path.dropLast i.specifier = some d.path ∧ i.Reads d.scope part := by
  obtain ⟨parts, hparts, -⟩ := h
  obtain ⟨o, hpiece⟩ := mem_foundIn.mp hi
  obtain ⟨k, hk, hget⟩ := List.mem_iff_getElem.mp hpiece
  have hbinds := hparts.get hk (hparts.length_eq ▸ hk)
  rw [List.get_eq_getElem, hget] at hbinds
  obtain ⟨d, hd, hloc, hbindings⟩ := hbinds
  have hreads := results_bindings d.scope m.path i
  rw [hbindings] at hreads
  exact ⟨d, hd, _, hloc, hreads⟩

/-- a finished module says nothing that cannot be expressed -/
theorem FinishedModule.Bound.not_inexpressible (h : m.Bound disk listed)
    (hlisted : ∀ d ∈ listed, d.Bound disk listed ∧ readModule disk d.path = .ok d.source) :
    ¬ Inexpressible disk m.path.dropLast m.source := by
  intro hinexpressible
  cases hinexpressible with
  | unresolved i hi hnone =>
    obtain ⟨d, -, -, hloc, -⟩ := h.reads hi
    exact nomatch hnone.symm.trans hloc
  | unbindable i hi hnot =>
    obtain ⟨d, -, part, -, hreads⟩ := h.reads hi
    rcases hreads with ⟨hclause, -⟩ | ⟨whole, named, hclause, hwhole, -⟩
    · exact hnot (.inl hclause)
    · exact hnot (.inr ⟨whole, named, hclause, hwhole⟩)
  | missing i hi q hq name hname hnot =>
    obtain ⟨d, hd, part, hloc, hreads⟩ := h.reads hi
    obtain rfl := Option.some.inj (hq.symm.trans hloc)
    obtain ⟨whole, named, hclause, v, hv⟩ := hname
    rcases hreads with ⟨hempty, -⟩ | ⟨whole', named', hclause', -, hexports, -⟩
    · -- an empty clause asks for nothing
      rw [hempty] at hclause
      cases hclause
      exact nomatch hv
    · cases hclause.symm.trans hclause'
      exact hnot ⟨d, listed, (hlisted d hd).1, rfl, (hlisted d hd).2, hexports _ hv⟩
  | reexport hmeets =>
    obtain ⟨parts, hparts, hexports⟩ := h
    obtain ⟨hstar, hlists, -⟩ := withoutExports_eq_ok hexports
    refine not_starts_of_meets hmeets hparts ?_
    exact (starts_of_foundIn atLines_exportStarAt? rfl hstar).and (starts_listFrom hlists)

/-- **Module syntax is rolled up or refused.**  In a script that is rolled up, no line of an orderly
module begins with an import or an export; and what cannot be expressed, in the entry or in a module
that it leads to, is refused. -/
theorem rollUp_expressed (hdisk : disk.Sound) (e : ModuleEntry) :
    (∀ r, e.rollUp disk = .ok r → ∃ listed rest, r.Ordered disk e listed rest ∧
      ∀ m ∈ listed ++ rest.toList, Orderly m.source →
        ∀ l ∈ splitOn '\n' m.code, opensStatement l = false) ∧
    (∀ base source, e.HasSource disk base source → Inexpressible disk base source →
      ∃ f, e.rollUp disk = .error f ∧ e.Refuses disk f) := by
  have hordered := e.ordered_rollUp hdisk
  have hrefused := e.refused_rollUp disk
  cases hr : e.rollUp disk with
  | error f =>
    rw [hr] at hrefused
    exact ⟨nofun, fun _ _ _ _ => ⟨f, rfl, hrefused⟩⟩
  | ok r =>
    rw [hr] at hordered
    obtain ⟨listed, rest, h, hbound⟩ := hordered
    refine ⟨?_, fun base source hsource hinexpressible => ?_⟩
    · rintro _ ⟨⟩
      exact ⟨listed, rest, h, fun m hm => (hbound m hm).bare⟩
    · -- the code is that of one of the modules
      obtain ⟨m, hm, rfl, rfl⟩ : ∃ m ∈ listed ++ rest.toList,
          m.path.dropLast = base ∧ m.source = source := by
        rcases hsource with rfl | ⟨q, hq, hread, rfl⟩
        · obtain ⟨m, hm, hpath, hcode⟩ := h.closes
          refine ⟨m, List.mem_append_right _ (hm ▸ List.mem_singleton_self m), ?_, hcode⟩
          rw [hpath, List.dropLast_concat]
        · have hq := (h.complete q).mpr hq
          rw [h.files] at hq
          obtain ⟨m, hm, rfl⟩ := List.mem_map.mp hq
          exact ⟨m, List.mem_append_left _ hm, rfl, Except.ok.inj ((h.read m hm).symm.trans hread)⟩
      have hlisted : ∀ d ∈ listed, d.Bound disk listed ∧ readModule disk d.path = .ok d.source :=
        fun d hd => ⟨hbound d (List.mem_append_left _ hd), h.read d hd⟩
      exact absurd hinexpressible ((hbound m hm).not_inexpressible hlisted)

end

/-! ## an orderly module, and one that imports a package -/

namespace OrderlyModules

def main : Text :=
  "import \x7b one \x7d from './one.js';\nimport('./later.js');\nexport \x7b one \x7d;".toList

def one : Text := "  export const one = 1;".toList

def disk : Disk where
  entries := [(["main.js".toList], .file (Utf8.bytes main)),
    (["one.js".toList], .file (Utf8.bytes one)),
    (["package.js".toList], .file (Utf8.bytes "import x from 'package';".toList))]
  cwd := []

def entry : ModuleEntry := .file ["main.js".toList]

theorem orderly_one : Orderly one := by
  refine starts_of_not_mem (by decide) (.line rfl ?_)
  exact .declaration rfl fun t => rfl

theorem orderly_main : Orderly main := by
  have himport : Spelled main := by
    refine .statement ⟨"\x7b one \x7d".toList, "./one.js".toList,
      "import \x7b one \x7d from './one.js';".toList⟩ _ rfl ?_ (.bare (by decide +kernel))
    intro whole named h
    cases h
    decide +kernel
  refine Starts.line (l := "import \x7b one \x7d from './one.js';".toList) (by decide) himport ?_
  refine Starts.line (l := "import('./later.js');".toList) (by decide)
    (.line rfl (.bare rfl)) ?_
  refine starts_of_not_mem (by decide) (.list " one ".toList ";".toList
    ⟨⟨" ".toList, rfl, by decide⟩, by decide⟩ (fun u v h => ?_) (.inl (.bare rfl)))
  exact absurd (h ▸ List.mem_append_right u List.mem_cons_self : '\n' ∈ " one ".toList) (by decide)

theorem files_entry : (entry.rollUp disk).toOption.map (·.files) =
    some [["one.js".toList], ["main.js".toList]] := by
  -- lists of characters are evaluated faster than literals
  unfold entry disk main one
  repeat rw [String.toList_ofList]
  decide +kernel

theorem sound_disk : disk.Sound where
  once := by decide
  above := by decide

def package : ModuleEntry := .file ["package.js".toList]

/-- the address of the package leads to no file -/
theorem inexpressible_package : package.HasSource disk [] "import x from 'package';".toList ∧
    Inexpressible disk [] "import x from 'package';".toList := by
  have hplace : Place.normalised [] ["package.js".toList] = ["package.js".toList] := rfl
  have hread : (readModule disk ["package.js".toList]).toOption =
      some "import x from 'package';".toList := by
    unfold disk main one
    repeat rw [String.toList_ofList]
    decide +kernel
  refine ⟨.inr ⟨["package.js".toList], ?_, eq_ok_of_toOption hread, rfl⟩, ?_⟩
  · show Relation.ReflTransGen _ (Place.normalised [] _) _
    rw [hplace]
  · exact .unresolved ⟨"x".toList, "package".toList, "import x from 'package';".toList⟩
      (List.mem_singleton.mpr rfl) rfl

end OrderlyModules

open OrderlyModules in
theorem rollUp_expressed_orderly : disk.Sound ∧
    (∃ r, entry.rollUp disk = .ok r ∧ ∃ listed rest, r.Ordered disk entry listed rest ∧
      (listed ++ rest.toList).map (·.source) = [one, main] ∧
      ∀ m ∈ listed ++ rest.toList, ∀ l ∈ splitOn '\n' m.code, opensStatement l = false) ∧
    ∃ f, package.rollUp disk = .error f ∧ package.Refuses disk f := by
  obtain ⟨r, hr, hfiles⟩ := Option.map_eq_some_iff.mp files_entry
  have hok : entry.rollUp disk = .ok r := eq_ok_of_toOption hr
  obtain ⟨listed, rest, h, hbare⟩ := (rollUp_expressed sound_disk entry).1 r hok
  obtain ⟨hsource, hinexpressible⟩ := inexpressible_package
  have hsources : (listed ++ rest.toList).map (·.source) = [one, main] := by
    rw [h.closes.1, Option.toList_none, List.append_nil]
    refine List.map_injective_iff.mpr (fun _ _ => Option.some.inj) ?_
    have hread : (listed.map (·.source)).map some =
        (listed.map (·.path)).map fun q => (readModule OrderlyModules.disk q).toOption := by
      rw [List.map_map, List.map_map]
      refine List.map_congr_left fun m hm => ?_
      show some m.source = (readModule OrderlyModules.disk m.path).toOption
      rw [h.read m hm]
      rfl
    rw [hread, h.files.symm.trans hfiles]
    unfold OrderlyModules.disk main one
    repeat rw [String.toList_ofList]
    decide +kernel
  refine ⟨sound_disk, ⟨r, hok, listed, rest, h, hsources, fun m hm => hbare m hm ?_⟩,
    (rollUp_expressed sound_disk package).2 _ _ hsource hinexpressible⟩
  have hmem : m.source ∈ [one, main] := hsources ▸ List.mem_map_of_mem hm
  rcases List.mem_cons.mp hmem with hone | hmem
  · exact hone ▸ orderly_one
  · exact List.mem_singleton.mp hmem ▸ orderly_main

/-! ## a statement behind another one on its line -/

namespace TwoOnALine

def disk : Disk where
  entries := [(["a.js".toList], .file []), (["b.js".toList], .file []), (["m.js".toList], .file
    (Utf8.bytes "import './a.js';import * as b from './b.js';".toList))]
  cwd := []

def entry : ModuleEntry := .file ["m.js".toList]

end TwoOnALine

open TwoOnALine in
/-- the import of a namespace stays, at the beginning of its line -/
theorem rollUp_twoOnALine_passed : disk.Sound ∧ ∃ r, entry.rollUp disk = .ok r ∧
    r.files = [["a.js".toList], ["m.js".toList]] ∧
    "import * as b from './b.js';".toList ∈ splitOn '\n' r.code ∧
    opensStatement "import * as b from './b.js';".toList = true := by
  have hrolled : (entry.rollUp TwoOnALine.disk).toOption.map (fun r => (r.files, r.code)) =
      some ([["a.js".toList], ["m.js".toList]],
        ("var __mod_1 = (function () \x7b\n\"use strict\";\n\nreturn \x7b\x7d;\n\x7d)();\n" ++
          "var __mod_0 = (function () \x7b\n\"use strict\";\n" ++
          "import * as b from './b.js';\nreturn \x7b\x7d;\n\x7d)();").toList) := by
    rw [String.toList_append, String.toList_append]
    unfold entry TwoOnALine.disk
    repeat rw [String.toList_ofList]
    decide +kernel
  obtain ⟨r, hr, hresult⟩ := Option.map_eq_some_iff.mp hrolled
  obtain ⟨hfiles, hcode⟩ := Prod.mk.inj hresult
  refine ⟨⟨by decide, by decide⟩, r, eq_ok_of_toOption hr, hfiles, ?_, by decide +kernel⟩
  rw [hcode, String.toList_append, String.toList_append]
  repeat rw [String.toList_ofList]
  decide +kernel

end SiteBundle
