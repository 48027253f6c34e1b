import SiteBundle.Proofs.Glob.AnyDepth
import SiteBundle.Proofs.Glob.Below
import SiteBundle.Proofs.Text.Reading

/-!
# What a matched name is nested in

A list of patterns without a slash matches a path in any directory if it matches the path itself: of
every pattern that it holds, it also holds the pattern in any directory (`nested_mem_widened`), and that
one matches what is in a directory if either of the two matches it there (`Glob.accepts_nested`,
`Glob.accepts_deeper`).

The one thing that can keep it from matching is that it asks for a file name where the pattern alone
does not.  Then the pattern is that name (`literal_of_asksForName`), and so is the path; the only path
without a slash that has no file name in a directory is `..`.
-/

namespace SiteBundle

open Text

variable {tokens : List GlobToken} {path : Text}

/-! ## bytes of names -/

theorem behindLead_isEmpty_iff {lead s : List UInt8} :
    behindLead List.isEmpty lead s = true ↔ s = lead := by
  induction lead generalizing s with
  | nil => rw [behindLead, List.isEmpty_iff]
  | cons l lead ih =>
    cases s with
    | nil => constructor <;> intro h <;> cases h
    | cons b s =>
      rw [behindLead, Bool.and_eq_true, beq_iff_eq, ih, List.cons.injEq, eq_comm]

theorem behindLead_append (k : List UInt8 → Bool) (lead lead' s : List UInt8) :
    behindLead (behindLead k lead') lead s = behindLead k (lead ++ lead') s := by
  induction lead generalizing s with
  | nil => rw [behindLead, List.nil_append]
  | cons l lead ih =>
    cases s with
    | nil => rfl
    | cons b s => rw [List.cons_append, behindLead, behindLead, ih]

/-- characters match their own bytes -/
theorem acceptsTokens_literal (k : List UInt8 → Bool) (name : Text) (s : List UInt8) :
    acceptsTokens (name.map .literal) k s = behindLead k (Utf8.bytes name) s := by
  induction name generalizing s with
  | nil =>
    rw [List.map_nil, acceptsTokens, show Utf8.bytes [] = [] by rw [Utf8.bytes_eq]; rfl, behindLead]
  | cons c name ih =>
    rw [List.map_cons, acceptsTokens, GlobToken.accepts, funext ih, behindLead_append,
      ← Utf8.bytes_append]
    rfl

theorem Utf8.bytes_inj {t u : Text} (h : Utf8.bytes t = Utf8.bytes u) : t = u := by
  have hlist : ∀ b : ByteArray, b.toList = b.data.toList := fun b => toList_loop_eq b 0 []
  have hbytes : (String.ofList t).toUTF8 = (String.ofList u).toUTF8 := by
    apply ByteArray.ext
    rw [← Array.toList_inj, ← hlist, ← hlist]
    exact h
  exact String.ofList_inj.mp (String.toByteArray_inj.mp hbytes)

/-! ## shapes -/

theorem all_isLiteral_iff {p : Char → Bool} : tokens.all (·.isLiteral p) = true ↔
    ∃ name : Text, tokens = name.map .literal ∧ ∀ c ∈ name, p c = true := by
  induction tokens with
  | nil => exact ⟨fun _ => ⟨[], rfl, nofun⟩, fun _ => rfl⟩
  | cons t tokens ih =>
    rw [List.all_cons, Bool.and_eq_true, ih]
    constructor
    · rintro ⟨ht, name, rfl, hname⟩
      cases t with
      | literal c => exact ⟨c :: name, rfl, List.forall_mem_cons.mpr ⟨ht, hname⟩⟩
      | _ => exact nomatch ht
    · rintro ⟨name, heq, hname⟩
      cases name with
      | nil => exact nomatch heq
      | cons c name =>
        obtain ⟨rfl, rfl⟩ := List.cons.inj heq
        obtain ⟨hc, hname⟩ := List.forall_mem_cons.mp hname
        exact ⟨hc, name, rfl, hname⟩

theorem endsInExtension_append_deepStart (tokens : List GlobToken) :
    endsInExtension (tokens ++ [.deepStart]) = endsInExtension tokens := by
  induction tokens with
  | nil => rfl
  | cons t tokens ih =>
    cases t with
    | literal c => rw [List.cons_append, endsInExtension, endsInExtension, ih]
    | _ => rfl

/-- tokens over any directories are no path, and no beginning of one -/
theorem saysBeginning_deepStart (tokens : List GlobToken) :
    saysBeginning (.deepStart :: tokens) = false := by
  cases tokens with
  | nil => rfl
  | cons t tokens =>
    unfold saysBeginning
    rw [List.dropLast_cons_cons]
    split
    · exact Bool.and_false _
    · rfl
    · rfl

/-- what ends in an extension does not end in a star or in everything below -/
theorem saysBeginning_of_endsInExtension (h : endsInExtension tokens.reverse = true) :
    saysBeginning tokens = false := by
  unfold saysBeginning
  rw [← List.head?_reverse]
  generalize tokens.reverse = back at h
  match back, h with
  | .literal c :: back, _ => rfl

theorem asksForName_ofTokens (tokens : List GlobToken) :
    (GlobShape.ofTokens tokens).asksForName =
      (saysFileName tokens || !(!tokens.isEmpty && allLiteral tokens) &&
        (saysExtension tokens || !saysBeginning tokens && !saysEnding tokens &&
          endsInExtension tokens.reverse)) := by
  unfold GlobShape.ofTokens
  cases saysFileName tokens with
  | true => rfl
  | false =>
    cases !tokens.isEmpty && allLiteral tokens with
    | true => rfl
    | false =>
      cases saysExtension tokens with
      | true => rfl
      | false =>
        cases saysBeginning tokens with
        | true => rfl
        | false =>
          cases saysEnding tokens with
          | true => rfl
          | false => cases endsInExtension tokens.reverse <;> rfl

/-- an extension asked for in any directory is asked for alone -/
theorem saysExtension_of_deepStart (hhead : tokens.head? ≠ some .deepStart)
    (h : saysExtension (.deepStart :: tokens) = true) :
    saysExtension tokens = true ∧ allLiteral tokens = false := by
  match tokens, h with
  | .star :: r, h => exact ⟨h, rfl⟩
  | .deepStart :: r, _ => exact absurd rfl hhead

/-- what is no ending in any directory is none alone, nor a path -/
theorem saysEnding_of_deepStart (hhead : tokens.head? ≠ some .deepStart) (hne : tokens ≠ [])
    (h : saysEnding (.deepStart :: tokens) = false) :
    saysEnding tokens = false ∧ allLiteral tokens = false := by
  cases tokens with
  | nil => exact absurd rfl hne
  | cons t r =>
    cases t with
    | deepStart => exact absurd rfl hhead
    | star => exact ⟨h, rfl⟩
    | _ => exact ⟨rfl, h⟩

/-- **Tokens that ask for a file name in any directory, and not alone, are that name.** -/
theorem saysFileName_of_asksForName (hhead : tokens.head? ≠ some .deepStart)
    (halone : (GlobShape.ofTokens tokens).asksForName = false)
    (h : (GlobShape.ofTokens (.deepStart :: tokens)).asksForName = true) :
    saysFileName (.deepStart :: tokens) = true := by
  rw [asksForName_ofTokens] at halone h
  rw [saysBeginning_deepStart, List.reverse_cons, endsInExtension_append_deepStart] at h
  rcases Bool.or_eq_true_iff.mp h with hname | h
  · exact hname
  · exfalso
    obtain ⟨-, h⟩ := Bool.and_eq_true_iff.mp h
    rcases Bool.or_eq_true_iff.mp h with hextension | h
    · obtain ⟨hextension, hall⟩ := saysExtension_of_deepStart hhead hextension
      rw [hextension, hall] at halone
      simp at halone
    · obtain ⟨hending, hends⟩ := Bool.and_eq_true_iff.mp h
      have hne : tokens ≠ [] := by
        rintro rfl
        exact nomatch hends
      obtain ⟨hending, hall⟩ := saysEnding_of_deepStart hhead hne (by simpa using hending)
      rw [saysBeginning_of_endsInExtension hends, hending, hall, hends] at halone
      simp at halone

/-! ## paths in a directory -/

/-- a path in a directory has a file name unless its last step leads upwards -/
theorem namesFile_nested (front path : Text) : namesFile (front ++ '/' :: path) =
    ((splitOn '/' path).getLast? != some ['.', '.']) := by
  have hne : (front ++ '/' :: path).isEmpty = false := by simp
  rw [namesFile, hne, splitOn_append, List.getLast?_append]
  cases hlast : (splitOn '/' path).getLast? with
  | none => exact absurd (List.getLast?_eq_none_iff.mp hlast) (splitOn_ne_nil '/' path)
  | some piece => rfl

theorem namesFile_nested_of_namesFile (h : namesFile path = true) (front : Text) :
    namesFile (front ++ '/' :: path) = true := by
  rw [namesFile_nested]
  exact (Bool.and_eq_true_iff.mp h).2

theorem someEndBehindSlash_append {k : List UInt8 → Bool} {s : List UInt8}
    (h : someEndBehindSlash k s = true) (u : List UInt8) :
    someEndBehindSlash k (u ++ s) = true := by
  induction u with
  | nil => exact h
  | cons b u ih => rw [List.cons_append, someEndBehindSlash, ih, Bool.or_true]

theorem someEndBehindSlash_slash {k : List UInt8 → Bool} {s : List UInt8} (h : k s = true) :
    someEndBehindSlash k (0x2F :: s) = true := by
  rw [someEndBehindSlash, h]
  rfl

/-- tokens over any directories match behind a slash what they match without them -/
theorem accepts_deepStart_of_accepts {k : List UInt8 → Bool} {s : List UInt8}
    (h : acceptsTokens tokens k s = true) (u : List UInt8) :
    acceptsTokens (.deepStart :: tokens) k (u ++ 0x2F :: s) = true := by
  rw [acceptsTokens, GlobToken.accepts,
    someEndBehindSlash_append (someEndBehindSlash_slash h) u, Bool.or_true]

/-- and also what they match with them -/
theorem accepts_deepStart_append {k : List UInt8 → Bool} {s : List UInt8}
    (h : acceptsTokens (.deepStart :: tokens) k s = true) (u : List UInt8) :
    acceptsTokens (.deepStart :: tokens) k (u ++ 0x2F :: s) = true := by
  rw [acceptsTokens, GlobToken.accepts] at h
  rcases Bool.or_eq_true_iff.mp h with h | h
  · exact accepts_deepStart_of_accepts h u
  · rw [acceptsTokens, GlobToken.accepts, ← List.singleton_append, ← List.append_assoc,
      someEndBehindSlash_append h, Bool.or_true]

/-- two stars alone match every path -/
theorem Glob.accepts_everything (path : Text) : (⟨[.deepStart]⟩ : Glob).accepts path = true := rfl

theorem Glob.accepts_iff {tokens : List GlobToken} (hne : tokens ≠ [.deepStart]) (path : Text) :
    (⟨tokens⟩ : Glob).accepts path = true ↔
      acceptsTokens tokens List.isEmpty (Utf8.bytes path) = true ∧
        ((GlobShape.ofTokens tokens).asksForName = false ∨ namesFile path = true) := by
  rw [Glob.accepts, Glob.describes_eq hne, Bool.and_eq_true, Bool.or_eq_true, Bool.not_eq_true']
  rfl

/-- a pattern in any directory matches what is nested in what it matches -/
theorem Glob.accepts_deeper (h : (⟨.deepStart :: tokens⟩ : Glob).accepts path = true)
    (front : Text) : (⟨.deepStart :: tokens⟩ : Glob).accepts (front ++ '/' :: path) = true := by
  by_cases hne : GlobToken.deepStart :: tokens = [.deepStart]
  · rw [hne]
    exact Glob.accepts_everything _
  · rw [Glob.accepts_iff hne] at h ⊢
    refine ⟨?_, h.2.imp_right fun hname => namesFile_nested_of_namesFile hname front⟩
    rw [Utf8.bytes_below]
    exact accepts_deepStart_append h.1 (Utf8.bytes front)

/-- the file name that leads upwards -/
def upwards : Text := ['.', '.']

/-- **In any directory, a pattern matches what it matches alone**, unless pattern and path are two
dots. -/
theorem Glob.accepts_nested (hhead : tokens.head? ≠ some .deepStart)
    (h : (⟨tokens⟩ : Glob).accepts path = true)
    (hup : path = upwards → tokens ≠ upwards.map .literal) (front : Text) :
    (⟨.deepStart :: tokens⟩ : Glob).accepts (front ++ '/' :: path) = true := by
  by_cases hnil : tokens = []
  · rw [hnil]
    exact Glob.accepts_everything _
  · have hne : GlobToken.deepStart :: tokens ≠ [.deepStart] := fun he => hnil (List.cons.inj he).2
    have hlone : tokens ≠ [.deepStart] := by
      rintro rfl
      exact hhead rfl
    rw [Glob.accepts_iff hlone] at h
    obtain ⟨hmatch, hasks⟩ := h
    rw [Glob.accepts_iff hne, Utf8.bytes_below]
    refine ⟨accepts_deepStart_of_accepts hmatch (Utf8.bytes front), ?_⟩
    rcases hasks with halone | hname
    · refine Classical.or_iff_not_imp_left.mpr fun hasks => ?_
      -- the tokens are a name without a slash, and so is the path
      have hname := saysFileName_of_asksForName hhead halone (by simpa using hasks)
      obtain ⟨name, rfl, hslash⟩ := all_isLiteral_iff.mp (Bool.and_eq_true_iff.mp hname).2
      rw [acceptsTokens_literal, behindLead_isEmpty_iff] at hmatch
      obtain rfl := Utf8.bytes_inj hmatch
      have hno : '/' ∉ path := fun hmem => absurd (hslash _ hmem) (by decide)
      rw [namesFile_nested, splitOn_of_not_mem hno]
      refine bne_iff_ne.mpr fun hlast => ?_
      obtain rfl : path = upwards := Option.some.inj hlast
      exact hup rfl rfl
    · exact .inr (namesFile_nested_of_namesFile hname front)

/-! ## lists of patterns -/

/-- a pattern of a list, trimmed -/
def patternCore (pattern : Text) : Text := trimSlashes (dropDotSlash (trim pattern))

/-- a list holds its patterns without a slash in any directory -/
theorem nested_mem_widened {pattern w : Text} (hslash : '/' ∉ patternCore pattern)
    (h : w ∈ widened pattern) :
    patternCore pattern ≠ [] ∧ patternCore pattern ∈ widened pattern ∧
      ∃ q, (q = patternCore pattern ∨ q = patternCore pattern ++ deepSuffix) ∧
        q ∈ widened pattern ∧ depthPrefix ++ q ∈ widened pattern ∧ (w = q ∨ w = depthPrefix ++ q) := by
  have hwidened : widened pattern = if (patternCore pattern).isEmpty then []
      else [patternCore pattern, patternCore pattern ++ deepSuffix,
        depthPrefix ++ patternCore pattern, depthPrefix ++ patternCore pattern ++ deepSuffix] := by
    have hcontains : (patternCore pattern).contains '/' = false := by simpa using hslash
    show (if (patternCore pattern).isEmpty then [] else if (patternCore pattern).contains '/' then _
      else _) = _
    rw [hcontains]
    rfl
  rw [hwidened] at h ⊢
  split at h
  · exact absurd h List.not_mem_nil
  · rename_i hempty
    rw [if_neg hempty]
    refine ⟨fun he => hempty (List.isEmpty_iff.mpr he), by simp, ?_⟩
    simp only [List.mem_cons, List.not_mem_nil, or_false] at h
    rcases h with h | h | h | h
    · exact ⟨patternCore pattern, .inl rfl, by simp, by simp, .inl h⟩
    · exact ⟨_, .inr rfl, by simp, by simp, .inl h⟩
    · exact ⟨patternCore pattern, .inl rfl, by simp, by simp, .inr h⟩
    · exact ⟨_, .inr rfl, by simp, by simp, .inr (by rw [h, List.append_assoc])⟩

/-- of the patterns without a slash, only two stars lead deep -/
theorem eq_of_leadsDeep {core q : Text} (hne : core ≠ []) (hslash : '/' ∉ core)
    (hq : q = core ∨ q = core ++ deepSuffix) (h : LeadsDeep q) : core = ['*', '*'] := by
  obtain ⟨r, rfl, hr⟩ := h
  match core, hne with
  | [c], _ =>
    rcases hq with hq | hq
    · exact nomatch hq
    · obtain ⟨-, hq⟩ := List.cons.inj hq
      exact absurd (List.cons.inj hq).1 (by decide)
  | c :: d :: core, _ =>
    have hlead : c = '*' ∧ d = '*' ∧ (r = core ∨ r = core ++ deepSuffix) := by
      rcases hq with hq | hq
      · obtain ⟨hc, hq⟩ := List.cons.inj hq
        obtain ⟨hd, hq⟩ := List.cons.inj hq
        exact ⟨hc.symm, hd.symm, .inl hq⟩
      · obtain ⟨hc, hq⟩ := List.cons.inj hq
        obtain ⟨hd, hq⟩ := List.cons.inj hq
        exact ⟨hc.symm, hd.symm, .inr hq⟩
    obtain ⟨rfl, rfl, hcore⟩ := hlead
    cases core with
    | nil => rfl
    | cons e core =>
      exfalso
      have hhead : r.head? = some e := by rcases hcore with rfl | rfl <;> rfl
      rcases hr with rfl | hr
      · exact nomatch hhead
      · obtain rfl : e = '/' := Option.some.inj (hhead.symm.trans hr)
        exact hslash (by simp)

/-- the tokens of a pattern without a slash in any directory -/
theorem tokens_nested {core q : Text} {deep : List GlobToken} (hne : core ≠ []) (hslash : '/' ∉ core)
    (hq : q = core ∨ q = core ++ deepSuffix) (h : globTokens q = .ok tokens)
    (hdeep : globTokens (depthPrefix ++ q) = .ok deep) :
    tokens = [.deepStart] ∨ tokens.head? ≠ some .deepStart ∧ deep = .deepStart :: tokens := by
  by_cases hlead : LeadsDeep q
  · left
    obtain rfl := eq_of_leadsDeep hne hslash hq hlead
    rcases hq with rfl | rfl
    · exact (Except.ok.inj h).symm
    · exact (Except.ok.inj h).symm
  · obtain ⟨hread, hhead⟩ := readGlob_depthPrefix hlead h
    exact .inr ⟨hhead, Except.ok.inj (hdeep.symm.trans hread)⟩

/-- a pattern with everything below is no name -/
theorem ne_literal_of_deepSuffix {core name : Text} (h : globTokens (core ++ deepSuffix) = .ok tokens)
    (hcore : ∃ own, globTokens core = .ok own) : tokens ≠ name.map .literal := by
  obtain ⟨own, hown⟩ := hcore
  obtain ⟨deep, hread, hdeepened⟩ := readGlob_deepSuffix .nil hown
  obtain rfl := Except.ok.inj (h.symm.trans hread)
  have hliteral : ∀ {t : GlobToken}, t ∈ name.map .literal → ∃ c, t = .literal c := by
    intro t ht
    obtain ⟨c, -, rfl⟩ := List.mem_map.mp ht
    exact ⟨c, rfl⟩
  intro heq
  cases hdeepened with
  | more _ => exact nomatch hliteral (t := .deepEnd) (heq ▸ by simp)
  | same front hfront => exact nomatch hliteral (t := .deepEnd) (heq ▸ hfront ▸ by simp)
  | all => exact nomatch hliteral (t := .deepStart) (heq ▸ by simp)

theorem PathFilter.accepts_of_mem {lists : List (List Glob)} {globs : List Glob} {g : Glob}
    (hglobs : globs ∈ lists) (hg : g ∈ globs) (h : g.accepts path = true) :
    (⟨lists.flatten⟩ : PathFilter).accepts path = true :=
  List.any_eq_true.mpr ⟨g, List.mem_flatten.mpr ⟨globs, hglobs, hg⟩, h⟩

/-- a list of patterns without a slash matches in any directory what it matches, two dots apart -/
theorem PathFilter.accepts_nested {patterns : List Text} {f : PathFilter}
    (h : PathFilter.read patterns = .ok f) (hslash : ∀ w ∈ patterns, '/' ∉ patternCore w)
    (hup : path = upwards → ∀ w ∈ patterns, globTokens (patternCore w) ≠ .ok (upwards.map .literal))
    (hpath : f.accepts path = true) (front : Text) : f.accepts (front ++ '/' :: path) = true := by
  obtain ⟨lists, hlists, rfl⟩ := exists_of_read h
  obtain ⟨g, hg, haccepts⟩ := List.any_eq_true.mp hpath
  obtain ⟨globs, hglobs, hgmem⟩ := List.mem_flatten.mp hg
  obtain ⟨pattern, hpattern, hread⟩ := List.mem_map.mp (hlists ▸ List.mem_map_of_mem hglobs)
  obtain ⟨hofGlob, hofPattern⟩ := of_readWidened hread
  obtain ⟨w, hw, htokens⟩ := hofGlob g hgmem
  obtain ⟨hne, hcoremem, q, hq, hqmem, hnested, hwq⟩ := nested_mem_widened (hslash pattern hpattern) hw
  obtain ⟨own, hown, hownTokens⟩ := hofPattern q hqmem
  obtain ⟨deep, hdeep, hdeepTokens⟩ := hofPattern _ hnested
  rcases tokens_nested hne (hslash pattern hpattern) hq hownTokens hdeepTokens with
    hall | ⟨hhead, hled⟩
  · -- the pattern matches everything
    have hown' : own = ⟨[.deepStart]⟩ := congrArg Glob.mk hall
    exact PathFilter.accepts_of_mem hglobs hown (hown' ▸ Glob.accepts_everything _)
  · have hdeep' : deep = ⟨.deepStart :: own.tokens⟩ := congrArg Glob.mk hled
    refine PathFilter.accepts_of_mem hglobs hdeep ?_
    rw [hdeep']
    rcases hwq with rfl | rfl
    · obtain rfl : own = g := congrArg Glob.mk (Except.ok.inj (hownTokens.symm.trans htokens))
      refine Glob.accepts_nested hhead haccepts (fun hp heq => ?_) front
      rcases hq with rfl | rfl
      · exact hup hp pattern hpattern (hownTokens.trans (congrArg Except.ok heq))
      · obtain ⟨core, -, hcore⟩ := hofPattern _ hcoremem
        exact ne_literal_of_deepSuffix hownTokens ⟨_, hcore⟩ heq
    · obtain rfl : deep = g := congrArg Glob.mk (Except.ok.inj (hdeepTokens.symm.trans htokens))
      exact Glob.accepts_deeper (hdeep' ▸ haccepts) front

/-- **A list that matches a path matches everything below it, and a list without slashes also the path
in any directory.**  The exception is the path of two dots, which has no file name, where a pattern is
that name. -/
theorem PathFilter.accepts_around {patterns : List Text} {f : PathFilter}
    (h : PathFilter.read patterns = .ok f) (hpath : f.accepts path = true) :
    (∀ rest, f.accepts (path ++ '/' :: rest) = true) ∧
      ((∀ w ∈ patterns, '/' ∉ patternCore w) →
        (path = upwards →
          ∀ w ∈ patterns, globTokens (patternCore w) ≠ .ok (upwards.map .literal)) →
        ∀ front, f.accepts (front ++ '/' :: path) = true) :=
  ⟨PathFilter.accepts_below h hpath, fun hslash hup => PathFilter.accepts_nested h hslash hup hpath⟩

/-- a folder, two endings and a class, none of them with a slash inside -/
def looseNames : List Text := [" ./lib/ ".toList, "*.{js,mjs}".toList, "[!._]?".toList]

def looseFilter : PathFilter := (PathFilter.read looseNames).toOption.getD .nothing

theorem PathFilter.read_eq_ok {patterns : List Text}
    (h : (PathFilter.read patterns).toOption.isSome = true) :
    PathFilter.read patterns = .ok ((PathFilter.read patterns).toOption.getD .nothing) := by
  cases hread : PathFilter.read patterns with
  | ok f => rfl
  | error fault =>
    rw [hread] at h
    exact nomatch h

theorem PathFilter.accepts_around_looseNames :
    PathFilter.read looseNames = .ok looseFilter ∧
    looseFilter.accepts "x.mjs".toList = true ∧ (∀ w ∈ looseNames, '/' ∉ patternCore w) ∧
    looseFilter.accepts "x.mjs/map".toList = true ∧ looseFilter.accepts "a/b/x.mjs".toList = true := by
  have hread : PathFilter.read looseNames = .ok looseFilter :=
    PathFilter.read_eq_ok (by decide +kernel)
  have haccepts : looseFilter.accepts "x.mjs".toList = true := by decide +kernel
  have hslash : ∀ w ∈ looseNames, '/' ∉ patternCore w := by decide +kernel
  have hup : "x.mjs".toList ≠ upwards := by decide
  obtain ⟨hbelow, hnested⟩ := PathFilter.accepts_around hread haccepts
  exact ⟨hread, haccepts, hslash, hbelow "map".toList,
    hnested hslash (fun he => absurd he hup) "a/b".toList⟩

/-- two dots name no file in a directory -/
theorem PathFilter.accepts_nested_fails : ¬ ∀ patterns f path, PathFilter.read patterns = .ok f →
    f.accepts path = true → (∀ rest, f.accepts (path ++ '/' :: rest) = true) ∧
      ((∀ w ∈ patterns, '/' ∉ patternCore w) → ∀ front, f.accepts (front ++ '/' :: path) = true) := by
  intro h
  obtain ⟨-, hnested⟩ := h ["..".toList] _ upwards (PathFilter.read_eq_ok (by decide +kernel))
    (by decide +kernel)
  exact absurd (hnested (by decide +kernel) ['d']) (by decide +kernel)

end SiteBundle
