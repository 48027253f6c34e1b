import SiteBundle.Proofs.Script.Reading
import SiteBundle.Proofs.Text.Bytes

/-!
# Reading a script byte by byte

The reader of scripts may go along the bytes instead of the characters: it tells only ASCII characters
apart, and takes a byte along behind a backslash where it would take a character.

* `itemsFrom_bytewise`    reading the bytes of a script gives the bytes of what is read;
* `Reaches`               a place where an item begins or all are read;
* `isBoundary_of_reaches` the places reached along the bytes are boundaries of the script, so it can be
  cut at each of them.
-/

namespace SiteBundle

open Text

def Lexeme.bytewise (l : Lexeme) : Lexeme := ⟨l.kind, SiteBundle.bytewise l.text⟩

def Item.bytewise : Item → Item
  | .lexeme l => .lexeme l.bytewise
  | .gap g => .gap g

def OpenEnd.bytewise (e : OpenEnd) : OpenEnd := ⟨e.unclosed, SiteBundle.bytewise e.rest⟩

def Frame.bytewise : Frame → Frame
  | .template start => .template (SiteBundle.bytewise start)
  | .substitution depth start => .substitution depth (SiteBundle.bytewise start)
  | .string quote start => .string quote (SiteBundle.bytewise start)

/-- what reading the bytes gives, where reading the characters gives this -/
def onBytes {α : Type} (f : α → α) : Except OpenEnd α → Except OpenEnd α
  | .error e => .error e.bytewise
  | .ok a => .ok (f a)

/-- a literal read behind the text `u` -/
def readBehind (u : Text) (x : Option (Text × Text)) : Option (Text × Text) :=
  x.map fun p => (u ++ p.1, p.2)

def pairBytewise (x : Option (Text × Text)) : Option (Text × Text) :=
  x.map fun p => (bytewise p.1, bytewise p.2)

section
variable {c d quote : Char} {r t u : Text} {x : Option (Text × Text)} {inClass : Bool}

theorem readBehind_append (u v : Text) (x : Option (Text × Text)) :
    readBehind u (readBehind v x) = readBehind (u ++ v) x := by
  cases x with
  | none => rfl
  | some p => exact congrArg (fun w => some (w, p.2)) (List.append_assoc u v p.1).symm

theorem pairBytewise_readBehind (u : Text) (x : Option (Text × Text)) :
    pairBytewise (readBehind u x) = readBehind (bytewise u) (pairBytewise x) := by
  cases x with
  | none => rfl
  | some p => exact congrArg (fun w => some (w, bytewise p.2)) (bytewise_append u p.1)

theorem ne_of_high (hc : 0x80 ≤ c.toNat) (hd : d.toNat < 0x80) : c ≠ d := by
  rintro rfl
  omega

/-- the bytes of a character behind the first one are high -/
theorem exists_bytewise (c : Char) : ∃ d u, bytewise [c] = d :: u ∧ IsHigh u := by
  obtain ⟨d, u, heq⟩ := List.exists_cons_of_ne_nil (bytewise_ne_nil c)
  refine ⟨d, u, heq, fun e he => ?_⟩
  rcases Nat.lt_or_ge c.toNat 0x80 with hc | hc
  · rw [bytewise_ascii hc] at heq
    obtain ⟨-, rfl⟩ := List.cons.inj heq
    exact nomatch he
  · exact isHigh_bytewise hc e (heq ▸ List.mem_cons_of_mem _ he)

theorem bytewise_cons_ascii (h : c.toNat < 0x80) (t : Text) : bytewise (c :: t) = c :: bytewise t := by
  rw [bytewise_cons, bytewise_ascii h]
  rfl

/-! ## strings -/

theorem quotedRest?_high (hquote : quote.toNat < 0x80) (hu : IsHigh u) (r : Text) :
    quotedRest? quote (u ++ r) = readBehind u (quotedRest? quote r) := by
  induction u with
  | nil => cases h : quotedRest? quote r with
    | none => exact h
    | some p => exact h
  | cons c u ih =>
    obtain ⟨hc, hu⟩ := List.forall_mem_cons.mp hu
    rw [List.cons_append, quotedRest?_cons (ne_of_high hc (by decide)),
      if_neg (ne_of_high hc (by decide)), if_neg (ne_of_high hc hquote), ih hu]
    exact readBehind_append [c] u _

/-- **A string is read along its bytes.** -/
theorem quotedRest?_bytewise (hquote : quote.toNat < 0x80) (t : Text) :
    quotedRest? quote (bytewise t) = pairBytewise (quotedRest? quote t) := by
  fun_induction quotedRest? quote t with
  | case1 => rw [bytewise_nil]; rfl
  | case2 => rw [bytewise_ascii (by decide)]; rfl
  | case3 c r ih =>
    obtain ⟨d, u, hbytes, hu⟩ := exists_bytewise c
    have hpair : ['\\', d] ++ u = bytewise ['\\', c] := by
      rw [bytewise_cons_ascii (by decide), hbytes]
      rfl
    rw [bytewise_cons_ascii (by decide), bytewise_cons, hbytes, List.cons_append, quotedRest?,
      quotedRest?_high hquote hu, ih]
    refine (readBehind_append ['\\', d] u _).trans ?_
    rw [hpair]
    exact (pairBytewise_readBehind ['\\', c] _).symm
  | case4 r => rw [bytewise_cons_ascii (by decide), quotedRest?_cons (by decide), if_pos rfl]; rfl
  | case5 r hlone hpair hline =>
    have hescape : quote ≠ '\\' := by
      rintro rfl
      cases r with
      | nil => exact hlone rfl rfl
      | cons c r => exact hpair c r rfl rfl
    rw [bytewise_cons_ascii hquote, quotedRest?_cons hescape, if_neg hline, if_pos rfl]
    exact congrArg (fun w => some (w, bytewise r)) (bytewise_ascii hquote).symm
  | case6 c r hlone hpair hline hne ih =>
    have hescape : c ≠ '\\' := by
      rintro rfl
      cases r with
      | nil => exact hlone rfl rfl
      | cons c r => exact hpair c r rfl rfl
    refine Eq.trans ?_ (pairBytewise_readBehind [c] _).symm
    rw [← ih]
    rcases Nat.lt_or_ge c.toNat 0x80 with hc | hc
    · rw [bytewise_cons_ascii hc, quotedRest?_cons hescape, if_neg hline, if_neg hne,
        bytewise_ascii hc]
      rfl
    · rw [bytewise_cons, quotedRest?_high hquote (isHigh_bytewise hc)]

/-! ## regular expressions -/

theorem highAlike_isLetter : HighAlike isLetter := by
  have hno : ∀ c : Char, 0x80 ≤ c.toNat → isLetter c = false := by
    intro c hc
    simp only [isLetter, Bool.or_eq_false_iff, Bool.and_eq_false_iff, decide_eq_false_iff_not,
      Char.not_le]
    exact ⟨.inr (Nat.lt_of_lt_of_le (by decide) hc), .inr (Nat.lt_of_lt_of_le (by decide) hc)⟩
  exact fun c d hc hd => (hno c hc).trans (hno d hd).symm

theorem highAlike_isScriptWord : HighAlike isScriptWord := by
  have hall : ∀ c : Char, 0x80 ≤ c.toNat → isScriptWord c = true := by
    intro c hc
    rw [isScriptWord, decide_eq_true hc, Bool.or_true]
  exact fun c d hc hd => (hall c hc).trans (hall d hd).symm

theorem highAlike_ne (hd : d.toNat < 0x80) : HighAlike (· != d) := by
  have hall : ∀ c : Char, 0x80 ≤ c.toNat → (c != d) = true := fun c hc =>
    bne_iff_ne.mpr (ne_of_high hc hd)
  exact fun a b ha hb => (hall a ha).trans (hall b hb).symm

theorem regexRest?_high (hu : IsHigh u) (r : Text) :
    regexRest? inClass (u ++ r) = readBehind u (regexRest? inClass r) := by
  induction u with
  | nil => cases h : regexRest? inClass r with
    | none => exact h
    | some p => exact h
  | cons c u ih =>
    obtain ⟨hc, hu⟩ := List.forall_mem_cons.mp hu
    have hne : ∀ d : Char, d.toNat < 0x80 → c ≠ d := fun d => ne_of_high hc
    rw [List.cons_append, regexRest?_cons (hne _ (by decide)), if_neg (hne _ (by decide)),
      if_neg fun h => hne _ (by decide) h.1, if_neg (hne _ (by decide)), if_neg (hne _ (by decide)),
      ih hu]
    exact readBehind_append [c] u _

/-- **A regular expression is read along its bytes.** -/
theorem regexRest?_bytewise (t : Text) :
    regexRest? inClass (bytewise t) = pairBytewise (regexRest? inClass t) := by
  induction hn : t.length using Nat.strongRecOn generalizing inClass t with
  | _ n ih =>
    cases t with
    | nil => rw [bytewise_nil]; rfl
    | cons c t =>
      by_cases hescape : c = '\\'
      · subst hescape
        rw [bytewise_cons_ascii (by decide)]
        cases t with
        | nil => rw [bytewise_nil]; rfl
        | cons c t =>
          obtain ⟨d, u, hbytes, hu⟩ := exists_bytewise c
          have hpair : ['\\', d] ++ u = bytewise ['\\', c] := by
            rw [bytewise_cons_ascii (by decide), hbytes]
            rfl
          rw [bytewise_cons, hbytes, List.cons_append, regexRest?, regexRest?_high hu,
            ih t.length (by rw [← hn, List.length_cons, List.length_cons]; omega) t rfl, regexRest?]
          refine (readBehind_append ['\\', d] u _).trans ?_
          rw [hpair]
          exact (pairBytewise_readBehind ['\\', c] _).symm
      · have ih : ∀ inClass, regexRest? inClass (bytewise t) = pairBytewise (regexRest? inClass t) :=
          fun _ => ih t.length (by rw [← hn]; exact Nat.lt_succ_self _) t rfl
        rw [regexRest?_cons hescape]
        rcases Nat.lt_or_ge c.toNat 0x80 with hc | hc
        · rw [bytewise_cons_ascii hc, regexRest?_cons hescape]
          split
          · rfl
          · split
            · obtain ⟨htake, hdrop⟩ := takeWhile_bytewise highAlike_isLetter t
              rw [htake, hdrop]
              exact congrArg (fun w => some (w, _)) (bytewise_cons_ascii hc _).symm
            · rw [ih]
              refine Eq.trans ?_ (pairBytewise_readBehind [c] _).symm
              rw [bytewise_ascii hc]
              rfl
        · have hne : ∀ d : Char, d.toNat < 0x80 → c ≠ d := fun d => ne_of_high hc
          rw [bytewise_cons, regexRest?_high (isHigh_bytewise hc), ih, if_neg (hne _ (by decide)),
            if_neg fun h => hne _ (by decide) h.1, if_neg (hne _ (by decide)),
            if_neg (hne _ (by decide))]
          exact (pairBytewise_readBehind [c] _).symm

/-! ## template literals -/

/-- the quotes of what is open are ASCII characters -/
def Frame.IsMarked : Frame → Prop
  | .template _ => True
  | .substitution _ _ => True
  | .string quote _ => quote.toNat < 0x80

variable {f : Frame} {frames outer : List Frame}

theorem behindTemplate_high (hf : f.IsMarked) (hu : IsHigh u) (r : Text) :
    behindTemplate (f :: outer) (u ++ r) = behindTemplate (f :: outer) r := by
  induction u with
  | nil => rfl
  | cons c u ih =>
    obtain ⟨hc, hu⟩ := List.forall_mem_cons.mp hu
    have hne : ∀ d : Char, d.toNat < 0x80 → c ≠ d := fun d => ne_of_high hc
    rw [List.cons_append, ← ih hu]
    match f with
    | .template start =>
      rw [behindTemplate_letter (hne _ (by decide)) fun h => absurd h (hne _ (by decide)),
        if_neg (hne _ (by decide))]
    | .substitution depth start =>
      rw [behindTemplate, if_neg (hne _ (by decide)), if_neg (hne _ (by decide)), if_neg ?_,
        if_neg (hne _ (by decide))]
      exact fun h => h.elim (hne _ (by decide)) (hne _ (by decide))
    | .string quote start =>
      rw [behindTemplate_string (hne _ (by decide)), if_neg (hne _ (by decide)), if_neg (hne _ hf)]

/-- an escaped character is stepped over with all its bytes -/
theorem behindTemplate_escaped_bytewise (hf : f.IsMarked)
    (hescape : ∀ c r, behindTemplate (f :: outer) ('\\' :: c :: r) = behindTemplate (f :: outer) r)
    (c : Char) (r : Text) : behindTemplate (f :: outer) (bytewise ('\\' :: c :: r)) =
      behindTemplate (f :: outer) (bytewise r) := by
  obtain ⟨d, u, hbytes, hu⟩ := exists_bytewise c
  rw [bytewise_cons_ascii (by decide), bytewise_cons, hbytes, List.cons_append, hescape]
  exact behindTemplate_high hf hu _

/-- a character that means nothing is stepped over with all its bytes, if it is when it is a byte -/
theorem behindTemplate_step_bytewise (hf : f.IsMarked) {c : Char} {r : Text}
    (hstep : behindTemplate (f :: outer) (c :: bytewise r) = behindTemplate (f :: outer) (bytewise r)) :
    behindTemplate (f :: outer) (bytewise (c :: r)) = behindTemplate (f :: outer) (bytewise r) := by
  rcases Nat.lt_or_ge c.toNat 0x80 with hc | hc
  · rw [bytewise_cons_ascii hc, hstep]
  · rw [bytewise_cons]
    exact behindTemplate_high hf (isHigh_bytewise hc) _

theorem bytewise_openEnd (f : Frame) : f.bytewise.openEnd = f.openEnd.bytewise := by
  cases f <;> rfl

/-- **A template literal is read along its bytes.** -/
theorem behindTemplate_bytewise (hframes : ∀ f ∈ frames, f.IsMarked) (t : Text) :
    behindTemplate (frames.map Frame.bytewise) (bytewise t) =
      onBytes bytewise (behindTemplate frames t) := by
  fun_induction behindTemplate frames t with
  | case1 t =>
    rw [List.map_nil, behindTemplate]
    rfl
  | case2 f outer =>
    rw [bytewise_nil]
    exact congrArg Except.error (bytewise_openEnd f)
  | case3 start outer => rw [bytewise_ascii (by decide)]; rfl
  | case4 start outer c r ih =>
    rw [← ih hframes, List.map_cons, Frame.bytewise]
    refine behindTemplate_escaped_bytewise (f := .template (bytewise start)) trivial
      (fun c r => ?_) c r
    rw [behindTemplate, if_pos rfl]
  | case5 start outer r _ ih =>
    rw [← ih (List.forall_mem_cons.mp hframes).2, bytewise_cons_ascii (by decide), List.map_cons,
      Frame.bytewise, behindTemplate_letter (by decide) (fun h => absurd h (by decide)), if_pos rfl]
  | case6 start outer r _ _ ih =>
    rw [← ih (List.forall_mem_cons.mpr ⟨trivial, hframes⟩), bytewise_cons_ascii (by decide),
      bytewise_cons_ascii (by decide), List.map_cons, Frame.bytewise, behindTemplate,
      if_neg (by decide), if_neg (by decide), if_pos rfl]
    rfl
  | case7 start outer r hbrace _ _ ih =>
    have hhead : (bytewise r).head? ≠ some '{' := by
      rw [Ne, head?_bytewise (by decide)]
      intro hhead
      obtain ⟨r, rfl⟩ := List.head?_eq_some_iff.mp hhead
      exact hbrace r rfl
    rw [← ih hframes, bytewise_cons_ascii (by decide), List.map_cons, Frame.bytewise,
      behindTemplate_letter (by decide) fun _ => hhead, if_neg (by decide)]
  | case8 start outer c r hescape hmark hdollar ih =>
    rw [← ih hframes, List.map_cons, Frame.bytewise]
    refine behindTemplate_step_bytewise (f := .template (bytewise start)) trivial ?_
    rw [behindTemplate_letter hescape (absurd · hdollar), if_neg hmark]
  | case9 depth start outer r ih =>
    rw [← ih (List.forall_mem_cons.mpr ⟨trivial, (List.forall_mem_cons.mp hframes).2⟩),
      bytewise_cons_ascii (by decide), List.map_cons, Frame.bytewise, behindTemplate, if_pos rfl]
    rfl
  | case10 depth start outer r hdepth _ ih =>
    rw [← ih (List.forall_mem_cons.mp hframes).2, bytewise_cons_ascii (by decide), List.map_cons,
      Frame.bytewise, behindTemplate, if_neg (by decide), if_pos rfl, if_pos hdepth]
  | case11 depth start outer r hdepth _ ih =>
    rw [← ih (List.forall_mem_cons.mpr ⟨trivial, (List.forall_mem_cons.mp hframes).2⟩),
      bytewise_cons_ascii (by decide), List.map_cons, Frame.bytewise, behindTemplate,
      if_neg (by decide), if_pos rfl, if_neg hdepth]
    rfl
  | case12 depth start outer c r hopen hclose hquote ih =>
    have hc : c.toNat < 0x80 := by
      rcases hquote with rfl | rfl
      · decide
      · decide
    rw [← ih (List.forall_mem_cons.mpr ⟨hc, hframes⟩), bytewise_cons_ascii hc, List.map_cons,
      Frame.bytewise, behindTemplate, if_neg hopen, if_neg hclose, if_pos hquote, List.map_cons,
      Frame.bytewise, bytewise_cons_ascii hc]
    rfl
  | case13 depth start outer r hopen hclose hquote ih =>
    rw [← ih (List.forall_mem_cons.mpr ⟨trivial, hframes⟩), bytewise_cons_ascii (by decide),
      List.map_cons, Frame.bytewise, behindTemplate, if_neg hopen, if_neg hclose, if_neg hquote,
      if_pos rfl, List.map_cons, Frame.bytewise, bytewise_cons_ascii (by decide)]
    rfl
  | case14 depth start outer c r hopen hclose hquote hmark ih =>
    rw [← ih hframes, List.map_cons, Frame.bytewise]
    refine behindTemplate_step_bytewise (f := .substitution depth (bytewise start)) trivial ?_
    rw [behindTemplate, if_neg hopen, if_neg hclose, if_neg hquote, if_neg hmark]
  | case15 quote start outer => rw [bytewise_ascii (by decide)]; rfl
  | case16 quote start outer c r ih =>
    have hquote : quote.toNat < 0x80 := hframes _ List.mem_cons_self
    rw [← ih hframes, List.map_cons, Frame.bytewise]
    refine behindTemplate_escaped_bytewise (f := .string quote (bytewise start)) hquote
      (fun c r => ?_) c r
    rw [behindTemplate, if_pos rfl]
  | case17 quote start outer r _ =>
    rw [bytewise_cons_ascii (by decide), List.map_cons, Frame.bytewise,
      behindTemplate_string (by decide), if_pos rfl]
    rfl
  | case18 start outer c r hescape hline ih =>
    have hc : c.toNat < 0x80 := hframes _ List.mem_cons_self
    rw [← ih (List.forall_mem_cons.mp hframes).2, bytewise_cons_ascii hc, List.map_cons,
      Frame.bytewise, behindTemplate_string hescape, if_neg hline, if_pos rfl]
  | case19 quote start outer c r hescape hline hne ih =>
    have hquote : quote.toNat < 0x80 := hframes _ List.mem_cons_self
    rw [← ih hframes, List.map_cons, Frame.bytewise]
    refine behindTemplate_step_bytewise (f := .string quote (bytewise start)) hquote ?_
    rw [behindTemplate_string hescape, if_neg hline, if_neg hne]

end

/-! ## comments -/

section
variable {c : Char} {r t u : Text}

/-- the end of a comment, at its first character or behind it -/
theorem seek_comment_cons (c : Char) (r : Text) : seek (readFold? ['*', '/']) (c :: r) =
    if c = '*' ∧ r.head? = some '/' then some ([], ['*', '/'], r.tail)
    else (seek (readFold? ['*', '/']) r).map fun f => (c :: f.1, f.2) := by
  rw [seek]
  split
  · rename_i m rest hread
    obtain ⟨heq, rfl⟩ := readFold?_commentEnd.mp hread
    obtain ⟨rfl, rfl⟩ := List.cons.inj heq
    rw [if_pos ⟨rfl, rfl⟩]
    rfl
  · rename_i hread
    rw [if_neg]
    rintro ⟨rfl, hhead⟩
    obtain ⟨r, rfl⟩ := List.head?_eq_some_iff.mp hhead
    cases hread.symm.trans (readFold?_commentEnd.mpr ⟨rfl, rfl⟩)

theorem seek_comment_high (hu : IsHigh u) (r : Text) : seek (readFold? ['*', '/']) (u ++ r) =
    (seek (readFold? ['*', '/']) r).map fun f => (u ++ f.1, f.2) := by
  induction u with
  | nil => cases h : seek (readFold? ['*', '/']) r with
    | none => exact h
    | some f => exact h
  | cons c u ih =>
    obtain ⟨hc, hu⟩ := List.forall_mem_cons.mp hu
    rw [List.cons_append, seek_comment_cons, if_neg fun h => ne_of_high hc (by decide) h.1, ih hu,
      Option.map_map]
    rfl

/-- **A comment is read along its bytes.** -/
theorem seek_comment_bytewise (t : Text) : seek (readFold? ['*', '/']) (bytewise t) =
    (seek (readFold? ['*', '/']) t).map fun f => (bytewise f.1, f.2.1, bytewise f.2.2) := by
  induction t with
  | nil => rw [bytewise_nil]; rfl
  | cons c t ih =>
    have hprefix : (fun f : Text × Text × Text => (bytewise [c] ++ bytewise f.1, f.2.1, bytewise f.2.2)) =
        fun f => (bytewise (c :: f.1), f.2.1, bytewise f.2.2) :=
      funext fun f => congrArg (fun w => (w, f.2.1, bytewise f.2.2)) (bytewise_cons c f.1).symm
    rcases Nat.lt_or_ge c.toNat 0x80 with hc | hc
    · rw [bytewise_cons_ascii hc, seek_comment_cons, seek_comment_cons]
      by_cases hends : c = '*' ∧ t.head? = some '/'
      · obtain ⟨r, rfl⟩ := List.head?_eq_some_iff.mp hends.2
        rw [if_pos hends, bytewise_cons_ascii (by decide), if_pos ⟨hends.1, rfl⟩, Option.map_some,
          bytewise_nil]
        rfl
      · have hbytes : ¬ (c = '*' ∧ (bytewise t).head? = some '/') := fun h =>
          hends ⟨h.1, (head?_bytewise (by decide)).mp h.2⟩
        rw [if_neg hends, if_neg hbytes, ih, Option.map_map, Option.map_map]
        rw [bytewise_ascii hc] at hprefix
        exact congrArg (Option.map · _) hprefix
    · rw [bytewise_cons, seek_comment_high (isHigh_bytewise hc), ih, seek_comment_cons,
        if_neg fun h => ne_of_high hc (by decide) h.1, Option.map_map, Option.map_map]
      exact congrArg (Option.map · _) hprefix

/-! ## items -/

variable {before : Option Lexeme} {item : Item} {items : List Item} {m rest : Text}

def itemBytewise (x : Except OpenEnd (Item × Text)) : Except OpenEnd (Item × Text) :=
  onBytes (fun p => (p.1.bytewise, bytewise p.2)) x

theorem upTo_bytewise (kind : LexemeKind) (m rest : Text) :
    upTo kind (bytewise (m ++ rest)) (bytewise rest) =
      ((upTo kind (m ++ rest) rest).1.bytewise, bytewise (upTo kind (m ++ rest) rest).2) := by
  rw [bytewise_append, upTo_append, upTo_append]
  rfl

theorem contains_operandWords (t : Text) :
    operandWords.contains (bytewise t) = operandWords.contains t := by
  have hascii : ∀ w ∈ operandWords, ∀ c ∈ w, c.toNat < 0x80 := by decide
  rw [Bool.eq_iff_iff, List.contains_iff_mem, List.contains_iff_mem]
  refine ⟨fun h => ?_, fun h => ?_⟩
  · rwa [← (bytewise_eq_iff (hascii _ h)).mp rfl] at h
  · rwa [(bytewise_eq_iff (hascii _ h)).mpr rfl]

theorem operandMayFollow_bytewise (before : Option Lexeme) :
    operandMayFollow (before.map Lexeme.bytewise) = operandMayFollow before := by
  cases before with
  | none => rfl
  | some l =>
    unfold operandMayFollow
    rw [Option.map_some, Lexeme.bytewise]
    dsimp only
    rw [contains_operandWords]
    rcases List.eq_nil_or_concat l.text with hnil | ⟨t, c, htext⟩
    · rw [hnil, bytewise_nil]
    · rw [List.concat_eq_append] at htext
      obtain ⟨d, hlast, hascii, hhigh⟩ := getLast?_bytewise htext.symm
      rw [hlast, htext, List.getLast?_concat]
      rcases Nat.lt_or_ge c.toNat 0x80 with hc | hc
      · rw [hascii hc]
      · have hclose : ∀ c : Char, 0x80 ≤ c.toNat →
            (c == ')' || c == ']' || c == '}' || c == '"' || c == '\'' || c == '\x60') = false := by
          intro c hc
          simp only [Bool.or_eq_false_iff, beq_eq_false_iff_ne]
          exact ⟨⟨⟨⟨⟨ne_of_high hc (by decide), ne_of_high hc (by decide)⟩, ne_of_high hc (by decide)⟩,
            ne_of_high hc (by decide)⟩, ne_of_high hc (by decide)⟩, ne_of_high hc (by decide)⟩
        dsimp only
        rw [hclose c hc, hclose d (hhigh hc), highAlike_isScriptWord d c (hhigh hc) hc]

theorem slashItem_bytewise (before : Option Lexeme) (r : Text) :
    slashItem (before.map Lexeme.bytewise) ('/' :: bytewise r) (bytewise r) =
      itemBytewise (slashItem before ('/' :: r) r) := by
  have hslash : ∀ t, bytewise ('/' :: t) = '/' :: bytewise t := bytewise_cons_ascii (by decide)
  by_cases hline : r.head? = some '/'
  · obtain ⟨t, rfl⟩ := List.head?_eq_some_iff.mp hline
    rw [hslash, slashItem, slashItem, (takeWhile_bytewise (highAlike_ne (by decide)) t).2]
    rfl
  by_cases hcomment : r.head? = some '*'
  · obtain ⟨t, rfl⟩ := List.head?_eq_some_iff.mp hcomment
    rw [bytewise_cons_ascii (by decide), slashItem, slashItem, seek_comment_bytewise]
    cases hseek : seek (readFold? ['*', '/']) t with
    | none =>
      rw [← bytewise_cons_ascii (by decide), ← hslash]
      rfl
    | some f =>
      obtain ⟨inside, mark, rest⟩ := f
      have hcontains : (bytewise inside).contains '\n' = inside.contains '\n' := by
        rw [Bool.eq_iff_iff, List.contains_iff_mem, List.contains_iff_mem, mem_bytewise (by decide)]
      dsimp only [Option.map_some]
      rw [hcontains]
      rfl
  have hhead : ∀ c ∈ r.head?, c ≠ '/' ∧ c ≠ '*' := fun c hc =>
    ⟨fun h => hline (h ▸ hc), fun h => hcomment (h ▸ hc)⟩
  have hbytes : ∀ c ∈ (bytewise r).head?, c ≠ '/' ∧ c ≠ '*' := fun c hc =>
    ⟨fun h => hline ((head?_bytewise (by decide)).mp (h ▸ hc)),
      fun h => hcomment ((head?_bytewise (by decide)).mp (h ▸ hc))⟩
  rw [slashItem_of_head hhead, slashItem_of_head hbytes, operandMayFollow_bytewise]
  split
  · rw [regexRest?_bytewise]
    cases hread : regexRest? false r with
    | none =>
      rw [← hslash]
      rfl
    | some p =>
      obtain ⟨w, rest⟩ := p
      obtain ⟨-, -, -, rfl, -⟩ := regexRest?_eq_some_iff.mp hread
      rw [← hslash]
      exact congrArg Except.ok (upTo_bytewise .regex ('/' :: w) rest)
  · exact congrArg (fun w => Except.ok (Item.lexeme ⟨_, w⟩, bytewise r)) (bytewise_ascii (by decide)).symm

theorem stringItem_bytewise {quote : Char} (hquote : quote.toNat < 0x80) (r : Text) :
    stringItem quote (bytewise (quote :: r)) (bytewise r) =
      itemBytewise (stringItem quote (quote :: r) r) := by
  rw [stringItem, stringItem, quotedRest?_bytewise hquote]
  cases hread : quotedRest? quote r with
  | none => rfl
  | some p =>
    obtain ⟨m, rest⟩ := p
    obtain ⟨rfl, -⟩ := stringRest_of_read hread
    exact congrArg Except.ok (upTo_bytewise .string (quote :: m) rest)

/-- the item that a template literal is -/
theorem templateItem_bytewise (r : Text) :
    ((behindTemplate [.template (bytewise ('\x60' :: r))] (bytewise r)).map fun rest =>
      upTo .template (bytewise ('\x60' :: r)) rest) =
    itemBytewise ((behindTemplate [.template ('\x60' :: r)] r).map fun rest =>
      upTo .template ('\x60' :: r) rest) := by
  have hread := @behindTemplate_bytewise [.template ('\x60' :: r)]
    (List.forall_mem_singleton.mpr trivial) r
  rw [List.map_singleton, Frame.bytewise] at hread
  rw [hread]
  cases hread : behindTemplate [.template ('\x60' :: r)] r with
  | error e => rfl
  | ok rest =>
    obtain ⟨m, rfl, -⟩ := behindTemplate_eq_ok_iff.mp hread
    exact congrArg Except.ok (upTo_bytewise .template ('\x60' :: m) rest)

theorem itemAt_word (h : isScriptWord c = true) (before : Option Lexeme) (r : Text) :
    itemAt before c r = .ok (.lexeme ⟨.word, (c :: r).takeWhile isScriptWord⟩,
      (c :: r).dropWhile isScriptWord) := by
  obtain ⟨hgap, hline, hslash, hquote, hmark⟩ := ne_of_isScriptWord h
  rw [itemAt, if_neg (Bool.eq_false_iff.mp hgap), if_neg hline, if_neg hslash, if_neg hquote,
    if_neg hmark, if_pos h, List.takeWhile_cons_of_pos h, List.dropWhile_cons_of_pos h]

/-- **The item at the front of the bytes is what the item at the front is, byte by byte.** -/
theorem itemAt_bytewise (before : Option Lexeme) (c : Char) (r : Text) :
    ∃ d s, bytewise (c :: r) = d :: s ∧
      itemAt (before.map Lexeme.bytewise) d s = itemBytewise (itemAt before c r) := by
  cases hword : isScriptWord c with
  | true =>
    obtain ⟨d, u, hbytes, -⟩ := exists_bytewise c
    have hd : isScriptWord d = true :=
      (highAlike_isScriptWord.bytewise c d (hbytes ▸ List.mem_cons_self)).trans hword
    have hcons : bytewise (c :: r) = d :: (u ++ bytewise r) := by
      rw [bytewise_cons, hbytes]
      rfl
    obtain ⟨htake, hdrop⟩ := takeWhile_bytewise highAlike_isScriptWord (c :: r)
    rw [hcons] at htake hdrop
    refine ⟨d, u ++ bytewise r, hcons, ?_⟩
    rw [itemAt_word hd, itemAt_word hword, htake, hdrop]
    rfl
  | false =>
    have hc : c.toNat < 0x80 := by
      refine Nat.lt_of_not_le fun hc => ?_
      rw [isScriptWord, decide_eq_true hc, Bool.or_true] at hword
      exact nomatch hword
    have hcons := bytewise_cons_ascii hc
    refine ⟨c, bytewise r, hcons r, ?_⟩
    unfold itemAt
    split
    · rfl
    · split
      · rfl
      · split
        · rename_i hslash
          subst hslash
          exact slashItem_bytewise before r
        · split
          · rw [← hcons]
            exact stringItem_bytewise hc r
          · split
            · rename_i hmark
              subst hmark
              rw [← hcons]
              exact templateItem_bytewise r
            · rw [if_neg (Bool.eq_false_iff.mp hword), if_neg (Bool.eq_false_iff.mp hword)]
              exact congrArg (fun w => Except.ok (Item.lexeme ⟨_, w⟩, bytewise r))
                (bytewise_ascii hc).symm

theorem lastLexeme_bytewise (before : Option Lexeme) (item : Item) :
    lastLexeme (before.map Lexeme.bytewise) item.bytewise =
      (lastLexeme before item).map Lexeme.bytewise := by
  cases item <;> rfl

/-- **Reading the bytes of a script gives the bytes of what is read**, a literal or comment left open
included. -/
theorem itemsFrom_bytewise (before : Option Lexeme) (t : Text) :
    itemsFrom (before.map Lexeme.bytewise) 0 (bytewise t) =
      onBytes (List.map Item.bytewise) (itemsFrom before 0 t) := by
  induction hn : t.length using Nat.strongRecOn generalizing before t with
  | _ n ih =>
    cases t with
    | nil =>
      rw [bytewise_nil]
      rfl
    | cons c r =>
      obtain ⟨d, s, hbytes, hat⟩ := itemAt_bytewise before c r
      rw [hbytes]
      cases hread : itemAt before c r with
      | error e =>
        rw [hread] at hat
        rw [itemsFrom, hat, itemsFrom, hread]
        rfl
      | ok p =>
        obtain ⟨item, rest⟩ := p
        rw [hread] at hat
        obtain ⟨m, -, rfl, -⟩ := exists_part hread
        have hrest := ih rest.length
          (by rw [← hn, List.length_cons, List.length_append]; omega) (lastLexeme before item) rest rfl
        rw [itemsFrom_step hread, itemsFrom_step hat, lastLexeme_bytewise, hrest]
        cases itemsFrom (lastLexeme before item) 0 rest with
        | error e => rfl
        | ok items => rfl

/-! ## places -/

/-- the reader, behind the lexeme `before` and in front of a text, gets to another place: the text
behind it, and the lexeme read last -/
inductive Reaches : Option Lexeme → Text → Option Lexeme → Text → Prop
  | here {before : Option Lexeme} {t : Text} : Reaches before t before t
  | step {before last : Option Lexeme} {c : Char} {r rest u : Text} {item : Item}
      (hat : itemAt before c r = .ok (item, rest))
      (h : Reaches (lastLexeme before item) rest last u) : Reaches before (c :: r) last u

theorem suffix_of_reaches {last : Option Lexeme} (h : Reaches before t last u) : ∃ m, t = m ++ u := by
  induction h with
  | here => exact ⟨[], rfl⟩
  | @step before last c r rest u item hat _ ih =>
    obtain ⟨m, -, rfl, -⟩ := exists_part hat
    obtain ⟨m', rfl⟩ := ih
    exact ⟨c :: (m ++ m'), by rw [List.cons_append, List.append_assoc]⟩

/-- the places reached along the bytes are those reached along the characters -/
theorem reaches_of_bytewise {last : Option Lexeme} {v : Text}
    (h : Reaches (before.map Lexeme.bytewise) (bytewise t) last v) :
    ∃ last' u, Reaches before t last' u ∧ last = last'.map Lexeme.bytewise ∧ v = bytewise u := by
  generalize hbefore : before.map Lexeme.bytewise = bytesBefore at h
  generalize ht : bytewise t = bytes at h
  induction h generalizing before t with
  | here => exact ⟨before, t, .here, hbefore.symm, ht.symm⟩
  | @step bytesBefore last d s rest v item hat h ih =>
    cases t with
    | nil => exact nomatch bytewise_nil.symm.trans ht
    | cons c r =>
      obtain ⟨d', s', hbytes, hread⟩ := itemAt_bytewise before c r
      obtain ⟨rfl, rfl⟩ := List.cons.inj (hbytes.symm.trans ht)
      subst hbefore
      rw [hat] at hread
      cases hread' : itemAt before c r with
      | error e =>
        rw [hread'] at hread
        exact nomatch hread
      | ok p =>
        obtain ⟨item', rest'⟩ := p
        rw [hread'] at hread
        cases hread
        obtain ⟨last', u, hreaches, hlast, hv⟩ :=
          ih (lastLexeme_bytewise before item').symm rfl
        exact ⟨last', u, .step hread' hreaches, hlast, hv⟩

/-- **The places reached along the bytes are boundaries of the script**, and so are those behind ASCII
characters next to them. -/
theorem isBoundary_of_reaches {last : Option Lexeme} {v : Text}
    (h : Reaches (before.map Lexeme.bytewise) (bytewise t) last (m ++ v))
    (hm : ∀ c ∈ m, c.toNat < 0x80) : IsBoundary t (size t - v.length) := by
  obtain ⟨last', u, hreaches, -, heq⟩ := reaches_of_bytewise h
  obtain ⟨front, rfl⟩ := suffix_of_reaches hreaches
  -- the ASCII characters are characters of the script
  obtain ⟨w, rfl, rfl⟩ : ∃ w, u = m ++ w ∧ v = bytewise w := by
    clear h hreaches
    induction m generalizing u with
    | nil => exact ⟨u, rfl, heq⟩
    | cons c m ih =>
      obtain ⟨hc, hm⟩ := List.forall_mem_cons.mp hm
      obtain ⟨u, rfl⟩ := List.head?_eq_some_iff.mp ((head?_bytewise hc).mp (by rw [← heq]; rfl))
      rw [bytewise_cons_ascii hc] at heq
      obtain ⟨w, rfl, rfl⟩ := ih hm u (List.cons.inj heq).2
      exact ⟨w, rfl, rfl⟩
  rw [← List.append_assoc, length_bytewise, size_append (front ++ m), Nat.add_sub_cancel]
  exact isBoundary_size (front ++ m) w

end
end SiteBundle
