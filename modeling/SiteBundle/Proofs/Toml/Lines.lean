import SiteBundle.Proofs.Toml.Strings

/-!
# Lines, written and read

A document is written as a row of lines: headers of tables, and plain values under single keys.  A plain
value is a string, a boolean or an array of strings (`Plain`).  Keys, values and lines are read back one
after the other, each with the text that follows; but a header is refused when its path has more parts
than the reader takes (`Line.Fits`).

* `simpleKey?_keyText`, `keyParts?_pathText`   a key, and keys with dots between them;
* `value?_valueText`         a plain value at the end of its line;
* `statements?_lines`        a row of lines.
-/

namespace SiteBundle.Toml

open Text

/-! ## keys -/

/-- the characters that a key can be written with first -/
def OpensKey (c : Char) : Prop := isBareKeyChar c = true ∨ c = '"' ∨ c = '\''

theorem OpensKey.ne {c d : Char} (h : OpensKey c) (hd : isBareKeyChar d = false) (hquote : d ≠ '"')
    (hsingle : d ≠ '\'') : c ≠ d := by
  rintro rfl
  rcases h with h | h | h
  · exact nomatch h.symm.trans hd
  · exact hquote h
  · exact hsingle h

theorem keyText_opens (key : Text) : ∃ c r, keyText key = c :: r ∧ OpensKey c := by
  unfold keyText
  dsimp only
  split
  · next hbare =>
    rw [Bool.and_eq_true, List.all_eq_true] at hbare
    cases key with
    | nil => exact nomatch hbare.1
    | cons c r => exact ⟨c, r, rfl, .inl (hbare.2 c List.mem_cons_self)⟩
  split
  · exact ⟨'"', _, rfl, .inr (.inl rfl)⟩
  split
  · exact ⟨'\'', _, rfl, .inr (.inr rfl)⟩
  · exact ⟨'"', _, rfl, .inr (.inl rfl)⟩

section
variable {rest : Text}

theorem simpleKey?_basicString (key rest : Text) :
    simpleKey? (basicString key ++ rest) = some (key, rest) := by
  show basicRest? ((basicString key ++ rest).length + 1)
    ((basicInside false 0 key ++ ['"']) ++ rest) = _
  rw [List.append_assoc]
  refine basicRest?_inside key rest ?_
  have := length_le_basicInside false 0 key
  unfold basicString
  simp only [List.length_append, List.length_cons]
  omega

/-- a key is read back where no character of a bare key comes next -/
theorem simpleKey?_keyText (key : Text) (h : ∀ c ∈ rest.head?, isBareKeyChar c = false) :
    simpleKey? (keyText key ++ rest) = some (key, rest) := by
  unfold keyText
  dsimp only
  split
  · next hbare =>
    rw [Bool.and_eq_true, List.all_eq_true, Bool.not_eq_true', List.isEmpty_eq_false_iff] at hbare
    have htake : (key ++ rest).takeWhile isBareKeyChar = key ∧
        (key ++ rest).dropWhile isBareKeyChar = rest := by
      rw [List.takeWhile_append_of_pos hbare.2, List.dropWhile_append_of_pos hbare.2]
      cases rest with
      | nil => exact ⟨List.append_nil _, rfl⟩
      | cons c r =>
        have hc : ¬ isBareKeyChar c = true := by simpa using h c rfl
        rw [List.takeWhile_cons_of_neg hc, List.dropWhile_cons_of_neg hc]
        exact ⟨List.append_nil _, rfl⟩
    have hfirst : ∀ q r, isBareKeyChar q = false → key ++ rest ≠ q :: r := by
      intro q r hq heq
      cases key with
      | nil => exact hbare.1 rfl
      | cons c k =>
        have hc := hbare.2 c List.mem_cons_self
        rw [(List.cons.inj heq).1] at hc
        exact nomatch hc.symm.trans hq
    unfold simpleKey?
    split
    · next heq => exact absurd heq (hfirst _ _ (by decide))
    · next heq => exact absurd heq (hfirst _ _ (by decide))
    · dsimp only
      rw [htake.1, htake.2, if_neg (by simpa using hbare.1)]
  split
  · exact simpleKey?_basicString key rest
  split
  · next hliteral =>
    simp only [Bool.and_eq_true, Bool.not_eq_true', List.any_eq_false, List.contains_eq_mem,
      decide_eq_false_iff_not, Bool.or_eq_true, not_or, beq_iff_eq, Bool.not_eq_true] at hliteral
    show literalRest? ((key ++ ['\'']) ++ rest) = _
    rw [List.append_assoc]
    refine literalRest?_inside rest fun c hc => ⟨?_, ?_⟩
    · rintro rfl
      exact hliteral.2 hc
    · exact isAllowed_of_not_needsCode (hliteral.1 c hc).1 (hliteral.1 c hc).2
  · exact simpleKey?_basicString key rest

theorem skipSpace_cons {c : Char} (h : isSpace c = false) (r : Text) : skipSpace (c :: r) = c :: r :=
  List.dropWhile_cons_of_neg (by simpa using h)

theorem OpensKey.not_isSpace {c : Char} (h : OpensKey c) : isSpace c = false := by
  have h1 := h.ne (d := ' ') (by decide) (by decide) (by decide)
  have h2 := h.ne (d := '\t') (by decide) (by decide) (by decide)
  simp [isSpace, h1, h2]

theorem pathText_cons_cons (k l : Text) (path : List Text) :
    pathText (k :: l :: path) = keyText k ++ '.' :: pathText (l :: path) :=
  List.append_assoc _ _ _

theorem pathText_opens {path : List Text} (hne : path ≠ []) :
    ∃ c r, pathText path = c :: r ∧ OpensKey c := by
  match path, hne with
  | [k], _ => exact keyText_opens k
  | k :: l :: path, _ =>
    obtain ⟨c, r, hk, hc⟩ := keyText_opens k
    exact ⟨c, _, by rw [pathText_cons_cons, hk]; rfl, hc⟩

/-- keys with dots between them are read back, with the text behind the white space that follows -/
theorem keyParts?_pathText {path : List Text} (hne : path ≠ []) {rest' : Text}
    (hbare : ∀ c ∈ rest.head?, isBareKeyChar c = false) (hskip : skipSpace rest = rest')
    (hdot : rest'.head? ≠ some '.') {fuel : Nat} (h : path.length ≤ fuel) :
    keyParts? fuel (pathText path ++ rest) = some (path, rest') := by
  induction path generalizing fuel with
  | nil => exact absurd rfl hne
  | cons k path ih =>
    obtain ⟨n, rfl⟩ := Nat.exists_eq_add_of_le' (Nat.le_trans (Nat.succ_pos path.length) h)
    obtain ⟨c, r, hk, hc⟩ := keyText_opens k
    have hread : ∀ u, (∀ c ∈ u.head?, isBareKeyChar c = false) →
        simpleKey? (skipSpace (keyText k ++ u)) = some (k, u) := by
      intro u hu
      have hspace : skipSpace (keyText k ++ u) = keyText k ++ u := by
        rw [hk]
        exact skipSpace_cons hc.not_isSpace _
      rw [hspace]
      exact simpleKey?_keyText k hu
    cases path with
    | nil =>
      show keyParts? (n + 1) (keyText k ++ rest) = _
      rw [keyParts?, hread rest hbare]
      dsimp only [Option.bind_eq_bind, Option.bind_some]
      rw [hskip]
      split
      · exact absurd rfl hdot
      · rfl
    | cons l path =>
      rw [pathText_cons_cons, List.append_assoc, List.cons_append, keyParts?,
        hread _ (by rintro c ⟨rfl⟩; rfl)]
      show (keyParts? n (pathText (l :: path) ++ rest)).bind _ = _
      rw [ih (List.cons_ne_nil _ _) (Nat.le_of_succ_le_succ h)]
      rfl

theorem length_le_pathText (path : List Text) : path.length ≤ (pathText path).length := by
  induction path with
  | nil => exact Nat.zero_le _
  | cons k path ih =>
    obtain ⟨c, r, hk, -⟩ := keyText_opens k
    cases path with
    | nil =>
      show 1 ≤ (keyText k).length
      rw [hk]
      exact Nat.succ_le_succ (Nat.zero_le _)
    | cons l path =>
      rw [pathText_cons_cons, hk]
      simp only [List.length_append, List.length_cons] at ih ⊢
      omega

/-- a dotted key is read back if it has no more parts than the reader takes -/
theorem dottedKey?_pathText {path : List Text} (hne : path ≠ []) {rest' : Text}
    (hbare : ∀ c ∈ rest.head?, isBareKeyChar c = false) (hskip : skipSpace rest = rest')
    (hdot : rest'.head? ≠ some '.') {fuel : Nat} (h : path.length ≤ fuel) :
    dottedKey? fuel (pathText path ++ rest) =
      if path.length ≤ maxKeyParts then some (path, rest') else none := by
  unfold dottedKey?
  rw [keyParts?_pathText hne hbare hskip hdot h, Option.filter_some]
  simp only [decide_eq_true_eq]

end

/-! ## blanks -/

/-- there is nothing to skip at the front -/
def Solid (t : Text) : Prop := ∀ c ∈ t.head?, isSpace c = false ∧ c ≠ '#' ∧ c ≠ '\n' ∧ c ≠ '\r'

theorem skipLines?_solid {t : Text} (h : Solid t) (fuel : Nat) : skipLines? fuel t = some t := by
  cases fuel with
  | zero => rfl
  | succ fuel =>
    cases t with
    | nil => rfl
    | cons c r =>
      obtain ⟨hspace, hcomment, hlf, hcr⟩ := h c rfl
      have hskip : skipComment? (c :: r) = some (c :: r) := by
        unfold skipComment?
        split
        · next heq => exact absurd (List.cons.inj heq).1 hcomment
        · rfl
      rw [skipLines?, skipSpace_cons hspace, hskip]
      dsimp only [Option.bind_eq_bind, Option.bind_some]
      rw [skipLineEnd?_eq_none hlf hcr]

theorem skipLines?_newline {t : Text} (h : Solid t) (fuel : Nat) :
    skipLines? (fuel + 1) ('\n' :: t) = some t :=
  skipLines?_solid h fuel

/-- the items of an array stand on lines of their own, four spaces from the margin -/
theorem skipLines?_indent {t : Text} (h : Solid t) (fuel : Nat) :
    skipLines? (fuel + 2) ("\n    ".toList ++ t) = some t := by
  exact skipLines?_solid h (fuel + 1)

/-! ## values -/

/-- a string, a boolean or an array of strings -/
inductive Plain : Toml → Prop where
  | string (t : Text) : Plain (.string t)
  | boolean (b : Bool) : Plain (.boolean b)
  | texts (ts : List Text) : Plain (.array (ts.map .string))

theorem stringText_opens (t : Text) : ∃ c r, stringText t = c :: r ∧ (c = '"' ∨ c = '\'') := by
  unfold stringText
  dsimp only
  repeat' split
  · exact ⟨'"', _, rfl, .inl rfl⟩
  · exact ⟨'\'', _, rfl, .inr rfl⟩
  · exact ⟨'"', _, rfl, .inl rfl⟩
  · exact ⟨'\'', _, rfl, .inr rfl⟩
  · exact ⟨'"', _, rfl, .inl rfl⟩
  · exact ⟨'"', _, rfl, .inl rfl⟩

theorem Plain.opens {v : Toml} (h : Plain v) : ∃ c r, valueText v = c :: r ∧ isSpace c = false := by
  cases h with
  | string t =>
    obtain ⟨c, r, ht, hc⟩ := stringText_opens t
    refine ⟨c, r, ht, ?_⟩
    rcases hc with rfl | rfl
    · rfl
    · rfl
  | boolean b =>
    cases b with
    | true => exact ⟨'t', _, rfl, rfl⟩
    | false => exact ⟨'f', _, rfl, rfl⟩
  | texts ts =>
    match ts with
    | [] => exact ⟨'[', _, rfl, rfl⟩
    | [t] => exact ⟨'[', _, rfl, rfl⟩
    | t :: u :: ts => exact ⟨'[', _, rfl, rfl⟩

theorem solid_stringText (t rest : Text) : Solid (stringText t ++ rest) := by
  obtain ⟨c, r, ht, hc⟩ := stringText_opens t
  rw [ht]
  rintro d ⟨rfl⟩
  rcases hc with rfl | rfl
  · decide
  · decide

section
variable {rest : Text} {fuel : Nat}

theorem value?_stringText (t : Text) (h : Unquoted rest) (depth : Nat) :
    value? (fuel + 1) depth (stringText t ++ rest) = some (.string t, rest) := by
  have hread := string?_stringText t h
  obtain ⟨c, r, ht, hc⟩ := stringText_opens t
  rw [ht] at hread ⊢
  rcases hc with rfl | rfl
  · show (string? (('"' :: r) ++ rest)).map _ = _
    rw [hread]
    rfl
  · show (string? (('\'' :: r) ++ rest)).map _ = _
    rw [hread]
    rfl

theorem value?_boolean (b : Bool) (depth : Nat) :
    value? (fuel + 1) depth (valueText (.boolean b) ++ '\n' :: rest) =
      some (.boolean b, '\n' :: rest) := by
  cases b <;> cases depth <;> rfl

/-- an item of an array, with what is read from where it ends -/
theorem items?_stringText {u t r : Text} {e : Char} (he : e = ']' ∨ e = ',')
    (hskip : skipLines? (u.length + 1) u = some (stringText t ++ e :: r)) (depth : Nat) :
    items? (fuel + 2) depth u = if e = ']' then some ([.string t], r)
      else (items? (fuel + 1) depth r).bind fun p => some (.string t :: p.1, p.2) := by
  have hquote : Unquoted (e :: r) := by
    rcases he with rfl | rfl
    · exact unquoted_cons (by decide) (by decide) r
    · exact unquoted_cons (by decide) (by decide) r
  have hread : value? (fuel + 1) depth (stringText t ++ e :: r) = some (.string t, e :: r) :=
    value?_stringText t hquote depth
  obtain ⟨c, s, ht, hc⟩ := stringText_opens t
  rw [ht] at hread hskip
  have hclose : c ≠ ']' := by
    rcases hc with rfl | rfl
    · decide
    · decide
  rw [items?, hskip]
  dsimp only [Option.bind_eq_bind, Option.bind_some]
  split
  · next heq => exact absurd (List.cons.inj heq).1 hclose
  rw [hread]
  rcases he with rfl | rfl
  · rfl
  · rfl

/-- the items of an array that runs over several lines -/
theorem items?_itemsText (ts : List Text) (depth : Nat) (h : ts.length ≤ fuel) :
    items? (fuel + 1) depth (itemsText (ts.map .string) ++ '\n' :: ']' :: rest) =
      some (ts.map .string, rest) := by
  induction ts generalizing fuel with
  | nil => rfl
  | cons t ts ih =>
    obtain ⟨n, rfl⟩ := Nat.exists_eq_add_of_le' (Nat.le_trans (Nat.succ_pos ts.length) h)
    have hskip := skipLines?_indent
      (solid_stringText t (',' :: (itemsText (ts.map .string) ++ '\n' :: ']' :: rest)))
    have htext : itemsText ((t :: ts).map .string) ++ '\n' :: ']' :: rest =
        "\n    ".toList ++
          (stringText t ++ ',' :: (itemsText (ts.map .string) ++ '\n' :: ']' :: rest)) := by
      show (("\n    ".toList ++ stringText t) ++ ',' :: itemsText (ts.map .string)) ++ _ = _
      rw [List.append_assoc, List.append_assoc]
      rfl
    rw [htext, items?_stringText (.inr rfl) (hskip _)]
    show (items? (n + 1) depth (itemsText (ts.map .string) ++ '\n' :: ']' :: rest)).bind _ = _
    rw [ih (Nat.le_of_succ_le_succ h)]
    rfl

theorem length_le_itemsText (vs : List Toml) : vs.length ≤ (itemsText vs).length := by
  induction vs with
  | nil => exact Nat.zero_le _
  | cons v vs ih =>
    rw [itemsText]
    simp only [List.length_append, List.length_cons]
    omega

/-- a plain value is read back -/
theorem value?_valueText {v : Toml} (hv : Plain v) (h : (valueText v).length ≤ fuel) (depth : Nat) :
    value? (fuel + 2) (depth + 1) (valueText v ++ '\n' :: rest) = some (v, '\n' :: rest) := by
  cases hv with
  | string t => exact value?_stringText t (unquoted_cons (by decide) (by decide) _) _
  | boolean b => exact value?_boolean b _
  | texts ts =>
    match ts, h with
    | [], _ => rfl
    | [t], h =>
      obtain ⟨n, rfl⟩ := Nat.exists_eq_add_of_le' (Nat.le_trans (Nat.succ_pos _) h)
      have htext : valueText (.array ([t].map .string)) ++ '\n' :: rest =
          '[' :: (stringText t ++ ']' :: '\n' :: rest) :=
        congrArg ('[' :: ·) (List.append_assoc (stringText t) [']'] _)
      rw [htext]
      show (items? (n + 2) depth _).map _ = _
      rw [items?_stringText (.inl rfl) (skipLines?_solid (solid_stringText t _) _)]
      rfl
    | t :: u :: ts, h =>
      have htext : valueText (.array ((t :: u :: ts).map .string)) ++ '\n' :: rest =
          '[' :: (itemsText ((t :: u :: ts).map .string) ++ '\n' :: ']' :: '\n' :: rest) :=
        congrArg ('[' :: ·) (List.append_assoc (itemsText ((t :: u :: ts).map .string)) ['\n', ']'] _)
      have hlength : (t :: u :: ts).length ≤ fuel := by
        have := length_le_itemsText ((t :: u :: ts).map .string)
        have hvalue : valueText (.array ((t :: u :: ts).map .string)) =
            '[' :: (itemsText ((t :: u :: ts).map .string) ++ ['\n', ']']) := rfl
        rw [hvalue] at h
        simp only [List.length_cons, List.length_append, List.length_map] at h this ⊢
        omega
      rw [htext]
      show (items? (fuel + 1) depth _).map _ = _
      rw [items?_itemsText _ _ hlength]
      rfl

end

/-! ## lines -/

/-- what is written on lines of its own: the header of a table, or a value under a key -/
inductive Line where
  | header (path : List Text)
  | entry (key : Text) (v : Toml)

namespace Line

def text : Line → Text
  | .header path => "\n[".toList ++ pathText path ++ "]\n".toList
  | .entry key v => keyText key ++ " = ".toList ++ valueText v ++ ['\n']

def statement : Line → Statement
  | .header path => .header path
  | .entry key v => .assignment [key] v

/-- lines that occur: headers name a table, and the values are plain -/
inductive Written : Line → Prop where
  | header {path : List Text} (h : path ≠ []) : Written (.header path)
  | entry (key : Text) {v : Toml} (h : Plain v) : Written (.entry key v)

/-- whether the reader takes the path of a header -/
def Fits : Line → Prop
  | .header path => path.length ≤ maxKeyParts
  | .entry _ _ => True

instance (l : Line) : Decidable l.Fits :=
  match l with
  | .header path => inferInstanceAs (Decidable (path.length ≤ maxKeyParts))
  | .entry _ _ => inferInstanceAs (Decidable True)

end Line

section
variable {rest : Text}

theorem statement?_header {path : List Text} (hne : path ≠ []) (rest : Text) :
    statement? ('[' :: (pathText path ++ ']' :: '\n' :: rest)) =
      if path.length ≤ maxKeyParts then some (.header path, rest) else none := by
  have hlength : path.length ≤ ('[' :: (pathText path ++ ']' :: '\n' :: rest)).length + 1 := by
    have := length_le_pathText path
    simp only [List.length_cons, List.length_append]
    omega
  have hbare : ∀ c ∈ (']' :: '\n' :: rest).head?, isBareKeyChar c = false := by
    rintro c ⟨rfl⟩
    rfl
  have hread := dottedKey?_pathText hne hbare rfl nofun hlength
  obtain ⟨c, r, hpath, hc⟩ := pathText_opens hne
  have hopen : c ≠ '[' := hc.ne (by decide) (by decide) (by decide)
  unfold statement?
  dsimp only
  split
  · next heq =>
    rw [hpath] at heq
    exact absurd (List.cons.inj (List.cons.inj heq).2).1 hopen
  · next heq =>
    obtain rfl := (List.cons.inj heq).2
    rw [hread]
    split
    · rfl
    · rfl
  · next h => exact absurd rfl (h _)

theorem statement?_entry (key : Text) {v : Toml} (hv : Plain v) (rest : Text) :
    statement? (keyText key ++ " = ".toList ++ valueText v ++ '\n' :: rest) =
      some (.assignment [key] v, rest) := by
  have htext : keyText key ++ " = ".toList ++ valueText v ++ '\n' :: rest =
      pathText [key] ++ ' ' :: '=' :: ' ' :: (valueText v ++ '\n' :: rest) := by
    rw [List.append_assoc, List.append_assoc]
    rfl
  have hspace : skipSpace (' ' :: (valueText v ++ '\n' :: rest)) = valueText v ++ '\n' :: rest := by
    obtain ⟨c, r, hvalue, hc⟩ := hv.opens
    rw [hvalue]
    exact skipSpace_cons hc _
  generalize hfuel : (keyText key ++ " = ".toList ++ valueText v ++ '\n' :: rest).length = n
  have hlength : (valueText v).length ≤ 2 * n := by
    simp only [List.length_append] at hfuel
    omega
  have hvalue : value? (2 * (n + 1)) maxDepth (valueText v ++ '\n' :: rest) =
      some (v, '\n' :: rest) := value?_valueText hv hlength 78
  have hbare : ∀ c ∈ (' ' :: '=' :: ' ' :: (valueText v ++ '\n' :: rest)).head?,
      isBareKeyChar c = false := by
    rintro c ⟨rfl⟩
    rfl
  have hread := dottedKey?_pathText (List.cons_ne_nil key []) hbare rfl nofun
    (Nat.succ_le_succ (Nat.zero_le n))
  obtain ⟨c, r, hkey, hc⟩ := keyText_opens key
  have hopen : c ≠ '[' := hc.ne (by decide) (by decide) (by decide)
  unfold statement?
  rw [hfuel]
  dsimp only
  split
  · next heq =>
    rw [hkey] at heq
    exact absurd (List.cons.inj heq).1 hopen
  · next heq =>
    rw [hkey] at heq
    exact absurd (List.cons.inj heq).1 hopen
  · rw [htext, hread]
    show (value? (2 * (n + 1)) maxDepth (skipSpace (' ' :: (valueText v ++ '\n' :: rest)))).bind _ = _
    rw [hspace, hvalue]
    rfl

theorem statements?_skip {t u : Text} (hskip : skipLines? (t.length + 1) t = some u) (hne : u ≠ [])
    (fuel : Nat) :
    statements? (fuel + 1) t =
      (statement? u).bind fun p => (statements? fuel p.2).bind fun others => some (p.1 :: others) := by
  rw [statements?, hskip]
  cases u with
  | nil => exact absurd rfl hne
  | cons c r => rfl

theorem OpensKey.solid {c : Char} (h : OpensKey c) (r : Text) : Solid (c :: r) := by
  rintro d ⟨rfl⟩
  exact ⟨h.not_isSpace, h.ne (by decide) (by decide) (by decide),
    h.ne (by decide) (by decide) (by decide), h.ne (by decide) (by decide) (by decide)⟩

/-- a line is read, and then the rest -/
theorem statements?_line {l : Line} (h : l.Written) (fuel : Nat) (rest : Text) :
    statements? (fuel + 1) (l.text ++ rest) =
      if l.Fits then (statements? fuel rest).map (l.statement :: ·) else none := by
  cases h with
  | @header path hne =>
    have htext : Line.text (.header path) ++ rest =
        '\n' :: '[' :: (pathText path ++ ']' :: '\n' :: rest) := by
      show (("\n[".toList ++ pathText path) ++ "]\n".toList) ++ rest = _
      rw [List.append_assoc, List.append_assoc]
      rfl
    have hsolid : Solid ('[' :: (pathText path ++ ']' :: '\n' :: rest)) := by
      rintro d ⟨rfl⟩
      decide
    rw [htext, statements?_skip (skipLines?_newline hsolid _) (List.cons_ne_nil _ _),
      statement?_header hne]
    show _ = if path.length ≤ maxKeyParts then _ else _
    split
    · rw [Option.map_eq_bind]
      rfl
    · rfl
  | @entry key v hv =>
    have htext : Line.text (.entry key v) ++ rest =
        keyText key ++ " = ".toList ++ valueText v ++ '\n' :: rest :=
      List.append_assoc _ ['\n'] rest
    obtain ⟨c, r, hkey, hc⟩ := keyText_opens key
    have hsolid : Solid (Line.text (.entry key v) ++ rest) := by
      rw [htext, hkey]
      exact hc.solid _
    have hne : Line.text (.entry key v) ++ rest ≠ [] := by
      rw [htext, hkey]
      exact List.cons_ne_nil _ _
    rw [statements?_skip (skipLines?_solid hsolid _) hne, htext, statement?_entry key hv,
      if_pos (show Line.Fits (.entry key v) from trivial), Option.map_eq_bind]
    rfl

/-- **Lines are read back one by one, unless some header has too many parts.** -/
theorem statements?_lines {ls : List Line} (h : ∀ l ∈ ls, l.Written) {fuel : Nat}
    (hfuel : ls.length < fuel) :
    statements? fuel (ls.flatMap Line.text) =
      if ∀ l ∈ ls, l.Fits then some (ls.map Line.statement) else none := by
  induction ls generalizing fuel with
  | nil =>
    obtain ⟨n, rfl⟩ := Nat.exists_eq_add_of_le' hfuel
    rfl
  | cons l ls ih =>
    obtain ⟨n, rfl⟩ := Nat.exists_eq_add_of_le' (Nat.lt_of_le_of_lt (Nat.zero_le _) hfuel)
    rw [List.flatMap_cons, statements?_line (h l List.mem_cons_self)]
    rw [ih (fun l' hl' => h l' (List.mem_cons_of_mem _ hl')) (Nat.lt_of_succ_lt_succ hfuel)]
    simp only [List.forall_mem_cons]
    by_cases hl : l.Fits
    · by_cases hls : ∀ l ∈ ls, l.Fits
      · rw [if_pos hl, if_pos hls, if_pos ⟨hl, hls⟩]
        rfl
      · rw [if_pos hl, if_neg hls, if_neg fun h => hls h.2]
        rfl
    · rw [if_neg hl, if_neg fun h => hl h.1]

end

end SiteBundle.Toml
