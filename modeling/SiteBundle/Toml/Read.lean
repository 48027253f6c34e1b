import SiteBundle.Text.Fold
import SiteBundle.Toml.Write

/-!
# Reading TOML

The reader takes version 1.0 of the format.  It goes through three steps.

* `value?` and its parts read one value; arrays and inline tables may be nested up to `maxDepth`, and
  a key may have up to `maxKeyParts` parts.
* `statements?` reads a document as a list of statements: headers and assignments to dotted keys.
* trees under construction (`Node`) collect the statements and refuse whatever would define a key or a
  table twice; `Node.value` is the finished value.

Everything that is refused is refused alike, so the readers are partial functions (`Option`).
-/

namespace SiteBundle.Toml

open Text

/-! ## Blanks and comments -/

def isSpace (c : Char) : Bool := c == ' ' || c == '\t'

def skipSpace (t : Text) : Text := t.dropWhile isSpace

/-- a character that may stand in a comment or a string -/
def isAllowed (c : Char) : Bool := c == '\t' || (0x20 ≤ c.toNat && c.toNat != 0x7F)

/-- a comment at the front is passed over; `none` if it holds a control character -/
def skipComment? : Text → Option Text
  | '#' :: r =>
    let rest := r.dropWhile isAllowed
    match rest with
    | [] => some rest
    | '\n' :: _ => some rest
    | '\r' :: '\n' :: _ => some rest
    | _ => none
  | t => some t

/-- a line end at the front is passed over -/
def skipLineEnd? : Text → Option Text
  | '\n' :: r => some r
  | '\r' :: '\n' :: r => some r
  | _ => none

/-- white space, comments and line ends at the front are passed over -/
def skipLines? : Nat → Text → Option Text
  | 0, t => some t
  | fuel + 1, t => do
    let r ← skipComment? (skipSpace t)
    match skipLineEnd? r with
    | some r => skipLines? fuel r
    | none => some r

/-! ## Strings -/

def hexValue? (c : Char) : Option Nat :=
  if isDigit c then some (c.toNat - 0x30)
  else if 'a' ≤ c ∧ c ≤ 'f' then some (c.toNat - 0x57)
  else if 'A' ≤ c ∧ c ≤ 'F' then some (c.toNat - 0x37)
  else none

/-- the character of a code of `n` hexadecimal digits -/
def codeChar? (n : Nat) (t : Text) : Option (Char × Text) := do
  let digits := t.take n
  if digits.length < n then none
  let values ← digits.mapM hexValue?
  let code := values.foldl (fun a d => 16 * a + d) 0
  if code.isValidChar then return (Char.ofNat code, t.drop n) else none

/-- the character of an escape whose backslash was read -/
def escaped? : Text → Option (Char × Text)
  | 'b' :: r => some ('\x08', r)
  | 't' :: r => some ('\t', r)
  | 'n' :: r => some ('\n', r)
  | 'f' :: r => some ('\x0c', r)
  | 'r' :: r => some ('\r', r)
  | '"' :: r => some ('"', r)
  | '\\' :: r => some ('\\', r)
  | 'u' :: r => codeChar? 4 r
  | 'U' :: r => codeChar? 8 r
  | _ => none

/-- a basic string whose opening quote was read -/
def basicRest? : Nat → Text → Option (Text × Text)
  | 0, _ => none
  | _ + 1, [] => none
  | fuel + 1, c :: r =>
    if c = '"' then some ([], r)
    else if c = '\\' then do
      let (d, r) ← escaped? r
      let (s, rest) ← basicRest? fuel r
      return (d :: s, rest)
    else if isAllowed c then (basicRest? fuel r).map fun p => (c :: p.1, p.2)
    else none

def literalRest? : Text → Option (Text × Text)
  | [] => none
  | c :: r =>
    if c = '\'' then some ([], r)
    else if isAllowed c then (literalRest? r).map fun p => (c :: p.1, p.2)
    else none

/-- the end of a multi-line string: its closing quotes, up to two of which before the last three
belong to the string -/
def longEnd? (quote : Char) : Text → Option (Text × Text)
  | a :: b :: c :: r =>
    if a = quote ∧ b = quote ∧ c = quote then
      match r with
      | d :: e :: rest =>
        if d = quote ∧ e = quote then some ([quote, quote], rest)
        else if d = quote then some ([quote], e :: rest)
        else some ([], r)
      | [d] => if d = quote then some ([quote], []) else some ([], r)
      | [] => some ([], [])
    else none
  | _ => none

/-- white space and line ends at the front are passed over -/
def skipBlankLines : Text → Text
  | '\r' :: '\n' :: r => skipBlankLines r
  | c :: r => if isSpace c || c == '\n' then skipBlankLines r else c :: r
  | [] => []

/-- a line end behind a backslash, with all white space that follows -/
def skipFold? (t : Text) : Option Text := (skipLineEnd? (skipSpace t)).map skipBlankLines

/-- a multi-line basic string whose opening quotes were read -/
def longBasicRest? : Nat → Text → Option (Text × Text)
  | 0, _ => none
  | _ + 1, [] => none
  | fuel + 1, c :: r =>
    match longEnd? '"' (c :: r) with
    | some found => some found
    | none =>
      if c = '\\' then
        match skipFold? r with
        | some r => longBasicRest? fuel r
        | none => do
          let (d, r) ← escaped? r
          let (s, rest) ← longBasicRest? fuel r
          return (d :: s, rest)
      else if c = '\r' then
        match r with
        | '\n' :: r => (longBasicRest? fuel r).map fun p => ('\n' :: p.1, p.2)
        | _ => none
      else if c = '\n' ∨ isAllowed c then
        (longBasicRest? fuel r).map fun p => (c :: p.1, p.2)
      else none

def longLiteralRest? : Nat → Text → Option (Text × Text)
  | 0, _ => none
  | _ + 1, [] => none
  | fuel + 1, c :: r =>
    match longEnd? '\'' (c :: r) with
    | some found => some found
    | none =>
      if c = '\r' then
        match r with
        | '\n' :: r => (longLiteralRest? fuel r).map fun p => ('\n' :: p.1, p.2)
        | _ => none
      else if c = '\n' ∨ isAllowed c then
        (longLiteralRest? fuel r).map fun p => (c :: p.1, p.2)
      else none

/-- without the line end that may follow the opening quotes -/
def skipFirstLineEnd (t : Text) : Text := (skipLineEnd? t).getD t

/-- a string of any form -/
def string? (t : Text) : Option (Text × Text) :=
  let fuel := t.length + 1
  match t with
  | '"' :: '"' :: '"' :: r => longBasicRest? fuel (skipFirstLineEnd r)
  | '"' :: r => basicRest? fuel r
  | '\'' :: '\'' :: '\'' :: r => longLiteralRest? fuel (skipFirstLineEnd r)
  | '\'' :: r => literalRest? r
  | _ => none

/-! ## Numbers and dates -/

def digitsOnly (isOne : Char → Bool) (t : Text) : Bool :=
  (splitOn '_' t).all fun run => !run.isEmpty && run.all isOne

/-- whether digits are a decimal whole number: no zero leads others -/
def isWhole (t : Text) : Bool :=
  digitsOnly isDigit t && (t.length == 1 || t.head? != some '0')

/-- digits after a sign, if there is one -/
def dropSign : Text → Text
  | '+' :: r => r
  | '-' :: r => r
  | r => r

/-- the value of digits in a base -/
def digitsValue (base : Nat) (t : Text) : Nat :=
  (t.filterMap hexValue?).foldl (fun a d => base * a + d) 0

/-- whole numbers have to fit into 64 bits -/
def fits (negative : Bool) (n : Nat) : Bool :=
  if negative then n ≤ Nat.pow 2 63 else n < Nat.pow 2 63

def isInteger (t : Text) : Bool :=
  match t with
  | '0' :: 'x' :: r => digitsOnly (fun c => (hexValue? c).isSome) r && fits false (digitsValue 16 r)
  | '0' :: 'o' :: r => digitsOnly (fun c => '0' ≤ c && c ≤ '7') r && fits false (digitsValue 8 r)
  | '0' :: 'b' :: r => digitsOnly (fun c => c == '0' || c == '1') r && fits false (digitsValue 2 r)
  | _ => isWhole (dropSign t) && fits (t.head? == some '-') (digitsValue 10 t)

def isExponent (t : Text) : Bool := digitsOnly isDigit (dropSign t)

/-- whether a word is a number with a fraction or an exponent -/
def isFloat (t : Text) : Bool :=
  let body := dropSign t
  if body == "inf".toList || body == "nan".toList then true
  else
    let whole := body.takeWhile fun c => c != '.' && c != 'e' && c != 'E'
    let rest := body.dropWhile fun c => c != '.' && c != 'e' && c != 'E'
    isWhole whole &&
      match rest with
      | '.' :: r =>
        let fraction := r.takeWhile fun c => c != 'e' && c != 'E'
        digitsOnly isDigit fraction &&
          match r.dropWhile fun c => c != 'e' && c != 'E' with
          | [] => true
          | _ :: e => isExponent e
      | _ :: e => isExponent e
      | [] => false

/-- whether digits times a power of ten are too large for double precision: they lie at least half a
step above its largest finite number, `2 ^ 1024 - 2 ^ 971`.  The number of places decides alone far
from that bound. -/
def passesDouble (digits : Nat) (power : Int) : Bool :=
  let bound := Nat.pow 2 1024 - Nat.pow 2 970
  let places := (Nat.toDigits 10 digits).length
  if digits = 0 ∨ places + power ≤ 308 then false
  else if 310 ≤ places + power then true
  else if 0 ≤ power then bound ≤ digits * Nat.pow 10 power.toNat
  else bound * Nat.pow 10 (-power).toNat ≤ digits

def isTooLarge (t : Text) : Bool :=
  let mantissa := t.takeWhile fun c => c != 'e' && c != 'E'
  let exponent := t.drop (mantissa.length + 1)
  let fraction := (mantissa.dropWhile (· != '.')).filter isDigit
  let power : Int := digitsValue 10 (dropSign exponent)
  passesDouble (digitsValue 10 (mantissa.filter isDigit))
    ((if exponent.head? = some '-' then -power else power) - fraction.length)

/-- the number of a word of exactly `n` digits -/
def fixed? (n : Nat) (t : Text) : Option Nat :=
  if t.length = n ∧ t.all isDigit then some (digitsValue 10 t) else none

def daysOf (year month : Nat) : Nat :=
  if month = 2 then
    if year % 4 = 0 ∧ (year % 100 ≠ 0 ∨ year % 400 = 0) then 29 else 28
  else if month = 4 ∨ month = 6 ∨ month = 9 ∨ month = 11 then 30
  else 31

def isDate (t : Text) : Bool :=
  match splitOn '-' t with
  | [y, m, d] =>
    match fixed? 4 y, fixed? 2 m, fixed? 2 d with
    | some y, some m, some d => 1 ≤ m && m ≤ 12 && 1 ≤ d && d ≤ daysOf y m
    | _, _, _ => false
  | _ => false

def isTime (t : Text) : Bool :=
  match splitOn ':' t with
  | [h, m, s] =>
    let whole := s.takeWhile (· != '.')
    let rest := s.dropWhile (· != '.')
    match fixed? 2 h, fixed? 2 m, fixed? 2 whole with
    | some h, some m, some s =>
      h ≤ 23 && m ≤ 59 && s ≤ 60 && (rest.isEmpty || (rest.length > 1 && (rest.drop 1).all isDigit))
    | _, _, _ => false
  | _ => false

/-- whether a word is an offset from universal time -/
def isZone (t : Text) : Bool :=
  match t with
  | [] => true
  | ['Z'] => true
  | ['z'] => true
  | c :: r =>
    (c == '+' || c == '-') &&
      match splitOn ':' r with
      | [h, m] =>
        match fixed? 2 h, fixed? 2 m with
        | some h, some m => h ≤ 23 && m ≤ 59
        | _, _ => false
      | _ => false

/-- whether a word is a time of day with an offset or without -/
def isZonedTime (t : Text) : Bool :=
  let inTime := fun c => isDigit c || c == ':' || c == '.'
  isTime (t.takeWhile inTime) && isZone (t.dropWhile inTime)

/-- whether a word is a date, a time, or both with a letter between -/
def isMoment (t : Text) : Bool :=
  isDate t || isTime t ||
    (isDate (t.take 10) && (t[10]? == some 'T' || t[10]? == some 't') && isZonedTime (t.drop 11))

/-- a character of a number or a date -/
def isScalarChar (c : Char) : Bool :=
  isBareKeyChar c || c == '+' || c == '.' || c == ':'

/-- a boolean, a number or a date -/
def scalar? (t : Text) : Option (Toml × Text) :=
  let word := t.takeWhile isScalarChar
  let rest := t.dropWhile isScalarChar
  if word == "true".toList then some (.boolean true, rest)
  else if word == "false".toList then some (.boolean false, rest)
  else if isInteger word then some (.number word, rest)
  else if isFloat word then
    -- only `inf` may say a positive infinity
    if isTooLarge word && word.head? != some '-' then none else some (.number word, rest)
  else
    match isDate word, rest with
    | true, ' ' :: c :: r =>
      if isDigit c then
        let time := (c :: r).takeWhile isScalarChar
        if isZonedTime time then some (.date (word ++ ' ' :: time), (c :: r).dropWhile isScalarChar)
        else none
      else some (.date word, rest)
    | _, _ => if isMoment word then some (.date word, rest) else none

/-! ## Keys -/

def simpleKey? (t : Text) : Option (Text × Text) :=
  match t with
  | '"' :: r => basicRest? (t.length + 1) r
  | '\'' :: r => literalRest? r
  | _ =>
    let key := t.takeWhile isBareKeyChar
    if key.isEmpty then none else some (key, t.dropWhile isBareKeyChar)

/-- keys with dots between them, however many -/
def keyParts? : Nat → Text → Option (List Text × Text)
  | 0, _ => none
  | fuel + 1, t => do
    let (key, r) ← simpleKey? (skipSpace t)
    match skipSpace r with
    | '.' :: r =>
      let (keys, rest) ← keyParts? fuel r
      return (key :: keys, rest)
    | r => return ([key], r)

/-- how many parts a dotted key may have -/
def maxKeyParts : Nat := 79

/-- keys with dots between them -/
def dottedKey? (fuel : Nat) (t : Text) : Option (List Text × Text) :=
  (keyParts? fuel t).filter fun p => p.1.length ≤ maxKeyParts

/-! ## Collecting definitions -/

/-- a value under construction.  A table is `implied` while only longer keys or headers have named it
and `dotted` when a dotted key made it; `tables` are the elements of an array of tables, last
first. -/
inductive Node where
  | done (v : Toml)
  | table (implied dotted : Bool) (entries : List (Text × Node))
  | tables (elements : List (List (Text × Node)))

mutual

def Node.value : Node → Toml
  | .done v => v
  | .table _ _ entries => .table (entryValues entries)
  | .tables elements => .array (tableValues elements).reverse

def entryValues : List (Text × Node) → List (Text × Toml)
  | [] => []
  | (k, n) :: r => (k, n.value) :: entryValues r

def tableValues : List (List (Text × Node)) → List Toml
  | [] => []
  | e :: r => .table (entryValues e) :: tableValues r

end

/-- the entries with the entry of a key changed, or added when the key is new -/
def change? (key : Text) (f : Option Node → Option Node) :
    List (Text × Node) → Option (List (Text × Node))
  | [] => (f none).map fun n => [(key, n)]
  | e :: r =>
    if e.1 = key then (f (some e.2)).map fun n => (key, n) :: r
    else (change? key f r).map (e :: ·)

/-- the entries of the table at a path changed.  Tables on the way are made when they are missing;
with `dotted` the way may only lead through tables that are implied. -/
def changeAt? (dotted : Bool) (f : Bool → List (Text × Node) → Option (List (Text × Node))) :
    List Text → Bool → List (Text × Node) → Option (List (Text × Node))
  | [], isDotted, entries => f isDotted entries
  | key :: path, _, entries =>
    change? key (fun
      | none => (changeAt? dotted f path dotted []).map (.table true dotted)
      | some (.table implied isDotted inner) =>
        if dotted && !implied then none
        else (changeAt? dotted f path isDotted inner).map (.table implied isDotted)
      | some (.tables (last :: others)) =>
        (changeAt? dotted f path false last).map fun e => .tables (e :: others)
      | some _ => none) entries

/-- a key set to a value inside the entries of a table; a plain key must not reach into a table made
by dotted keys, nor a dotted key into one made otherwise -/
def assign? (path : List Text) (key : Text) (v : Toml) (entries : List (Text × Node)) :
    Option (List (Text × Node)) :=
  changeAt? true (fun isDotted inner =>
    if isDotted == path.isEmpty then none
    else change? key (fun old => if old.isSome then none else some (.done v)) inner) path false entries

/-! ## Values -/

/-- how deep arrays and inline tables may be nested -/
def maxDepth : Nat := 79

mutual

/-- a value; `depth` is how deep arrays and inline tables may still be nested in it -/
def value? : Nat → Nat → Text → Option (Toml × Text)
  | 0, _, _ => none
  | fuel + 1, depth, t =>
    match depth, t with
    | _, '"' :: _ => (string? t).map fun p => (.string p.1, p.2)
    | _, '\'' :: _ => (string? t).map fun p => (.string p.1, p.2)
    | depth + 1, '[' :: r => (items? fuel depth r).map fun p => (.array p.1, p.2)
    | depth + 1, '\x7b' :: r =>
      match skipSpace r with
      | '\x7d' :: rest => some (.table [], rest)
      | r => do
        let (entries, rest) ← pairs? fuel depth [] r
        return (.table (entryValues entries), rest)
    | _, t => scalar? t

def items? : Nat → Nat → Text → Option (List Toml × Text)
  | 0, _, _ => none
  | fuel + 1, depth, t => do
    let r ← skipLines? (t.length + 1) t
    match r with
    | ']' :: rest => return ([], rest)
    | r =>
      let (v, r) ← value? fuel depth r
      let r ← skipLines? (r.length + 1) r
      match r with
      | ']' :: rest => return ([v], rest)
      | ',' :: r =>
        let (items, rest) ← items? fuel depth r
        return (v :: items, rest)
      | _ => none

/-- the entries of an inline table, behind those already read -/
def pairs? : Nat → Nat → List (Text × Node) → Text → Option (List (Text × Node) × Text)
  | 0, _, _, _ => none
  | fuel + 1, depth, entries, t => do
    let (keys, r) ← dottedKey? (t.length + 1) t
    match r, keys.getLast? with
    | '=' :: r, some key =>
      let (v, r) ← value? fuel depth (skipSpace r)
      let entries ← assign? keys.dropLast key v entries
      match skipSpace r with
      | '\x7d' :: rest => return (entries, rest)
      | ',' :: r => pairs? fuel depth entries r
      | _ => none
    | _, _ => none

end

/-! ## Documents -/

/-- what a line of a document says -/
inductive Statement where
  | header (path : List Text)
  | element (path : List Text)
  | assignment (keys : List Text) (v : Toml)

/-- the end of a line: nothing but white space and a comment -/
def lineEnd? (t : Text) : Option Text := do
  let r ← skipComment? (skipSpace t)
  match r with
  | [] => some []
  | r => skipLineEnd? r

/-- the statement at the front of a text, with the text behind its line -/
def statement? (t : Text) : Option (Statement × Text) :=
  let fuel := t.length + 1
  match t with
  | '[' :: '[' :: r => do
    let (path, r) ← dottedKey? fuel r
    match r with
    | ']' :: ']' :: r => return (.element path, ← lineEnd? r)
    | _ => none
  | '[' :: r => do
    let (path, r) ← dottedKey? fuel r
    match r with
    | ']' :: r => return (.header path, ← lineEnd? r)
    | _ => none
  | t => do
    let (keys, r) ← dottedKey? fuel t
    match r with
    | '=' :: r =>
      let (v, r) ← value? (2 * fuel) maxDepth (skipSpace r)
      return (.assignment keys v, ← lineEnd? r)
    | _ => none

def statements? : Nat → Text → Option (List Statement)
  | 0, _ => none
  | fuel + 1, t => do
    let r ← skipLines? (t.length + 1) t
    match r with
    | [] => return []
    | r =>
      let (s, rest) ← statement? r
      let others ← statements? fuel rest
      return s :: others

/-- the tables defined so far and the path of the table that assignments go to -/
structure Reading where
  root : List (Text × Node)
  here : List Text

/-- one more statement -/
def Reading.add? (s : Reading) : Statement → Option Reading
  | .assignment keys v => do
    let key ← keys.getLast?
    let path := keys.dropLast
    let root ← changeAt? false (fun _ entries => assign? path key v entries) s.here false s.root
    return { s with root }
  | .header path => do
    let key ← path.getLast?
    let root ← changeAt? false (fun _ entries =>
      change? key (fun
        | none => some (.table false false [])
        | some (.table true false inner) => some (.table false false inner)
        | some _ => none) entries) path.dropLast false s.root
    return ⟨root, path⟩
  | .element path => do
    let key ← path.getLast?
    let root ← changeAt? false (fun _ entries =>
      change? key (fun
        | none => some (.tables [[]])
        | some (.tables elements) => some (.tables ([] :: elements))
        | some _ => none) entries) path.dropLast false s.root
    return ⟨root, path⟩

/-- a text without the mark that may open a file -/
def dropMark : Text → Text
  | '\uFEFF' :: r => r
  | t => t

/-- the table that a document describes -/
def read? (t : Text) : Option (List (Text × Toml)) := do
  let t := dropMark t
  let statements ← statements? (t.length + 1) t
  let reading ← statements.foldlM Reading.add? ⟨[], []⟩
  return entryValues reading.root

end SiteBundle.Toml
