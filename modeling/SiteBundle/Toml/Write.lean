import SiteBundle.Text.Fold
import SiteBundle.Toml.Value

/-!
# Writing TOML

A table is written with its plain values first, one `key = value` on a line, and then its tables,
each under a header of its own behind an empty line.  A table that holds nothing but tables needs no
header.  An array of two or more items goes one item on a line.

A string is written in the first of these forms that can hold it without escapes: a basic string, a
literal string, a multi-line basic string, a multi-line literal string; failing all of them, as a
basic string with escapes.  A key is written bare if it can be.
-/

namespace SiteBundle.Toml

open Text

/-! ## Strings -/

def longestRun (c : Char) (t : Text) : Nat :=
  go 0 0 t
where
  /-- `run` is the run at hand, `best` the longest so far -/
  go (run best : Nat) : Text → Nat
    | [] => max run best
    | d :: r => if d = c then go (run + 1) best r else go 0 (max run best) r

/-- a control character that a string can hold only as an escape -/
def needsCode (c : Char) : Bool :=
  (c.toNat ≤ 0x1F && c != '\t' && c != '\n') || c.toNat == 0x7F

def hexDigit (n : Nat) : Char := Char.ofNat (if n < 10 then 0x30 + n else 0x37 + n)

/-- a character as an escape -/
def escape (c : Char) : Text :=
  if c = '\x08' then ['\\', 'b']
  else if c = '\t' then ['\\', 't']
  else if c = '\n' then ['\\', 'n']
  else if c = '\x0c' then ['\\', 'f']
  else if c = '\r' then ['\\', 'r']
  else if c = '"' then ['\\', '"']
  else if c = '\\' then ['\\', '\\']
  else ['\\', 'u', '0', '0', hexDigit (c.toNat / 16), hexDigit (c.toNat % 16)]

/-- the inside of a basic string; up to `allowed` double quotes may follow each other as they are,
and `quotes` of them stand just before -/
def basicInside (multiline : Bool) (quotes : Nat) : Text → Text
  | [] => []
  | c :: r =>
    if c = '"' then
      if multiline && quotes < 2 then c :: basicInside multiline (quotes + 1) r
      else escape c ++ basicInside multiline 0 r
    else if c = '\t' ∨ c = '\\' ∨ needsCode c then escape c ++ basicInside multiline 0 r
    else if c = '\n' ∧ multiline = false then escape c ++ basicInside multiline 0 r
    else c :: basicInside multiline 0 r

def triple (c : Char) : Text := [c, c, c]

def basicString (t : Text) : Text := '"' :: basicInside false 0 t ++ ['"']

/-- a string between double quotes that may run over several lines -/
def longBasicString (t : Text) : Text :=
  triple '"' ++ (if t.contains '\n' then ['\n'] else []) ++ basicInside true 0 t ++ triple '"'

def literalString (t : Text) : Text := '\'' :: t ++ ['\'']

/-- a string between single quotes that may run over several lines -/
def longLiteralString (t : Text) : Text :=
  triple '\'' ++ (if t.contains '\n' then ['\n'] else []) ++ t ++ triple '\''

/-- a string in the first form that holds it as it is -/
def stringText (t : Text) : Text :=
  let codes := t.any needsCode
  let escapes := t.contains '\\'
  let newline := t.contains '\n'
  let doubles := longestRun '"' t
  let singles := longestRun '\'' t
  if !codes && !escapes && doubles == 0 && !newline then basicString t
  else if !codes && singles == 0 && !newline then literalString t
  else if !codes && !escapes && doubles ≤ 2 then longBasicString t
  else if !codes && singles ≤ 2 then longLiteralString t
  else if newline then longBasicString t
  else basicString t

/-! ## Keys -/

/-- a character of a bare key -/
def isBareKeyChar (c : Char) : Bool := isLetter c || isDigit c || c == '-' || c == '_'

/-- a key, bare if it can be -/
def keyText (key : Text) : Text :=
  let codes := key.any fun c => needsCode c || c == '\n'
  if !key.isEmpty && key.all isBareKeyChar then key
  else if !codes && !key.contains '\\' && !key.contains '"' then basicString key
  else if !codes && !key.contains '\'' then literalString key
  else basicString key

/-- the keys of a header or of a dotted key -/
def pathText (path : List Text) : Text := join ['.'] (path.map keyText)

/-! ## Values and tables -/

mutual

/-- a value on the right of an equals sign -/
def valueText : Toml → Text
  | .string t => stringText t
  | .boolean b => if b then "true".toList else "false".toList
  | .number t => t
  | .date t => t
  | .array [] => ['[', ']']
  | .array [v] => '[' :: valueText v ++ [']']
  | .array (v :: w :: r) => '[' :: itemsText (v :: w :: r) ++ ['\n', ']']
  | .table [] => ['\x7b', '\x7d']
  | .table (e :: r) => ['\x7b', ' '] ++ inlineText (e :: r) ++ [' ', '\x7d']

def itemsText : List Toml → Text
  | [] => []
  | v :: r => "\n    ".toList ++ valueText v ++ ',' :: itemsText r

def inlineText : List (Text × Toml) → Text
  | [] => []
  | [(k, v)] => keyText k ++ " = ".toList ++ valueText v
  | (k, v) :: e :: r => keyText k ++ " = ".toList ++ valueText v ++ ", ".toList ++ inlineText (e :: r)

end

/-- whether a value goes under a header of its own -/
def isTable : Toml → Bool
  | .table _ => true
  | _ => false

/-- the lines of the plain values of a table -/
def plainLines (entries : List (Text × Toml)) : Text :=
  (entries.filter fun e => !isTable e.2).flatMap fun e =>
    keyText e.1 ++ " = ".toList ++ valueText e.2 ++ ['\n']

/-- whether a table gets a header: it has a plain value or nothing at all -/
def hasHeader (entries : List (Text × Toml)) : Bool :=
  entries.isEmpty || entries.any fun e => !isTable e.2

mutual

/-- a table under its header, at this path -/
def sectionText (path : List Text) : Toml → Text
  | .table entries =>
    (if hasHeader entries then
      "\n[".toList ++ pathText path ++ "]\n".toList ++ plainLines entries
    else []) ++ sectionsText path entries
  | _ => []

/-- the tables among the entries of a table -/
def sectionsText (path : List Text) : List (Text × Toml) → Text
  | [] => []
  | (k, v) :: r => sectionText (path ++ [k]) v ++ sectionsText path r

end

def documentText (entries : List (Text × Toml)) : Text :=
  let sections := sectionsText [] entries
  let plain := plainLines entries
  if plain.isEmpty then sections.drop 1 else plain ++ sections

end SiteBundle.Toml
