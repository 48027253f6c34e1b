import SiteBundle.Text.Blank
import SiteBundle.Text.Word
import SiteBundle.Text.Pieces

/-!
# Import and export statements

A module is not parsed; its import and export statements are found at the beginnings of lines.

* `importAt?`           an import with a quoted address;
* `exportStarAt?`       `export *`;
* `exportListAt?`       `export {...}`, with or without an address;
* `namedDefaultAt?`     `export default` before a function or a class that has a name;
* `defaultAt?`          `export default` before anything else;
* `declarationAt?`      `export` before a declaration.

Each yields its parts and the text behind the statement.
-/

namespace SiteBundle

open Text

/-! ## Parts of statements -/

/-- white space that may lead a line -/
def isIndent (c : Char) : Bool := c == ' ' || c == '\t'

def keyword? (word t : Text) : Option Text := dropLead? word t

/-- white space, at least one character of it -/
def someBlank? (t : Text) : Option Text :=
  match t with
  | [] => none
  | c :: r => if isBlank c then some (r.dropWhile isBlank) else none

def isQuote (c : Char) : Bool := c == '"' || c == '\''

/-- an address in quotes, which need not be the same on both sides; it is not empty -/
def address? : Text → Option (Text × Text)
  | [] => none
  | q :: r =>
    let inside := r.takeWhile fun c => !isQuote c
    if isQuote q && !inside.isEmpty then
      match r.dropWhile fun c => !isQuote c with
      | _ :: rest => some (inside, rest)
      | [] => none
    else none

/-- the end of a statement: blanks and a semicolon, if it is there -/
def statementEnd (t : Text) : Text :=
  match t.dropWhile isIndent with
  | ';' :: rest => rest
  | rest => rest

def isIdentChar (c : Char) : Bool := isWord c || c == '$'

def ident? (t : Text) : Option (Text × Text) :=
  let name := t.takeWhile isIdentChar
  if name.isEmpty then none else some (name, t.dropWhile isIdentChar)

/-- whether a text is a name that a variable can have -/
def isIdentifier (t : Text) : Bool :=
  match t with
  | [] => false
  | c :: r => (isLetter c || c == '_' || c == '$') && r.all isIdentChar

/-- what was read from a text up to its rest -/
def readUpTo (t rest : Text) : Text := t.take (t.length - rest.length)

/-! ## Imports -/

/-- an import: what it binds, where from, and the statement as written -/
structure Import where
  clause : Text
  specifier : Text
  statement : Text

/-- `from` and the address behind it -/
def fromPart? (t : Text) : Option (Text × Text) := do
  let r ← keyword? "from".toList (t.dropWhile isBlank)
  address? (r.dropWhile isBlank)

/-- the shortest clause that `from` and an address follow; no quote or semicolon is in it -/
def clause? (t : Text) : Option (Text × Text × Text) :=
  match fromPart? t with
  | some (specifier, rest) => some ([], specifier, rest)
  | none =>
    match t with
    | [] => none
    | c :: r =>
      if isQuote c || c == ';' then none
      else (clause? r).map fun p => (c :: p.1, p.2)

/-- an import at the beginning of a line -/
def importAt? (s : Spot) (t : Text) : Option (Import × Text) := do
  if !s.atLineStart then none
  let r ← keyword? "import".toList (t.dropWhile isIndent)
  let r := r.dropWhile isBlank
  let (clause, specifier, rest) ← (clause? r).or ((address? r).map fun p => ([], p))
  let rest := statementEnd rest
  return (⟨clause, specifier, readUpTo t rest⟩, rest)

/-! ## Exports -/

/-- the indent and `export` at the beginning of a line, and the text behind -/
def exportAt? (s : Spot) (t : Text) : Option (Text × Text) := do
  if !s.atLineStart then none
  let r ← keyword? "export".toList (t.dropWhile isIndent)
  return (t.takeWhile isIndent, r)

/-- `export *` through the end of the statement or line, as written -/
def exportStarAt? (s : Spot) (t : Text) : Option (Text × Text) := do
  let (_, r) ← exportAt? s t
  match r.dropWhile isBlank with
  | '*' :: r =>
    let rest := match r.dropWhile fun c => c != ';' && c != '\n' with
      | ';' :: rest => rest
      | rest => rest
    return (readUpTo t rest, rest)
  | _ => none

/-- a list of exports: the inside of its braces, whether an address follows, and the statement as
written -/
structure ExportList where
  specifiers : Text
  hasSource : Bool
  statement : Text

/-- `export {...}` at the beginning of a line -/
def exportListAt? (s : Spot) (t : Text) : Option (ExportList × Text) := do
  let (_, r) ← exportAt? s t
  match r.dropWhile isBlank with
  | '\x7b' :: r =>
    let (inside, r) ← cutAt? '\x7d' r
    let r := r.dropWhile isBlank
    let source := do
      let r ← keyword? "from".toList r
      address? (r.dropWhile isBlank)
    let rest := statementEnd (match source with
      | some (_, rest) => rest
      | none => r)
    return (⟨inside, source.isSome, readUpTo t rest⟩, rest)
  | _ => none

/-- a declaration that is exported: its indent, its keywords and its name -/
structure Exported where
  indent : Text
  keywords : Text
  name : Text

/-- the declaration without `export` -/
def Exported.text (e : Exported) : Text := e.indent ++ e.keywords ++ ' ' :: e.name

/-- `function` with the marks of its kind and the white space behind; the keywords reach up to the last
white space before the name -/
def functionKeywords? (t : Text) : Option (Text × Text) := do
  let start := match keyword? "async".toList t with
    | some r => (someBlank? r).getD t
    | none => t
  let r ← keyword? "function".toList start
  match r.dropWhile isBlank with
  | '*' :: r => return (readUpTo t r, ← someBlank? r)
  | rest =>
    let gap := r.takeWhile isBlank
    if gap.isEmpty then none
    else return (readUpTo t rest |>.dropLast, rest)

/-- one of the words and the white space behind it -/
def wordKeyword? (words : List Text) (t : Text) : Option (Text × Text) :=
  words.findSome? fun word => do
    let r ← keyword? word t
    return (word, ← someBlank? r)

/-- `export default` and the white space around -/
def defaultAt? (s : Spot) (t : Text) : Option (Text × Text) := do
  let (indent, r) ← exportAt? s t
  let r ← keyword? "default".toList (← someBlank? r)
  return (indent, ← someBlank? r)

/-- a declaration with one of these words, or of a function -/
def declared? (words : List Text) (indent t : Text) : Option (Exported × Text) := do
  let (keywords, r) ← (functionKeywords? t).or (wordKeyword? words t)
  let (name, rest) ← ident? r
  return (⟨indent, keywords, name⟩, rest)

def namedDefaultAt? (s : Spot) (t : Text) : Option (Exported × Text) := do
  let (indent, r) ← defaultAt? s t
  declared? ["class".toList] indent r

def declarationAt? (s : Spot) (t : Text) : Option (Exported × Text) := do
  let (indent, r) ← exportAt? s t
  declared? ["const".toList, "let".toList, "var".toList, "class".toList] indent (← someBlank? r)

end SiteBundle
