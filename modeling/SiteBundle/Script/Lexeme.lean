import SiteBundle.Text.Blank
import SiteBundle.Text.Fold
import SiteBundle.Text.Pieces
import SiteBundle.Fault

/-!
# Lexemes of a script

A script is read as lexemes and the gaps between them.  Lexemes are strings, template literals,
regular expressions with their flags, maximal runs of word characters, and single punctuation
characters; gaps are white space and comments.

* `Lexeme`, `Gap`, `Item`   what a script consists of;
* `item?`                   the item at the front of a text, given the lexeme before it;
* `readScript`              all items of a script, or the first literal or comment left open.

A slash opens a comment, a regular expression or is a punctuation character of its own.  It opens a
regular expression exactly where an operand may stand, which the lexeme before it decides
(`operandMayFollow`).
-/

namespace SiteBundle

open Text

inductive LexemeKind where
  | word
  | string
  | template
  | regex
  | punctuation
deriving DecidableEq, Repr

structure Lexeme where
  kind : LexemeKind
  text : Text
deriving DecidableEq, Repr

/-- what stands between lexemes -/
inductive Gap where
  /-- white space or a comment within one line -/
  | space
  /-- a line end, or a comment with one inside -/
  | newline
  /-- a comment that ends with its line, which itself parts nothing -/
  | lineComment
deriving DecidableEq, Repr

inductive Item where
  | lexeme (l : Lexeme)
  | gap (g : Gap)
deriving DecidableEq, Repr

/-- a literal or comment left open: what it is, and the text from its beginning on -/
structure OpenEnd where
  unclosed : Unclosed
  rest : Text

/-! ## Characters -/

/-- a character of a word; outside ASCII every character is one -/
def isScriptWord (c : Char) : Bool :=
  isLetter c || isDigit c || c == '_' || c == '$' || c.toNat ≥ 0x80

/-- the words behind which an operand may stand -/
def operandWords : List Text :=
  ["return".toList, "typeof".toList, "instanceof".toList, "in".toList, "of".toList, "new".toList,
    "delete".toList, "void".toList, "throw".toList, "case".toList, "do".toList, "else".toList,
    "yield".toList, "await".toList]

/-- whether an operand, such as a regular expression, may stand behind this lexeme -/
def operandMayFollow : Option Lexeme → Bool
  | none => true
  | some l =>
    match l.text.getLast? with
    | none => true
    | some c =>
      if c == ')' || c == ']' || c == '}' || c == '"' || c == '\'' || c == '\x60' then false
      else if isScriptWord c then l.kind == .word && operandWords.contains l.text
      else true

/-! ## Literals -/

/-- the rest of a regular expression behind its first slash: through the closing slash, which does
not count inside a class, and the flags -/
def regexRest? : Bool → Text → Option (Text × Text)
  | _, [] => none
  | _, ['\\'] => none
  | inClass, '\\' :: c :: r =>
    (regexRest? inClass r).map fun p => ('\\' :: c :: p.1, p.2)
  | inClass, c :: r =>
    if c = '\n' then none
    else if c = '/' ∧ inClass = false then
      some (c :: r.takeWhile isLetter, r.dropWhile isLetter)
    else
      let inClass := if c = '[' then true else if c = ']' then false else inClass
      (regexRest? inClass r).map fun p => (c :: p.1, p.2)

/-- what is open inside a template literal; each with the text from where it began -/
inductive Frame where
  | template (start : Text)
  /-- an expression in a template, with the number of braces open in it -/
  | substitution (depth : Nat) (start : Text)
  | string (quote : Char) (start : Text)

/-- the fault when the text ends here -/
def Frame.openEnd : Frame → OpenEnd
  | .template start => ⟨.templateLiteral, start⟩
  | .substitution _ start => ⟨.templateSubstitution, start⟩
  | .string _ start => ⟨.stringLiteral, start⟩

/-- the text behind a template literal; `frames` are the open parts, innermost first -/
def behindTemplate : List Frame → Text → Except OpenEnd Text
  | [], t => .ok t
  | f :: _, [] => .error f.openEnd
  | .template start :: outer, c :: r =>
    if c = '\\' then
      match r with
      | [] => .error ⟨.templateLiteral, start⟩
      | _ :: r => behindTemplate (.template start :: outer) r
    else if c = '\x60' then behindTemplate outer r
    else if c = '$' then
      match r with
      | '{' :: r => behindTemplate (.substitution 1 r :: .template start :: outer) r
      | r => behindTemplate (.template start :: outer) r
    else behindTemplate (.template start :: outer) r
  | .substitution depth start :: outer, c :: r =>
    if c = '{' then behindTemplate (.substitution (depth + 1) start :: outer) r
    else if c = '}' then
      if depth ≤ 1 then behindTemplate outer r
      else behindTemplate (.substitution (depth - 1) start :: outer) r
    else if c = '"' ∨ c = '\'' then
      behindTemplate (.string c (c :: r) :: .substitution depth start :: outer) r
    else if c = '\x60' then
      behindTemplate (.template (c :: r) :: .substitution depth start :: outer) r
    else behindTemplate (.substitution depth start :: outer) r
  | .string quote start :: outer, c :: r =>
    if c = '\\' then
      match r with
      | [] => .error ⟨.stringLiteral, start⟩
      | _ :: r => behindTemplate (.string quote start :: outer) r
    else if c = '\n' then .error ⟨.stringLiteral, start⟩
    else if c = quote then behindTemplate outer r
    else behindTemplate (.string quote start :: outer) r

/-! ## Items -/

/-- white space within a line -/
def isScriptGap (c : Char) : Bool := c == ' ' || c == '\t' || c == '\r' || c == '\x0c'

/-- a finished lexeme whose text reaches up to `rest` -/
def upTo (kind : LexemeKind) (t rest : Text) : Item × Text :=
  (.lexeme ⟨kind, t.take (t.length - rest.length)⟩, rest)

/-- the string at the front of a text -/
def stringItem (quote : Char) (t r : Text) : Except OpenEnd (Item × Text) :=
  match quotedRest? quote r with
  | some (_, rest) => .ok (upTo .string t rest)
  | none => .error ⟨.stringLiteral, t⟩

/-- the item that a slash begins -/
def slashItem (before : Option Lexeme) (t r : Text) : Except OpenEnd (Item × Text) :=
  match r with
  | '/' :: r => .ok (.gap .lineComment, r.dropWhile (· != '\n'))
  | '*' :: r =>
    match seek (readFold? ['*', '/']) r with
    | some (inside, _, rest) =>
      .ok (.gap (if inside.contains '\n' then .newline else .space), rest)
    | none => .error ⟨.comment, t⟩
  | r =>
    if operandMayFollow before then
      match regexRest? false r with
      | some (_, rest) => .ok (upTo .regex t rest)
      | none => .error ⟨.regularExpression, t⟩
    else .ok (.lexeme ⟨.punctuation, ['/']⟩, r)

/-- the item at the front of the text `c :: r` -/
def itemAt (before : Option Lexeme) (c : Char) (r : Text) : Except OpenEnd (Item × Text) :=
  if isScriptGap c then .ok (.gap .space, r)
  else if c = '\n' then .ok (.gap .newline, r)
  else if c = '/' then slashItem before (c :: r) r
  else if c = '"' ∨ c = '\'' then stringItem c (c :: r) r
  else if c = '\x60' then
    (behindTemplate [.template (c :: r)] r).map fun rest => upTo .template (c :: r) rest
  else if isScriptWord c then
    .ok (.lexeme ⟨.word, c :: r.takeWhile isScriptWord⟩, r.dropWhile isScriptWord)
  else .ok (.lexeme ⟨.punctuation, [c]⟩, r)

/-- the lexeme read last, after one more item -/
def lastLexeme (before : Option Lexeme) : Item → Option Lexeme
  | .lexeme l => some l
  | .gap _ => before

/-- the items of a text from one place on, after `skip` characters already taken -/
def itemsFrom : Option Lexeme → Nat → Text → Except OpenEnd (List Item)
  | _, _, [] => .ok []
  | before, skip + 1, _ :: r => itemsFrom before skip r
  | before, 0, c :: r =>
    match itemAt before c r with
    | .error e => .error e
    | .ok (item, rest) =>
      (itemsFrom (lastLexeme before item) (r.length - rest.length) r).map (item :: ·)

def readScript (t : Text) : Except CodeFault (List Item) :=
  match itemsFrom none 0 t with
  | .ok items => .ok items
  | .error e => .error ⟨size t - size e.rest, e.unclosed⟩

def lexemes (items : List Item) : List Lexeme :=
  items.filterMap fun
    | .lexeme l => some l
    | .gap _ => none

end SiteBundle
