import SiteBundle.Text.Blank
import SiteBundle.Text.Word
import SiteBundle.Text.Pieces

/-!
# Attributes of an opening tag

An attribute list keeps the attributes in the order of their first appearance; an attribute either
has a value or is a bare flag.  Names are compared as written.

* `Attributes.parse`   the attributes of an opening tag;
* `Attributes.get?`, `has`, `set`, `remove`   access by name;
* `Attributes.text`    the written form, each attribute behind a space.
-/

namespace SiteBundle

open Text

/-- attributes in order; a flag has no value -/
structure Attributes where
  entries : List (Text × Option Text)
deriving DecidableEq, Repr

namespace Attributes

def empty : Attributes := ⟨[]⟩

/-- replaces the value of the first entry of this name, or appends an entry -/
def setEntry (name : Text) (value : Option Text) :
    List (Text × Option Text) → List (Text × Option Text)
  | [] => [(name, value)]
  | e :: r => if e.1 = name then (name, value) :: r else e :: setEntry name value r

/-- gives an attribute this value (`none` makes it a flag); a new one goes to the end -/
def set (a : Attributes) (name : Text) (value : Option Text) : Attributes :=
  ⟨setEntry name value a.entries⟩

def has (a : Attributes) (name : Text) : Bool := a.entries.any (·.1 == name)

def remove (a : Attributes) (name : Text) : Attributes :=
  ⟨a.entries.filter fun e => e.1 != name⟩

/-- the value; `none` for a flag and for an absent attribute -/
def get? (a : Attributes) (name : Text) : Option Text :=
  (a.entries.find? (·.1 == name)).bind (·.2)

/-! ## Reading -/

def isNameChar (c : Char) : Bool :=
  isWord c || c == '-' || c == ':' || c == '.' || c == '@'

/-- a character of a value without quotes -/
def isBareChar (c : Char) : Bool :=
  !(isBlank c || c == '"' || c == '\'' || c == '=' || c == '<' || c == '>' || c == '\x60')

/-- an equals sign and the value behind it -/
def value? (t : Text) : Option (Text × Text) :=
  match t.dropWhile isBlank with
  | '=' :: r =>
    match r.dropWhile isBlank with
    | '"' :: r => cutAt? '"' r
    | '\'' :: r => cutAt? '\'' r
    | r =>
      let value := r.takeWhile isBareChar
      if value.isEmpty then none else some (value, r.dropWhile isBareChar)
  | _ => none

/-- white space, a name, and the value if one follows -/
def entry? : Text → Option ((Text × Option Text) × Text)
  | [] => none
  | c :: r =>
    let name := r.takeWhile isNameChar
    if isBlank c && !name.isEmpty then
      let behind := r.dropWhile isNameChar
      match value? behind with
      | some (value, rest) => some ((name, some value), rest)
      | none => some ((name, none), behind)
    else none

/-- an opening tag without its brackets, the slash before the last one, and its name -/
def tagBody (tag : Text) : Text :=
  let inner := match tag with
    | '<' :: r => r
    | r => r
  (trimEndBy (· == '/') (trimEndBy (· == '>') inner)).dropWhile fun c => !isBlank c

def parse (tag : Text) : Attributes :=
  (findings (fun _ => entry?) (tagBody tag)).foldl (fun a e => a.set e.2.1 e.2.2) empty

/-! ## Writing -/

/-- one attribute behind a space; a value with a double quote in it is put in single ones -/
def entryText (e : Text × Option Text) : Text :=
  match e.2 with
  | none => ' ' :: e.1
  | some v =>
    if v.contains '"' then ' ' :: e.1 ++ ['=', '\''] ++ v ++ ['\'']
    else ' ' :: e.1 ++ ['=', '"'] ++ v ++ ['"']

def text (a : Attributes) : Text := a.entries.flatMap entryText

end Attributes
end SiteBundle
