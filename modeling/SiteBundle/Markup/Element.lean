import SiteBundle.Markup.Attributes
import SiteBundle.Markup.Inert
import SiteBundle.Markup.Tag

/-!
# Elements of a markup text

The bundler knows three elements: `script` and `style`, which enclose a body, and `link`, which is
its opening tag alone.

* `Element`            an element and the byte offset it starts at;
* `scanElements`       all elements of a tag that do not start at an inert offset, ascending;
* `Element.bounds`     the byte range to remove with the element: its own or, when nothing else
  shares its lines, those lines;
* `elementText`        the written form of an element made from parts.
-/

namespace SiteBundle

open Text

/-- the elements that are looked for -/
inductive Tag where
  | script
  | style
  | link
deriving DecidableEq, Repr

/-- the tag's name in small letters -/
def Tag.name : Tag → Text
  | .script => "script".toList
  | .style => "style".toList
  | .link => "link".toList

/-- whether the element ends with a closing tag -/
def Tag.hasBody : Tag → Bool
  | .script => true
  | .style => true
  | .link => false

structure Element where
  tag : Tag
  /-- the offset of the `<` it begins with -/
  start : Nat
  parts : Enclosed
deriving DecidableEq, Repr

namespace Element

def text (e : Element) : Text := e.parts.text

def stop (e : Element) : Nat := e.start + size e.text

def attributes (e : Element) : Attributes := .parse e.parts.opening

def body (e : Element) : Text := e.parts.body

end Element

/-- an element of this tag at the front of a text -/
def Tag.read? (tag : Tag) (t : Text) : Option (Enclosed × Text) :=
  if tag.hasBody then enclosed? tag.name t
  else (openingTag? tag.name t).map fun p => (⟨p.1, [], []⟩, p.2)

/-- the elements of a tag that start outside the inert ranges -/
def scanElements (t : Text) (inert : List InertRange) (tag : Tag) : List Element :=
  ((findings (fun _ => tag.read?) t).filter fun f => !isInert inert f.1).map fun f =>
    ⟨tag, f.1, f.2⟩

/-- an element written from its attributes and its body -/
def elementText (tag : Tag) (attributes : Attributes) (body : Option Text) : Text :=
  '<' :: tag.name ++ attributes.text ++ ['>'] ++
    if tag.hasBody then body.getD [] ++ ['<', '/'] ++ tag.name ++ ['>'] else []

/-! ## Whole lines -/

structure Span where
  start : Nat
  stop : Nat
deriving DecidableEq, Repr

/-- the part of a line on one side of a place: whether it is only layout, and the offset of the line
feed that bounds it -/
structure LineSide where
  blank : Bool
  newline : Option Nat

/-- the line side at the end of a text -/
def lineBefore (front : Text) : LineSide :=
  let side := front.reverse.takeWhile (· != '\n')
  let rest := front.reverse.dropWhile (· != '\n')
  ⟨side.all isGap, if rest.isEmpty then none else some (size rest - 1)⟩

/-- the line side at the beginning of a text that starts at byte `offset` -/
def lineAfter (offset : Nat) (back : Text) : LineSide :=
  let side := back.takeWhile (· != '\n')
  let rest := back.dropWhile (· != '\n')
  ⟨side.all isGap, if rest.isEmpty then none else some (offset + size side)⟩

def Element.span (e : Element) : Span := ⟨e.start, e.stop⟩

/-- the range to remove together with the element.  With `wholeLines`, an element alone on its lines
takes them along, with the line feed before them or, on the first line, the one behind. -/
def Element.bounds (e : Element) (t : Text) (wholeLines : Bool) : Span :=
  match wholeLines, splitAt? e.start t, splitAt? e.stop t with
  | true, some (front, _), some (_, back) =>
    let before := lineBefore front
    let after := lineAfter e.stop back
    if before.blank && after.blank then
      match before.newline with
      | some newline => ⟨newline, after.newline.getD (size t)⟩
      | none => ⟨0, (after.newline.map (· + 1)).getD (size t)⟩
    else e.span
  | _, _, _ => e.span

end SiteBundle
