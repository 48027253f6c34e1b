import SiteBundle.Text.Blank
import SiteBundle.Text.Word
import SiteBundle.Text.Pieces

/-!
# Tags as they are written

The readers of this file take a tag off the front of a text, exactly as written, and hand back the
text behind it.  An attribute value in quotes may hold `>`; a quote that is never closed makes the
tag unreadable.

* `openingTag?`      `<name ... >`, the name in either case;
* `closingTag?`      `</name >`, likewise;
* `anyOpeningTag?`   an opening tag of any name;
* `Enclosed`, `enclosed?`   an opening tag, the shortest body, its closing tag.

Each reader's pieces joined with what is left give the text back (`openingTag?_append`,
`closingTag?_append`).
-/

namespace SiteBundle

open Text

/-- the rest of an opening tag behind its first white space, through the `>` that ends it; inside
quotes (`quote` is the one that is open) a `>` is part of a value -/
def attributeRun? : Option Char → Text → Option (Text × Text)
  | _, [] => none
  | some q, c :: r =>
    (attributeRun? (if c = q then none else some q) r).map fun p => (c :: p.1, p.2)
  | none, c :: r =>
    if c = '>' then some (['>'], r)
    else
      (attributeRun? (if c = '"' ∨ c = '\'' then some c else none) r).map fun p => (c :: p.1, p.2)

/-- the rest of an opening tag behind its name -/
def tagEnd? : Text → Option (Text × Text)
  | [] => none
  | c :: r =>
    if c = '>' then some (['>'], r)
    else if isBlank c then (attributeRun? none r).map fun p => (c :: p.1, p.2)
    else none

/-- an opening tag of this name (in small letters) -/
def openingTag? (name t : Text) : Option (Text × Text) := do
  let (lead, r) ← readFold? ('<' :: name) t
  let (rest, r) ← tagEnd? r
  return (lead ++ rest, r)

/-- a closing tag of this name (in small letters) -/
def closingTag? (name t : Text) : Option (Text × Text) := do
  let (lead, r) ← readFold? ('<' :: '/' :: name) t
  match r.dropWhile isBlank with
  | '>' :: rest => return (lead ++ r.takeWhile isBlank ++ ['>'], rest)
  | _ => none

/-- a character of a tag name behind its first letter -/
def isTagNameChar (c : Char) : Bool :=
  isWord c || c == ':' || c == '.' || c == '-'

/-- an opening tag of any name -/
def anyOpeningTag? : Text → Option (Text × Text)
  | '<' :: c :: r =>
    if isLetter c then
      (tagEnd? (r.dropWhile isTagNameChar)).map fun p =>
        ('<' :: c :: r.takeWhile isTagNameChar ++ p.1, p.2)
    else none
  | _ => none

/-- an element as written: opening tag, body and closing tag -/
structure Enclosed where
  opening : Text
  body : Text
  closing : Text
deriving DecidableEq, Repr

def Enclosed.text (e : Enclosed) : Text := e.opening ++ e.body ++ e.closing

/-- an opening tag of this name, through the first closing tag of the name behind it -/
def enclosed? (name t : Text) : Option (Enclosed × Text) := do
  let (opening, r) ← openingTag? name t
  let (body, closing, rest) ← seek (closingTag? name) r
  return (⟨opening, body, closing⟩, rest)

/-! ## Nothing is lost -/

theorem attributeRun?_append {q : Option Char} {t m r : Text}
    (h : attributeRun? q t = some (m, r)) : m ++ r = t := by
  induction t generalizing q m with
  | nil => cases q <;> cases h
  | cons c t ih =>
    have step : ∀ q', (attributeRun? q' t).map (fun p => (c :: p.1, p.2)) = some (m, r) →
        m ++ r = c :: t := by
      intro q' h
      obtain ⟨p, hp, e⟩ := Option.map_eq_some_iff.mp h
      cases e
      rw [List.cons_append, ih hp]
    cases q with
    | some q => exact step _ h
    | none =>
      rw [attributeRun?] at h
      split at h
      · next e => cases h; rw [e]; rfl
      · exact step _ h

theorem tagEnd?_append {t m r : Text} (h : tagEnd? t = some (m, r)) : m ++ r = t := by
  cases t with
  | nil => cases h
  | cons c t =>
    rw [tagEnd?] at h
    split at h
    · next e => cases h; rw [e]; rfl
    · split at h
      · obtain ⟨p, hp, e⟩ := Option.map_eq_some_iff.mp h
        cases e
        rw [List.cons_append, attributeRun?_append hp]
      · cases h

theorem openingTag?_append {name t m r : Text} (h : openingTag? name t = some (m, r)) :
    m ++ r = t := by
  simp only [openingTag?, Option.bind_eq_bind, Option.bind_eq_some_iff, Option.pure_def,
    Option.some.injEq, Prod.mk.injEq, Prod.exists] at h
  obtain ⟨lead, r1, h1, rest, r2, h2, rfl, rfl⟩ := h
  rw [List.append_assoc, tagEnd?_append h2, readFold?_append h1]

theorem closingTag?_append {name t m r : Text} (h : closingTag? name t = some (m, r)) :
    m ++ r = t := by
  simp only [closingTag?, Option.bind_eq_bind, Option.bind_eq_some_iff, Prod.exists] at h
  obtain ⟨lead, r1, h1, h2⟩ := h
  split at h2
  · next rest e =>
    cases h2
    rw [List.append_assoc, List.append_assoc, List.cons_append, List.nil_append, ← e,
      List.takeWhile_append_dropWhile, readFold?_append h1]
  · cases h2

end SiteBundle
