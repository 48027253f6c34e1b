import SiteBundle.Text.Basic

/-!
# Bytes as text

`Utf8.decode` reads bytes as UTF-8.  It yields one entry for each character and `none` for each
malformed stretch; a malformed stretch is the longest beginning of a well-formed character that is
not continued as it should be, or a single byte that begins no character.

* `Utf8.text?`      the text, if nothing is malformed;
* `Utf8.lossyText`  the text with a replacement character for each malformed stretch.
-/

namespace SiteBundle.Utf8

/-- what the first byte of a character says: the number of bytes that follow, the range of the next
one, and the bits it brings along; `none` when it begins no character -/
def lead? (b : UInt8) : Option (Nat × UInt8 × UInt8 × Nat) :=
  let n := b.toNat
  if n < 0x80 then some (0, 0, 0, n)
  else if n < 0xC2 then none
  else if n < 0xE0 then some (1, 0x80, 0xBF, n - 0xC0)
  else if n = 0xE0 then some (2, 0xA0, 0xBF, 0)
  else if n = 0xED then some (2, 0x80, 0x9F, n - 0xE0)
  else if n < 0xF0 then some (2, 0x80, 0xBF, n - 0xE0)
  else if n = 0xF0 then some (3, 0x90, 0xBF, 0)
  else if n < 0xF4 then some (3, 0x80, 0xBF, n - 0xF0)
  else if n = 0xF4 then some (3, 0x80, 0x8F, n - 0xF0)
  else none

/-- a character being read: how many bytes are missing, the range of the next one, the bits so far -/
structure Pending where
  missing : Nat
  low : UInt8
  high : UInt8
  bits : Nat

/-- reading begins or begins anew with this byte -/
def begin (b : UInt8) : Option (Option Char) × Option Pending :=
  match lead? b with
  | none => (some none, none)
  | some (0, _, _, bits) => (some (some (Char.ofNat bits)), none)
  | some (missing, low, high, bits) => (none, some ⟨missing, low, high, bits⟩)

/-- the characters and malformed stretches of the bytes -/
def decode : Option Pending → List UInt8 → List (Option Char)
  | none, [] => []
  | some _, [] => [none]
  | none, b :: r =>
    match begin b with
    | (some item, _) => item :: decode none r
    | (none, pending) => decode pending r
  | some p, b :: r =>
    if p.low ≤ b && b ≤ p.high then
      let bits := p.bits * 64 + (b.toNat - 0x80)
      if p.missing ≤ 1 then some (Char.ofNat bits) :: decode none r
      else decode (some ⟨p.missing - 1, 0x80, 0xBF, bits⟩) r
    else
      match begin b with
      | (some item, _) => none :: item :: decode none r
      | (none, pending) => none :: decode pending r

/-- the text of well-formed bytes -/
def text? (bytes : List UInt8) : Option Text := (decode none bytes).mapM id

/-- the text, each malformed stretch as one replacement character -/
def lossyText (bytes : List UInt8) : Text := (decode none bytes).map (·.getD '\uFFFD')

/-- the bytes of a text -/
def bytes (t : Text) : List UInt8 := (String.ofList t).toUTF8.toList

end SiteBundle.Utf8
