import SiteBundle.Text.Basic

/-!
# Letter case

Tag names, markers and URL schemes are compared without regard to case.  Two letters agree when
simple case folding maps them to the same letter; over the ASCII letters that pairs each small
letter with its capital, and besides these two characters outside ASCII fold to one: the long s
(`ſ`, U+017F) to `s` and the Kelvin sign (U+212A) to `k`.
-/

namespace SiteBundle.Text

/-- ASCII capitals become small letters, all else stays -/
def lowerChar (c : Char) : Char :=
  if 'A' ≤ c ∧ c ≤ 'Z' then Char.ofNat (c.toNat + 32) else c

/-- `lowerChar` of every character -/
def lower (t : Text) : Text := t.map lowerChar

/-- simple case folding, as far as it reaches ASCII -/
def foldChar (c : Char) : Char :=
  if c = '\u017F' then 's' else if c = '\u212A' then 'k' else lowerChar c

def isLetter (c : Char) : Bool := ('a' ≤ c && c ≤ 'z') || ('A' ≤ c && c ≤ 'Z')

def isDigit (c : Char) : Bool := '0' ≤ c && c ≤ '9'

/-- the text behind a leading `lead` -/
def dropLead? : Text → Text → Option Text
  | [], t => some t
  | _ :: _, [] => none
  | l :: lead, c :: r => if c = l then dropLead? lead r else none

/-- a leading `lead` (small letters) read in either case, as it is written, and the text behind -/
def readFold? : Text → Text → Option (Text × Text)
  | [], t => some ([], t)
  | _ :: _, [] => none
  | l :: lead, c :: r =>
    if foldChar c = l then (readFold? lead r).map fun p => (c :: p.1, p.2) else none

/-- what is read and what is left make up the text -/
theorem readFold?_append {lead t m r : Text} (h : readFold? lead t = some (m, r)) : m ++ r = t := by
  induction lead generalizing t m with
  | nil => cases h; rfl
  | cons l lead ih =>
    cases t with
    | nil => cases h
    | cons c t =>
      rw [readFold?] at h
      split at h
      · obtain ⟨p, hp, e⟩ := Option.map_eq_some_iff.mp h
        cases e
        rw [List.cons_append, ih hp]
      · cases h

theorem dropLead?_append {lead t r : Text} (h : dropLead? lead t = some r) : lead ++ r = t := by
  induction lead generalizing t with
  | nil => cases h; rfl
  | cons l lead ih =>
    cases t with
    | nil => cases h
    | cons c t =>
      rw [dropLead?] at h
      split at h
      · next e => rw [List.cons_append, ih h, e]
      · cases h

theorem dropLead?_self (lead t : Text) : dropLead? lead (lead ++ t) = some t := by
  induction lead with
  | nil => rfl
  | cons c lead ih => rw [List.cons_append, dropLead?, if_pos rfl, ih]

def hasLead (lead t : Text) : Bool := (dropLead? lead t).isSome

theorem hasLead_iff {lead t : Text} : hasLead lead t = true ↔ lead <+: t := by
  rw [hasLead, Option.isSome_iff_exists]
  constructor
  · exact fun ⟨r, h⟩ => ⟨r, dropLead?_append h⟩
  · rintro ⟨r, rfl⟩
    exact ⟨r, dropLead?_self lead r⟩

end SiteBundle.Text
