import SiteBundle.Glob.Table
import SiteBundle.Proofs.Text.Bytes

/-!
# Matching longer paths

`Longer u k l` says that the condition `l` allows `u` behind whatever the condition `k` allows.  The
tokens of a pattern carry it to the paths that they match (`longer_tokens`), so a pattern whose rest
allows more matches longer paths.

Everything below (`.deepEnd`) allows whatever stands behind a slash: tokens with it at their end match
what is below a path that the tokens without it match (`accepts_deepEnd_append`), and what is below a
path that they match themselves (`accepts_append_of_deepEnd`).
-/

namespace SiteBundle

open Text

/-! ## bytes -/

theorem Utf8.bytes_slash : Utf8.bytes ['/'] = [0x2F] := by decide +kernel

/-! ## conditions -/

/-- `l` allows `u` behind whatever `k` allows -/
def Longer (u : List UInt8) (k l : List UInt8 → Bool) : Prop := ∀ s, k s = true → l (s ++ u) = true

variable {u : List UInt8} {k l : List UInt8 → Bool}

theorem someEnd_of {s : List UInt8} (h : k s = true) : someEnd k s = true := by
  cases s with
  | nil => exact h
  | cons b r => rw [someEnd, h, Bool.true_or]

theorem longer_someEnd (h : Longer u k l) : Longer u (someEnd k) (someEnd l) := by
  intro s hs
  induction s with
  | nil => exact someEnd_of (h [] hs)
  | cons b r ih =>
    rw [someEnd, Bool.or_eq_true] at hs
    rw [List.cons_append, someEnd, Bool.or_eq_true]
    exact hs.imp (h (b :: r)) ih

theorem longer_someEndBehindSlash (h : Longer u k l) :
    Longer u (someEndBehindSlash k) (someEndBehindSlash l) := by
  intro s hs
  induction s with
  | nil => exact nomatch hs
  | cons b r ih =>
    rw [someEndBehindSlash, Bool.or_eq_true, Bool.and_eq_true] at hs
    rw [List.cons_append, someEndBehindSlash, Bool.or_eq_true, Bool.and_eq_true]
    exact hs.imp (And.imp_right (h r)) ih

theorem longer_behindLead (h : Longer u k l) (lead : List UInt8) :
    Longer u (behindLead k lead) (behindLead l lead) := by
  intro s hs
  induction lead generalizing s with
  | nil =>
    rw [behindLead] at hs ⊢
    exact h s hs
  | cons a lead ih =>
    cases s with
    | nil => exact nomatch hs
    | cons b r =>
      rw [behindLead, Bool.and_eq_true] at hs
      rw [List.cons_append, behindLead, Bool.and_eq_true]
      exact ⟨hs.1, ih r hs.2⟩

/-- the same for a condition that asks for one byte first -/
theorem longer_step (p : UInt8 → Bool) (h : Longer u k l) : Longer u
    (fun s => match s with
      | [] => false
      | b :: r => p b && k r)
    (fun s => match s with
      | [] => false
      | b :: r => p b && l r) := by
  intro s hs
  cases s with
  | nil => exact nomatch hs
  | cons b r =>
    obtain ⟨hb, hr⟩ := Bool.and_eq_true_iff.mp hs
    exact Bool.and_eq_true_iff.mpr ⟨hb, h r hr⟩

theorem longer_or {k' l' : List UInt8 → Bool} (h : Longer u k l) (h' : Longer u k' l') :
    Longer u (fun s => k s || k' s) (fun s => l s || l' s) := by
  intro s hs
  rw [Bool.or_eq_true] at hs ⊢
  exact hs.imp (h s) (h' s)

/-! ## tokens -/

mutual

theorem longer_token (u : List UInt8) {k l : List UInt8 → Bool} (h : Longer u k l) :
    ∀ t : GlobToken, Longer u (t.accepts k) (t.accepts l)
  | .literal c => longer_behindLead h (Utf8.bytes [c])
  | .anyByte => longer_step (fun _ => true) h
  | .star => longer_someEnd h
  | .deepStart => longer_or h (longer_someEndBehindSlash h)
  | .deepEnd => longer_step (· == 0x2F) (longer_someEnd h)
  | .deepMiddle => longer_step (· == 0x2F) (longer_or h (longer_someEndBehindSlash h))
  | .oneOf negated ranges => longer_step (classHolds ranges · != negated) h
  | .choice branches => fun s hs => by
    rw [GlobToken.accepts] at hs ⊢
    split
    · rename_i hvoid
      rw [if_pos hvoid] at hs
      exact h s hs
    · rename_i hvoid
      rw [if_neg hvoid] at hs
      exact longer_branches u h branches s hs

/-- tokens whose rest allows more match longer paths -/
theorem longer_tokens (u : List UInt8) {k l : List UInt8 → Bool} (h : Longer u k l) :
    ∀ tokens : List GlobToken, Longer u (acceptsTokens tokens k) (acceptsTokens tokens l)
  | [] => h
  | t :: r => longer_token u (longer_tokens u h r) t

theorem longer_branches (u : List UInt8) {k l : List UInt8 → Bool} (h : Longer u k l) :
    ∀ branches : List (List GlobToken), Longer u (acceptsBranch branches k) (acceptsBranch branches l)
  | [] => fun _ hs => nomatch hs
  | b :: r => fun s hs => by
    rw [acceptsBranch, Bool.or_eq_true, Bool.and_eq_true] at hs ⊢
    exact hs.imp (And.imp_right (longer_tokens u h b s)) (longer_branches u h r s)

end

theorem acceptsTokens_append (a b : List GlobToken) (k : List UInt8 → Bool) (s : List UInt8) :
    acceptsTokens (a ++ b) k s = acceptsTokens a (acceptsTokens b k) s := by
  induction a generalizing s with
  | nil => rw [List.nil_append, acceptsTokens]
  | cons t r ih =>
    rw [List.cons_append, acceptsTokens, acceptsTokens]
    exact congrArg (fun f => t.accepts f s) (funext ih)

/-! ## everything below -/

theorem someEnd_isEmpty (s : List UInt8) : someEnd List.isEmpty s = true := by
  induction s with
  | nil => rfl
  | cons b r ih => rw [someEnd, ih, Bool.or_true]

theorem acceptsTokens_deepEnd (r : List UInt8) :
    acceptsTokens [.deepEnd] List.isEmpty (0x2F :: r) = true := by
  show (0x2F == 0x2F && someEnd _ r) = true
  rw [show (fun s => acceptsTokens [] List.isEmpty s) = List.isEmpty from rfl, someEnd_isEmpty]
  rfl

/-- what is below a path that the tokens match -/
theorem accepts_deepEnd_append {tokens : List GlobToken} {s : List UInt8}
    (h : acceptsTokens tokens List.isEmpty s = true) (r : List UInt8) :
    acceptsTokens (tokens ++ [.deepEnd]) List.isEmpty (s ++ 0x2F :: r) = true := by
  have hlonger : Longer (0x2F :: r) List.isEmpty (acceptsTokens [.deepEnd] List.isEmpty) := by
    intro s hs
    rw [List.isEmpty_iff.mp hs]
    exact acceptsTokens_deepEnd r
  rw [acceptsTokens_append]
  exact longer_tokens _ hlonger tokens s h

/-- tokens that end with everything below match what is below the paths that they match -/
theorem accepts_append_of_deepEnd {tokens : List GlobToken} {s : List UInt8}
    (h : acceptsTokens (tokens ++ [.deepEnd]) List.isEmpty s = true) (u : List UInt8) :
    acceptsTokens (tokens ++ [.deepEnd]) List.isEmpty (s ++ u) = true := by
  have hlonger : Longer u (acceptsTokens [.deepEnd] List.isEmpty)
      (acceptsTokens [.deepEnd] List.isEmpty) := by
    intro s hs
    cases s with
    | nil => exact nomatch hs
    | cons b r =>
      obtain rfl : b = 0x2F := eq_of_beq (Bool.and_eq_true_iff.mp hs).1
      exact acceptsTokens_deepEnd (r ++ u)
  rw [acceptsTokens_append] at h ⊢
  exact longer_tokens u hlonger tokens s h

end SiteBundle
