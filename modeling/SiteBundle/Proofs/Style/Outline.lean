import SiteBundle.Proofs.Style.Compact
import SiteBundle.Proofs.Text.Replacing

/-!
# Strings of a stylesheet, and what is open at its end

A beginning of a stylesheet may end within a comment or a string.  It is told by the strings that are
closed in it and by what is open at its end:

* `styleStrings t`   the strings of `t`, each with its quotes;
* `openAt t`         what is open at the end of `t`;
* `Outline t l o`    the text, told so, from the front on; each text has one outline (`outline_iff`);
* `Outline.append`   behind a text with a comment or nothing open, what follows is read as behind
                     `opening` alone.
-/

namespace SiteBundle

open Text

variable {c quote : Char} {m r t u x : Text} {l l' : List Text} {o o' : Option Unclosed}

/-! ## outlines -/

/-- the strings of a stylesheet, with their quotes -/
def styleStrings (t : Text) : List Text :=
  (stylePieces t).filterMap fun
    | .found _ (.quoted quote rest) => some (quote :: rest)
    | _ => none

/-- what is open at the end of a text -/
def openAt (t : Text) : Option Unclosed := (styleFault? t).map CodeFault.unclosed

/-- a text with the strings that are closed in it and with what is open at its end -/
inductive Outline : Text → List Text → Option Unclosed → Prop
  | done : Outline [] [] none
  | char {c : Char} {t : Text} {l : List Text} {o : Option Unclosed}
      (hquote : ¬ (c = '"' ∨ c = '\'')) (hslash : c = '/' → t.head? ≠ some '*')
      (h : Outline t l o) : Outline (c :: t) l o
  | comment {m t : Text} {l : List Text} {o : Option Unclosed} (hm : CommentRest m)
      (h : Outline t l o) : Outline ('/' :: '*' :: (m ++ t)) l o
  | string {quote : Char} {m t : Text} {l : List Text} {o : Option Unclosed}
      (hquote : quote = '"' ∨ quote = '\'') (hm : StringRest quote m) (h : Outline t l o) :
      Outline (quote :: (m ++ t)) ((quote :: m) :: l) o
  | openComment {r : Text} (hr : ¬ ['*', '/'] <:+: r) :
      Outline ('/' :: '*' :: r) [] (some .comment)
  | openString {quote : Char} {r : Text} (hquote : quote = '"' ∨ quote = '\'')
      (hr : quotedRest? quote r = none) : Outline (quote :: r) [] (some .string)

/-! ## each text has one outline -/

/-- the islets of a text, without their offsets -/
def islets (t : Text) : List Islet := foundIn (fun _ => islet?) t

def Islet.string? : Islet → Option Text
  | .quoted quote rest => some (quote :: rest)
  | _ => none

def Islet.open? : Islet → Option Unclosed
  | .unclosed what => some what
  | _ => none

theorem styleStrings_eq (t : Text) : styleStrings t = (islets t).filterMap Islet.string? := by
  rw [styleStrings, islets, foundIn, findings, List.map_filterMap, List.filterMap_filterMap]
  refine congrArg (List.filterMap · _) (funext fun piece => ?_)
  cases piece with
  | plain _ => rfl
  | found _ islet => cases islet <;> rfl

theorem openAt_eq (t : Text) : openAt t = (islets t).findSome? Islet.open? := by
  rw [openAt, styleFault?, islets, foundIn, findings, ← List.head?_filterMap, ← List.head?_filterMap,
    ← List.head?_map, List.map_filterMap, List.map_filterMap, List.filterMap_filterMap]
  refine congrArg (List.filterMap · _ |>.head?) (funext fun piece => ?_)
  cases piece with
  | plain _ => rfl
  | found _ islet => cases islet <;> rfl

theorem seek_comment_eq_none_iff :
    seek (readFold? ['*', '/']) t = none ↔ ¬ ['*', '/'] <:+: t := by
  rw [seek_eq_none]
  constructor
  · rintro h ⟨front, back, rfl⟩
    have hno := h front ('*' :: '/' :: back) (by simp) (List.cons_ne_nil _ _)
    exact nomatch hno.symm.trans (readFold?_commentEnd.mpr ⟨rfl, rfl⟩)
  · intro h front back heq _
    cases hread : readFold? ['*', '/'] back with
    | none => rfl
    | some p =>
      obtain ⟨m, rest⟩ := p
      obtain ⟨rfl, -⟩ := readFold?_commentEnd.mp hread
      exact absurd ⟨front, rest, by rw [heq]; simp⟩ h

/-- the islets that an outline tells -/
theorem Outline.islets (h : Outline t l o) :
    (islets t).filterMap Islet.string? = l ∧ (SiteBundle.islets t).findSome? Islet.open? = o := by
  induction h with
  | done => exact ⟨rfl, rfl⟩
  | char hquote hslash _ ih =>
    rw [SiteBundle.islets, foundIn_cons (islet?_eq_none_iff.mpr ⟨hquote, hslash⟩)]
    exact ih
  | @comment m t _ _ hm _ ih =>
    obtain ⟨inside, hread⟩ := islet?_comment hm t
    have hfound := foundIn_found (List.cons_ne_nil '/' ('*' :: m)) hread
    rw [List.cons_append, List.cons_append] at hfound
    rw [SiteBundle.islets, hfound]
    exact ih
  | @string quote m t _ _ hquote hm _ ih =>
    have hfound := foundIn_found (List.cons_ne_nil quote m) (islet?_string hquote hm t)
    rw [List.cons_append] at hfound
    rw [SiteBundle.islets, hfound]
    exact ⟨congrArg ((quote :: m) :: ·) ih.1, ih.2⟩
  | @openComment r hr =>
    have hread : islet? (('/' :: '*' :: r) ++ []) = some (.unclosed .comment, []) := by
      rw [List.append_nil, islet?, seek_comment_eq_none_iff.mpr hr]
    have hfound := foundIn_found (List.cons_ne_nil '/' ('*' :: r)) hread
    rw [List.append_nil] at hfound
    rw [SiteBundle.islets, hfound]
    exact ⟨rfl, rfl⟩
  | @openString quote r hquote hr =>
    have hread : islet? ((quote :: r) ++ []) = some (.unclosed .string, []) := by
      rw [List.append_nil]
      rcases hquote with rfl | rfl
      · rw [islet?, hr]
      · rw [islet?, hr]
    have hfound := foundIn_found (List.cons_ne_nil quote r) hread
    rw [List.append_nil] at hfound
    rw [SiteBundle.islets, hfound]
    exact ⟨rfl, rfl⟩

theorem exists_outline (t : Text) : ∃ l o, Outline t l o := by
  induction hn : t.length using Nat.strongRecOn generalizing t with
  | _ n ih =>
    cases t with
    | nil => exact ⟨_, _, .done⟩
    | cons c t =>
      by_cases hquote : c = '"' ∨ c = '\''
      · cases hread : quotedRest? c t with
        | none => exact ⟨_, _, .openString hquote hread⟩
        | some p =>
          obtain ⟨rfl, hm⟩ := stringRest_of_read (show _ = some (p.1, p.2) from hread)
          have hlt : p.2.length < n := by
            rw [← hn]
            simp only [List.length_append, List.length_cons]
            omega
          obtain ⟨l, o, h⟩ := ih p.2.length hlt p.2 rfl
          exact ⟨_, _, .string hquote hm h⟩
      · by_cases hslash : c = '/' → t.head? ≠ some '*'
        · obtain ⟨l, o, h⟩ := ih t.length (by rw [← hn]; simp) t rfl
          exact ⟨_, _, .char hquote hslash h⟩
        · simp only [not_forall, not_not] at hslash
          obtain ⟨rfl, hhead⟩ := hslash
          obtain ⟨r, rfl⟩ := List.head?_eq_some_iff.mp hhead
          cases hseek : seek (readFold? ['*', '/']) r with
          | none => exact ⟨_, _, .openComment (seek_comment_eq_none_iff.mp hseek)⟩
          | some p =>
            obtain ⟨inside, mark, rest⟩ := p
            obtain ⟨-, rfl, hno⟩ := seek_comment_eq_some_iff.mp hseek
            have hlt : rest.length < n := by
              rw [← hn]
              simp only [List.length_append, List.length_cons]
              omega
            obtain ⟨l, o, h⟩ := ih rest.length hlt rest rfl
            have hcomment := Outline.comment ⟨inside, rfl, hno⟩ h
            rw [List.append_assoc] at hcomment
            exact ⟨_, _, hcomment⟩

/-- **Each text has one outline.** -/
theorem outline_iff : Outline t l o ↔ l = styleStrings t ∧ o = openAt t := by
  have hone : ∀ {l o}, Outline t l o → l = styleStrings t ∧ o = openAt t := fun h => by
    rw [styleStrings_eq, openAt_eq]
    exact ⟨h.islets.1.symm, h.islets.2.symm⟩
  refine ⟨hone, ?_⟩
  rintro ⟨rfl, rfl⟩
  obtain ⟨l, o, h⟩ := exists_outline t
  obtain ⟨rfl, rfl⟩ := hone h
  exact h

theorem outline (t : Text) : Outline t (styleStrings t) (openAt t) := outline_iff.mpr ⟨rfl, rfl⟩

theorem openAt_eq_none_iff : openAt t = none ↔ styleFault? t = none := Option.map_eq_none_iff

/-! ## one text behind another -/

/-- what opens again what was open -/
def opening : Option Unclosed → Text
  | some .comment => ['/', '*']
  | _ => []

/-- no comment mark reaches from the one text into the other -/
def Apart (t u : Text) : Prop :=
  (∀ c ∈ t.getLast?, c ≠ '/' ∧ c ≠ '*') ∨ ∀ c ∈ u.head?, c ≠ '/' ∧ c ≠ '*'

theorem Apart.behind (h : Apart (t ++ u) x) : Apart u x := by
  rcases h with h | h
  · refine .inl fun c hc => h c ?_
    rw [List.getLast?_append, Option.mem_def.mp hc]
    rfl
  · exact .inr h

theorem Apart.of_cons (h : Apart (c :: t) x) : Apart t x := h.behind (t := [c])

theorem infix_append (ht : ¬ ['*', '/'] <:+: t) (hu : ¬ ['*', '/'] <:+: u)
    (h : Apart t u) : ¬ ['*', '/'] <:+: t ++ u := by
  rintro ⟨front, back, heq⟩
  rw [List.append_assoc] at heq
  rcases List.append_eq_append_iff.mp heq with ⟨v, rfl, hv⟩ | ⟨v, rfl, hv⟩
  · match v, hv with
    | [], hv => exact hu ⟨[], back, hv⟩
    | [d], hv =>
      obtain ⟨rfl, rfl⟩ := List.cons.inj hv
      rcases h with h | h
      · exact (h '*' (by simp)).2 rfl
      · exact (h '/' rfl).1 rfl
    | d :: e :: v, hv =>
      obtain ⟨hd, hv⟩ := List.cons.inj hv
      obtain ⟨he, -⟩ := List.cons.inj hv
      exact ht ⟨front, v, by rw [hd, he]; simp⟩
  · exact hu ⟨v, back, by rw [hv, List.append_assoc]⟩

/-- a comment is closed, or open at the end -/
theorem Outline.of_comment (h : Outline ('/' :: '*' :: x) l o) :
    (∃ m t, x = m ++ t ∧ CommentRest m ∧ Outline t l o) ∨
      ¬ ['*', '/'] <:+: x ∧ l = [] ∧ o = some .comment := by
  generalize hy : '/' :: '*' :: x = y at h
  cases h with
  | done => exact nomatch hy
  | char _ hslash _ =>
    obtain ⟨rfl, rfl⟩ := List.cons.inj hy
    exact absurd rfl (hslash rfl)
  | comment hm h =>
    obtain rfl := (List.cons.inj (List.cons.inj hy).2).2
    exact .inl ⟨_, _, rfl, hm, h⟩
  | string hquote =>
    obtain ⟨rfl, -⟩ := List.cons.inj hy
    exact absurd hquote (by decide)
  | openComment hr =>
    obtain rfl := (List.cons.inj (List.cons.inj hy).2).2
    exact .inr ⟨hr, rfl, rfl⟩
  | openString hquote =>
    obtain ⟨rfl, -⟩ := List.cons.inj hy
    exact absurd hquote (by decide)

/-- **Behind a text with a comment or nothing open.** -/
theorem Outline.append (h : Outline t l o) (ho : o ≠ some .string) (hapart : Apart t x)
    (hx : Outline (opening o ++ x) l' o') : Outline (t ++ x) (l ++ l') o' := by
  induction h with
  | done => exact hx
  | @char c t l o hquote hslash _ ih =>
    refine .char hquote ?_ (ih ho hapart.of_cons hx)
    rintro rfl
    cases t with
    | nil =>
      rcases hapart with hapart | hapart
      · exact absurd rfl (hapart '/' rfl).1
      · exact fun hhead => (hapart '*' hhead).2 rfl
    | cons d t => exact hslash rfl
  | @comment m t l o hm _ ih =>
    rw [List.cons_append, List.cons_append, List.append_assoc]
    exact .comment hm (ih ho (hapart.behind (t := '/' :: '*' :: m)) hx)
  | @string quote m t l o hquote hm _ ih =>
    rw [List.cons_append, List.append_assoc]
    exact .string hquote hm (ih ho (hapart.behind (t := quote :: m)) hx)
  | @openComment r hr =>
    have hapart : Apart r x := hapart.behind (t := ['/', '*'])
    rcases Outline.of_comment hx with ⟨m, t, rfl, ⟨inside, rfl, hno⟩, hrest⟩ | ⟨hno, rfl, rfl⟩
    · have hcomment : CommentRest (r ++ (inside ++ ['*', '/'])) := by
        refine ⟨r ++ inside, by rw [List.append_assoc], ?_⟩
        rw [List.append_assoc]
        refine infix_append hr hno (hapart.imp id fun hhead => ?_)
        cases inside with
        | nil => exact hhead
        | cons d inside => exact hhead
      have hread := Outline.comment hcomment hrest
      rw [List.append_assoc] at hread
      exact hread
    · exact .openComment (infix_append hr hno hapart)
  | openString => exact absurd rfl ho

/-- what is open where one text stands behind another, and the strings closed there -/
theorem outline_append (ho : openAt t ≠ some .string) (hapart : Apart t x) :
    styleStrings (t ++ x) = styleStrings t ++ styleStrings (opening (openAt t) ++ x) ∧
      openAt (t ++ x) = openAt (opening (openAt t) ++ x) := by
  obtain ⟨hstrings, hopen⟩ := outline_iff.mp ((outline t).append ho hapart (outline _))
  exact ⟨hstrings.symm, hopen.symm⟩

end SiteBundle
