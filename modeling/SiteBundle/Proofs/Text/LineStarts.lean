import Mathlib.Data.List.Forall2
import SiteBundle.Proofs.Text.Findings
import SiteBundle.Proofs.Text.Reading

/-!
# The beginnings of lines

A search with a pattern that reads only where a line begins leaves the other lines as they are: what
stands at the beginning of a line is changed only when it is found there, or when something was found
before it on its line and nothing is left in its place.

* `firstLine`        a text up to its first line feed;
* `Starts P b t`     `P` holds at each beginning of a line; `b` says whether one begins at the front;
* `Meets p P s t`    a search comes by the beginning of a line where `P` holds;
* `AtLines p`        the pattern reads only where a line begins;
* `firstLine_flatten`, `flatten_of_none`   what a search leaves as it is;
* `starts_flatten`   what the beginnings of lines are like when the findings are replaced.
-/

namespace SiteBundle.Text

variable {α : Type}

/-! ## first lines -/

def firstLine (t : Text) : Text := t.takeWhile (· != '\n')

/-- a text up to its first line feed, if it has one -/
theorem firstLine_cases (l : Text) : '\n' ∉ firstLine l ∧
    (l = firstLine l ∧ l.dropWhile (· != '\n') = [] ∨
      ∃ rest, l = firstLine l ++ '\n' :: rest ∧ l.dropWhile (· != '\n') = '\n' :: rest) := by
  unfold firstLine
  induction l with
  | nil => exact ⟨List.not_mem_nil, .inl ⟨rfl, rfl⟩⟩
  | cons c l ih =>
    by_cases hc : c = '\n'
    · subst hc
      exact ⟨List.not_mem_nil, .inr ⟨l, rfl, rfl⟩⟩
    · have hb : (c != '\n') = true := bne_iff_ne.mpr hc
      rw [List.takeWhile_cons_of_pos (p := (· != '\n')) hb,
        List.dropWhile_cons_of_pos (p := (· != '\n')) hb]
      obtain ⟨hnot, hcase⟩ := ih
      refine ⟨fun h => ?_, ?_⟩
      · rcases List.mem_cons.mp h with h | h
        · exact hc h.symm
        · exact hnot h
      · rcases hcase with ⟨h1, h2⟩ | ⟨rest, h1, h2⟩
        · exact .inl ⟨congrArg (c :: ·) h1, h2⟩
        · exact .inr ⟨rest, congrArg (c :: ·) h1, h2⟩

theorem firstLine_newline (t : Text) : firstLine ('\n' :: t) = [] := rfl

theorem firstLine_append {l : Text} (hl : '\n' ∉ l) (t : Text) :
    firstLine (l ++ t) = l ++ firstLine t :=
  List.takeWhile_append_of_pos fun _ hc => bne_iff_ne.mpr fun e => hl (e ▸ hc)

theorem firstLine_cons {c : Char} (hc : c ≠ '\n') (t : Text) :
    firstLine (c :: t) = c :: firstLine t :=
  firstLine_append (l := [c]) (fun h => hc (List.mem_singleton.mp h).symm) t

theorem firstLine_cons_congr {c : Char} {t u : Text} (h : c ≠ '\n' → firstLine t = firstLine u) :
    firstLine (c :: t) = firstLine (c :: u) := by
  by_cases hc : c = '\n'
  · rw [hc, firstLine_newline, firstLine_newline]
  · rw [firstLine_cons hc, firstLine_cons hc, h hc]

/-- a text is its first line, or goes on behind it -/
theorem firstLine_eq_or (t : Text) : t = firstLine t ∨ ∃ rest, t = firstLine t ++ '\n' :: rest := by
  rcases (firstLine_cases t).2 with ⟨h, -⟩ | ⟨rest, h, -⟩
  · exact .inl h
  · exact .inr ⟨rest, h⟩

theorem exists_firstLine_append (t : Text) : ∃ u, t = firstLine t ++ u :=
  ⟨t.dropWhile (· != '\n'), List.takeWhile_append_dropWhile.symm⟩

/-- induction line by line -/
theorem lines_induction {motive : Text → Prop} (last : ∀ l, '\n' ∉ l → motive l)
    (line : ∀ l t, '\n' ∉ l → motive t → motive (l ++ '\n' :: t)) (t : Text) : motive t := by
  induction hn : t.length using Nat.strongRecOn generalizing t with
  | _ n ih =>
    obtain ⟨hnot, ⟨h, -⟩ | ⟨rest, h, -⟩⟩ := firstLine_cases t
    · exact h ▸ last _ hnot
    · rw [h]
      refine line _ rest hnot (ih rest.length ?_ rest rfl)
      rw [← hn, h, List.length_append, List.length_cons]
      omega

/-! ## beginnings of lines -/

/-- `P` holds of what stands at each beginning of a line; `b` says whether one begins at the front -/
def Starts (P : Text → Prop) : Bool → Text → Prop
  | b, [] => b = true → P []
  | b, c :: t => (b = true → P (c :: t)) ∧ Starts P (c == '\n') t

section
variable {P Q : Text → Prop} {b : Bool} {t : Text} {s : Spot}

theorem starts_true : Starts P true t ↔ P t ∧ Starts P false t := by
  cases t with
  | nil => exact ⟨fun h => ⟨h rfl, nofun⟩, fun h _ => h.1⟩
  | cons c t => exact ⟨fun h => ⟨h.1 rfl, nofun, h.2⟩, fun h => ⟨fun _ => h.1, h.2.2⟩⟩

theorem Starts.head (h : Starts P b t) (hb : b = true) : P t := by
  subst hb
  exact (starts_true.mp h).1

theorem Starts.inner (h : Starts P b t) : Starts P false t := by
  cases b with
  | false => exact h
  | true => exact (starts_true.mp h).2

theorem Starts.rest {m : Text} (h : Starts P s.atLineStart (m ++ t)) :
    Starts P (s.over m).atLineStart t := by
  induction m generalizing s with
  | nil => exact h
  | cons c m ih => exact ih (s := s.next c) h.2

theorem Starts.behind {l : Text} (h : Starts P b (l ++ t)) : Starts P false t := by
  induction l generalizing b with
  | nil => exact h.inner
  | cons c l ih => exact ih h.2

theorem starts_append {m : Text} (hm : ∀ m₁ m₂, m = m₁ ++ m₂ → m₂ ≠ [] → P (m₂ ++ t))
    (h : Starts P (s.over m).atLineStart t) : Starts P s.atLineStart (m ++ t) := by
  induction m generalizing s with
  | nil => exact h
  | cons c m ih =>
    refine ⟨fun _ => hm [] (c :: m) rfl (List.cons_ne_nil _ _), ?_⟩
    exact ih (s := s.next c) (fun m₁ m₂ e => hm (c :: m₁) m₂ (congrArg (c :: ·) e)) h

theorem Starts.prepend {l : Text} (hl : '\n' ∉ l) (h : Starts P false t) :
    Starts P false (l ++ t) := by
  induction l with
  | nil => exact h
  | cons c l ih =>
    obtain ⟨hc, hl⟩ := List.ne_and_not_mem_of_not_mem_cons hl
    refine ⟨nofun, ?_⟩
    rw [beq_eq_false_iff_ne.mpr hc.symm]
    exact ih hl

/-- one line after the other -/
theorem Starts.line {l : Text} (hl : '\n' ∉ l) (hP : P (l ++ '\n' :: t)) (h : Starts P true t) :
    Starts P true (l ++ '\n' :: t) :=
  starts_true.mpr ⟨hP, Starts.prepend hl ⟨nofun, h⟩⟩

theorem starts_of_not_mem {l : Text} (hl : '\n' ∉ l) (hP : P l) : Starts P true l := by
  have h : Starts P false (l ++ []) := Starts.prepend hl nofun
  rw [List.append_nil] at h
  exact starts_true.mpr ⟨hP, h⟩

theorem Starts.mono (h : Starts P b t) (hPQ : ∀ t, P t → Q t) : Starts Q b t := by
  induction t generalizing b with
  | nil => exact fun hb => hPQ _ (h hb)
  | cons c t ih => exact ⟨fun hb => hPQ _ (h.1 hb), ih h.2⟩

theorem Starts.and (h : Starts P b t) (h' : Starts Q b t) : Starts (fun t => P t ∧ Q t) b t := by
  induction t generalizing b with
  | nil => exact fun hb => ⟨h hb, h' hb⟩
  | cons c t ih => exact ⟨fun hb => ⟨h.1 hb, h'.1 hb⟩, ih h.2 h'.2⟩

/-- a text without a line feed is put where a line begins -/
theorem Starts.put {l : Text} (hl : '\n' ∉ l) (hP : P (l ++ firstLine t))
    (h : Starts (fun t => P (firstLine t)) false t) :
    Starts (fun t => P (firstLine t)) true (l ++ t) :=
  starts_true.mpr ⟨by rwa [firstLine_append hl], h.prepend hl⟩

theorem atLineStart_over_concat (s : Spot) (m : Text) (c : Char) :
    (s.over (m ++ [c])).atLineStart = (c == '\n') := by
  rw [Spot.over_append]
  rfl

/-- what holds of the first line wherever a line begins holds of all lines -/
theorem Starts.forall_lines (h : Starts (fun t => P (firstLine t)) true t) :
    ∀ l ∈ splitOn '\n' t, P l := by
  induction t using lines_induction with
  | last l hl =>
    intro x hx
    rw [splitOn_of_not_mem hl, List.mem_singleton] at hx
    have hfirst := firstLine_append hl []
    rw [List.append_nil] at hfirst
    rw [hx]
    have hhead := h.head rfl
    rwa [hfirst, show firstLine [] = [] from rfl, List.append_nil] at hhead
  | line l t hl ih =>
    have hrest : Starts (fun t => P (firstLine t)) true t := by
      have := Starts.rest (s := .start) (m := l ++ ['\n']) (t := t)
        (P := fun t => P (firstLine t)) (by rw [List.append_assoc]; exact h)
      rw [atLineStart_over_concat] at this
      exact this
    rw [splitOn_append, splitOn_of_not_mem hl]
    refine List.forall_mem_cons.mpr ⟨?_, ih hrest⟩
    have hhead := h.head rfl
    rwa [firstLine_append hl, firstLine_newline, List.append_nil] at hhead

end

/-- a search with the pattern comes by the beginning of a line where `P` holds -/
inductive Meets (p : Spot → Text → Option (α × Text)) (P : Text → Prop) : Spot → Text → Prop
  | here {s : Spot} {t : Text} (hs : s.atLineStart = true) (h : P t) : Meets p P s t
  | plain {s : Spot} {c : Char} {t : Text} (hno : p s (c :: t) = none) (h : Meets p P (s.next c) t) :
      Meets p P s (c :: t)
  | found {s : Spot} {m rest : Text} {a : α} (hm : m ≠ []) (hread : p s (m ++ rest) = some (a, rest))
      (h : Meets p P (s.over m) rest) : Meets p P s (m ++ rest)

/-! ## patterns that read where a line begins -/

def AtLines (p : Spot → Text → Option (α × Text)) : Prop :=
  ∀ s t, p s t = if s.atLineStart then p .start t else none

section
variable {p : Spot → Text → Option (α × Text)} (hp : AtLines p)
include hp

theorem AtLines.eq_start {s : Spot} (hs : s.atLineStart = true) (t : Text) :
    p s t = p .start t := by
  rw [hp, if_pos hs]

theorem AtLines.eq_none {s : Spot} (hs : s.atLineStart = false) (t : Text) : p s t = none := by
  rw [hp, hs]
  exact if_neg nofun

variable {R : Piece α → Text → Prop} (hR : ∀ c part, R (.plain c) part → part = [c])
include hR

/-- the rest of a line is left as it is -/
theorem firstLine_flatten {s : Spot} (hs : s.atLineStart = false) {t : Text} {parts : List Text}
    (h : List.Forall₂ R (piecesFrom p s 0 t) parts) : firstLine parts.flatten = firstLine t := by
  induction t generalizing s parts with
  | nil =>
    cases h
    rfl
  | cons c t ih =>
    rw [piecesFrom, hp.eq_none hs] at h
    cases h with
    | cons hpart hparts =>
      rw [List.flatten_cons, hR _ _ hpart, List.singleton_append]
      exact firstLine_cons_congr fun hc =>
        ih (s := s.next c) (beq_eq_false_iff_ne.mpr hc) hparts

theorem firstLine_flatten_of_none {s : Spot} {t : Text} {parts : List Text}
    (hno : p s t = none) (h : List.Forall₂ R (piecesFrom p s 0 t) parts) :
    firstLine parts.flatten = firstLine t := by
  cases t with
  | nil =>
    cases h
    rfl
  | cons c t =>
    rw [piecesFrom, hno] at h
    cases h with
    | cons hpart hparts =>
      rw [List.flatten_cons, hR _ _ hpart, List.singleton_append]
      exact firstLine_cons_congr fun hc =>
        firstLine_flatten hp hR (s := s.next c) (beq_eq_false_iff_ne.mpr hc) hparts

omit hp in
/-- so is a front part where nothing is found -/
theorem flatten_of_none {s : Spot} {m t : Text} {parts : List Text}
    (hno : ∀ m₁ m₂, m = m₁ ++ m₂ → m₂ ≠ [] → p (s.over m₁) (m₂ ++ t) = none)
    (h : List.Forall₂ R (piecesFrom p s 0 (m ++ t)) parts) :
    ∃ parts', List.Forall₂ R (piecesFrom p (s.over m) 0 t) parts' ∧
      parts.flatten = m ++ parts'.flatten := by
  induction m generalizing s parts with
  | nil => exact ⟨parts, h, rfl⟩
  | cons c m ih =>
    have hc := hno [] (c :: m) rfl (List.cons_ne_nil _ _)
    rw [List.cons_append] at h hc
    rw [piecesFrom, show p s (c :: (m ++ t)) = none from hc] at h
    cases h with
    | cons hpart hparts =>
      obtain ⟨parts', hparts', heq⟩ := ih (s := s.next c)
        (fun m₁ m₂ e => hno (c :: m₁) m₂ (congrArg (c :: ·) e)) hparts
      exact ⟨parts', hparts', by rw [List.flatten_cons, hR _ _ hpart, heq]; rfl⟩

/-- What stands at the beginnings of lines when the findings are replaced: `Before` holds there at
first and `After` in the end.  `keep` is about beginnings where nothing is found, and `found` about the
others: there a text with beginnings of its own is put, or nothing, and then the rest of the line comes
to stand there, of which `Line` holds. -/
theorem starts_flatten (htakes : Takes p) (Before After Line : Text → Prop)
    (hline : ∀ t, Line (firstLine t) → After t)
    (keep : ∀ (s : Spot) t parts, s.atLineStart = true → p .start t = none → Before t →
      List.Forall₂ R (piecesFrom p s 0 t) parts → After parts.flatten)
    (found : ∀ (s : Spot) m rest o a part, s.atLineStart = true → p .start (m ++ rest) = some (a, rest) →
      Starts Before s.atLineStart (m ++ rest) → R (.found o a) part →
      (part = [] ∧ ((s.over m).atLineStart = true ∨ Line (firstLine rest))) ∨
        ∀ u, Starts After false u → Starts After true (part ++ u))
    {s : Spot} {t : Text} {parts : List Text} (h : List.Forall₂ R (piecesFrom p s 0 t) parts)
    (hb : Starts Before s.atLineStart t) : Starts After false parts.flatten ∧
      (s.atLineStart = true ∨ Line (firstLine t) → After parts.flatten) := by
  refine findings_induction (reads_withTaken htakes) (motive := fun s t => ∀ parts,
    List.Forall₂ R (piecesFrom p s 0 t) parts → Starts Before s.atLineStart t →
    Starts After false parts.flatten ∧ (s.atLineStart = true ∨ Line (firstLine t) →
      After parts.flatten)) ?_ ?_ ?_ s t parts h hb
  · intro s parts h hb
    cases h
    refine ⟨fun h => absurd h Bool.false_ne_true, fun hs => hs.elim (fun hs => ?_) (hline [])⟩
    cases hp' : p .start [] with
    | none => exact keep s [] [] hs hp' (hb.head hs) .nil
    | some r =>
      obtain ⟨m, hm, heq⟩ := htakes _ _ _ _ hp'
      exact absurd (List.append_eq_nil_iff.mp heq.symm).1 hm
  · intro s c t hno ih parts h hb
    have hno : p s (c :: t) = none := Option.map_eq_none_iff.mp hno
    have hpieces : piecesFrom p s 0 (c :: t) = .plain c :: piecesFrom p (s.next c) 0 t := by
      rw [piecesFrom, hno]
    have hall := h
    rw [hpieces] at h
    cases h with
    | cons hpart hparts =>
      obtain ⟨hinner, hhead⟩ := ih _ hparts hb.2
      rw [List.flatten_cons, hR _ _ hpart, List.singleton_append]
      refine ⟨⟨fun h => absurd h Bool.false_ne_true, ?_⟩, ?_⟩
      · cases hc : c == '\n' with
        | false => exact hinner
        | true => exact starts_true.mpr ⟨hhead (.inl hc), hinner⟩
      · intro hs
        cases hstart : s.atLineStart with
        | true =>
          rw [hp.eq_start hstart] at hno
          have := keep s (c :: t) _ hstart hno (hb.head hstart) hall
          rwa [List.flatten_cons, hR _ _ hpart, List.singleton_append] at this
        | false =>
          refine hline _ ?_
          have := firstLine_flatten hp hR hstart hall
          rw [List.flatten_cons, hR _ _ hpart, List.singleton_append] at this
          rw [this]
          exact hs.resolve_left (by rw [hstart]; exact Bool.false_ne_true)
  · rintro s ⟨a, m⟩ rest hread hm ih parts h hb
    have hread : p s (m ++ rest) = some (a, rest) := withTaken_eq_some.mp hread
    have hstart : s.atLineStart = true := by
      cases hs : s.atLineStart with
      | true => rfl
      | false => cases (hp.eq_none hs _).symm.trans hread
    rw [piecesFrom_found hm hread] at h
    cases h with
    | @cons _ part _ parts hpart hparts =>
      obtain ⟨hinner, hhead⟩ := ih _ hparts hb.rest
      rw [hp.eq_start hstart] at hread
      rw [List.flatten_cons]
      rcases found s m rest s.offset a part hstart hread hb hpart with ⟨rfl, hrest⟩ | hpart
      · exact ⟨hinner, fun _ => hhead hrest⟩
      · obtain ⟨h₁, h₂⟩ := starts_true.mp (hpart _ hinner)
        exact ⟨h₂, fun _ => h₁⟩

end
end SiteBundle.Text
