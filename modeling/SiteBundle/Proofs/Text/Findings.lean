import SiteBundle.Proofs.StableSort
import SiteBundle.Proofs.Text.Offsets
import SiteBundle.Text.Pieces

/-!
# What a search finds and where

A pattern reads something off the front of a text; `Reads p f` says that it takes a nonempty part,
`f` of what it reports, and hands back the rest.  A search with such a pattern (`findingsFrom`)
passes over a character where nothing is found, and behind a finding goes on with what is left.

* `findingsFrom_none`, `findingsFrom_some`   these two steps;
* `findings_induction`    induction along them;
* `mem_findingsFrom`, `mem_findings`   a finding stands in the text at its offset, read there by the
  pattern;
* `pairwise_findingsFrom` findings follow each other without overlap;
* `exists_finding_over`   no place where the pattern reads is outside all findings;
* `mem_or_inside_of_read`, `le_of_mem_findingsFrom_of_lt`   it is the place of one or inside one, never
  both.

A pattern that does not report what it takes is looked at together with it (`withTaken`).
-/

namespace SiteBundle.Text

variable {α : Type}

def Spot.over (s : Spot) (t : Text) : Spot := t.foldl Spot.next s

theorem Spot.over_append (s : Spot) (t u : Text) : s.over (t ++ u) = (s.over t).over u :=
  List.foldl_append

theorem Spot.offset_over (s : Spot) (t : Text) : (s.over t).offset = s.offset + size t := by
  induction t generalizing s with
  | nil => rfl
  | cons c t ih =>
    show ((s.next c).over t).offset = _
    rw [ih, size_cons]
    show s.offset + c.utf8Size + size t = _
    omega

theorem Spot.offset_start_over (t : Text) : (Spot.start.over t).offset = size t := by
  rw [Spot.offset_over]
  exact Nat.zero_add _

def Reads (p : Spot → Text → Option (α × Text)) (f : α → Text) : Prop :=
  ∀ s t a rest, p s t = some (a, rest) → t = f a ++ rest ∧ f a ≠ []

/-- the findings from one position on -/
def findingsFrom (p : Spot → Text → Option (α × Text)) (s : Spot) (t : Text) : List (Nat × α) :=
  (piecesFrom p s 0 t).filterMap fun
    | .plain _ => none
    | .found offset a => some (offset, a)

theorem piecesFrom_skip (p : Spot → Text → Option (α × Text)) (s : Spot) (m t : Text) :
    piecesFrom p s m.length (m ++ t) = piecesFrom p (s.over m) 0 t := by
  induction m generalizing s with
  | nil => rfl
  | cons c m ih =>
    show piecesFrom p s (m.length + 1) (c :: (m ++ t)) = _
    rw [piecesFrom, ih]
    rfl

theorem piecesFrom_none {p : Spot → Text → Option (α × Text)} {s : Spot} {c : Char} {t : Text}
    (h : p s (c :: t) = none) :
    piecesFrom p s 0 (c :: t) = .plain c :: piecesFrom p (s.next c) 0 t := by
  rw [piecesFrom, h]

theorem findingsFrom_none {p : Spot → Text → Option (α × Text)} {s : Spot} {c : Char} {t : Text}
    (h : p s (c :: t) = none) : findingsFrom p s (c :: t) = findingsFrom p (s.next c) t := by
  unfold findingsFrom
  rw [piecesFrom_none h]
  rfl

theorem piecesFrom_found {p : Spot → Text → Option (α × Text)} {s : Spot} {m rest : Text} {a : α}
    (hm : m ≠ []) (h : p s (m ++ rest) = some (a, rest)) :
    piecesFrom p s 0 (m ++ rest) = .found s.offset a :: piecesFrom p (s.over m) 0 rest := by
  cases m with
  | nil => exact absurd rfl hm
  | cons c m =>
    rw [List.cons_append] at h ⊢
    rw [piecesFrom, h]
    show .found s.offset a :: piecesFrom p (s.next c) ((m ++ rest).length - rest.length)
      (m ++ rest) = _
    rw [List.length_append, Nat.add_sub_cancel, piecesFrom_skip]
    rfl

theorem findingsFrom_found {p : Spot → Text → Option (α × Text)} {s : Spot} {m rest : Text} {a : α}
    (hm : m ≠ []) (h : p s (m ++ rest) = some (a, rest)) :
    findingsFrom p s (m ++ rest) = (s.offset, a) :: findingsFrom p (s.over m) rest := by
  unfold findingsFrom
  rw [piecesFrom_found hm h]
  rfl

/-- every finding was read somewhere -/
theorem read_of_mem_piecesFrom {p : Spot → Text → Option (α × Text)} {s : Spot} {skip o : Nat}
    {t : Text} {a : α} (h : Piece.found o a ∈ piecesFrom p s skip t) :
    ∃ s' t' rest, p s' t' = some (a, rest) := by
  induction t generalizing s skip with
  | nil => exact nomatch h
  | cons c t ih =>
    cases skip with
    | succ skip => exact ih h
    | zero =>
      rw [piecesFrom] at h
      split at h
      · exact ih ((List.mem_cons.mp h).resolve_left nofun)
      · rename_i b rest hread
        rcases List.mem_cons.mp h with e | h
        · cases e
          exact ⟨_, _, _, hread⟩
        · exact ih h

section
variable {p : Spot → Text → Option (α × Text)} {f : α → Text} (hp : Reads p f)
include hp

theorem findingsFrom_some {s : Spot} {a : α} {rest : Text}
    (h : p s (f a ++ rest) = some (a, rest)) :
    findingsFrom p s (f a ++ rest) = (s.offset, a) :: findingsFrom p (s.over (f a)) rest :=
  findingsFrom_found (hp s _ a rest h).2 h

/-- induction along a search -/
theorem findings_induction {motive : Spot → Text → Prop} (nil : ∀ s, motive s [])
    (none : ∀ s c t, p s (c :: t) = none → motive (s.next c) t → motive s (c :: t))
    (some : ∀ s a rest, p s (f a ++ rest) = some (a, rest) → f a ≠ [] →
      motive (s.over (f a)) rest → motive s (f a ++ rest)) (s : Spot) (t : Text) : motive s t := by
  induction hn : t.length using Nat.strongRecOn generalizing s t with
  | _ n ih =>
    cases t with
    | nil => exact nil s
    | cons c t =>
      cases h : p s (c :: t) with
      | none => exact none s c t h (ih t.length (by rw [← hn, List.length_cons]; omega) _ t rfl)
      | some r =>
        obtain ⟨a, rest⟩ := r
        obtain ⟨e, hne⟩ := hp s _ a rest h
        have hlen := List.length_pos_iff.mpr hne
        rw [e]
        rw [e] at h
        refine some s a rest h hne (ih rest.length ?_ _ rest rfl)
        rw [← hn, e, List.length_append]
        omega

theorem mem_findingsFrom {s : Spot} {t : Text} {o : Nat} {a : α}
    (h : (o, a) ∈ findingsFrom p s t) :
    ∃ front rest, t = front ++ (f a ++ rest) ∧ s.offset + size front = o ∧
      p (s.over front) (f a ++ rest) = some (a, rest) := by
  refine findings_induction hp (motive := fun s t => (o, a) ∈ findingsFrom p s t →
    ∃ front rest, t = front ++ (f a ++ rest) ∧ s.offset + size front = o ∧
      p (s.over front) (f a ++ rest) = some (a, rest)) ?_ ?_ ?_ s t h
  · intro s h
    cases h
  · intro s c t hno ih h
    rw [findingsFrom_none hno] at h
    obtain ⟨front, rest, e, ho, hr⟩ := ih h
    refine ⟨c :: front, rest, by rw [e]; rfl, ?_, hr⟩
    rw [size_cons, ← ho]
    show _ = s.offset + c.utf8Size + size front
    omega
  · intro s b rest hb _ ih h
    rw [findingsFrom_some hp hb] at h
    rcases List.mem_cons.mp h with e | h
    · obtain ⟨rfl, rfl⟩ := Prod.mk.inj e
      exact ⟨[], rest, rfl, rfl, hb⟩
    · obtain ⟨front, r, e, ho, hr⟩ := ih h
      refine ⟨f b ++ front, r, by rw [e, List.append_assoc], ?_, ?_⟩
      · rw [size_append, ← ho, Spot.offset_over]
        omega
      · rw [Spot.over_append]
        exact hr

theorem mem_findings {t : Text} {o : Nat} {a : α} (h : (o, a) ∈ findings p t) :
    ∃ front rest, t = front ++ (f a ++ rest) ∧ size front = o ∧
      p (Spot.start.over front) (f a ++ rest) = some (a, rest) := by
  obtain ⟨front, rest, ht, ho, hread⟩ := mem_findingsFrom hp h
  exact ⟨front, rest, ht, (Nat.zero_add _).symm.trans ho, hread⟩

theorem le_of_mem_findingsFrom {s : Spot} {t : Text} {x : Nat × α}
    (h : x ∈ findingsFrom p s t) : s.offset ≤ x.1 := by
  obtain ⟨front, _, _, ho, _⟩ := mem_findingsFrom hp (o := x.1) (a := x.2) h
  omega

theorem pairwise_findingsFrom (s : Spot) (t : Text) :
    (findingsFrom p s t).Pairwise fun x y => x.1 + size (f x.2) ≤ y.1 := by
  refine findings_induction hp (motive := fun s t =>
    (findingsFrom p s t).Pairwise fun x y => x.1 + size (f x.2) ≤ y.1) ?_ ?_ ?_ s t
  · intro s
    exact .nil
  · intro s c t hno ih
    rw [findingsFrom_none hno]
    exact ih
  · intro s a rest ha _ ih
    rw [findingsFrom_some hp ha]
    refine List.pairwise_cons.mpr ⟨fun y hy => ?_, ih⟩
    have h := le_of_mem_findingsFrom hp hy
    rwa [Spot.offset_over] at h

/-- **Where the pattern reads there is a finding, or one that began before goes on there.** -/
theorem exists_finding_over {s : Spot} {t front back rest : Text} {a : α} (ht : t = front ++ back)
    (h : p (s.over front) back = some (a, rest)) :
    ∃ before b behind, t = before ++ (f b ++ behind) ∧
      p (s.over before) (f b ++ behind) = some (b, behind) ∧
      (s.offset + size before, b) ∈ findingsFrom p s t ∧
      size before ≤ size front ∧ size front < size before + size (f b) := by
  refine findings_induction hp (motive := fun s t => ∀ front, t = front ++ back →
    p (s.over front) back = some (a, rest) → ∃ before b behind, t = before ++ (f b ++ behind) ∧
      p (s.over before) (f b ++ behind) = some (b, behind) ∧
      (s.offset + size before, b) ∈ findingsFrom p s t ∧
      size before ≤ size front ∧ size front < size before + size (f b)) ?_ ?_ ?_ s t front ht h
  · intro s front ht h
    obtain ⟨-, rfl⟩ := List.append_eq_nil_iff.mp ht.symm
    obtain ⟨hnil, hne⟩ := hp _ _ _ _ h
    exact absurd (List.append_eq_nil_iff.mp hnil.symm).1 hne
  · intro s c t hno ih front ht h
    cases front with
    | nil =>
      rw [List.nil_append] at ht
      subst ht
      exact nomatch hno.symm.trans h
    | cons d front =>
      obtain ⟨rfl, rfl⟩ := List.cons.inj ht
      obtain ⟨before, b, behind, ht, hread, hmem, hle, hlt⟩ := ih front rfl h
      refine ⟨c :: before, b, behind, by rw [ht]; rfl, hread, ?_, ?_, ?_⟩
      · rw [findingsFrom_none hno, size_cons, ← Nat.add_assoc]
        exact hmem
      · rw [size_cons, size_cons]
        omega
      · rw [size_cons, size_cons]
        omega
  · intro s b behind hb hne ih front ht h
    have hmem := findingsFrom_some hp hb
    by_cases hlt : size front < size (f b)
    · -- the place is in this finding
      refine ⟨[], b, behind, rfl, hb, ?_, Nat.zero_le _, ?_⟩
      · rw [hmem]
        exact List.mem_cons_self
      · rw [size_nil, Nat.zero_add]
        exact hlt
    · obtain ⟨m, rfl, rfl⟩ := eq_append_of_size_le ht (Nat.le_of_not_lt hlt)
      rw [Spot.over_append] at h
      obtain ⟨before, b', behind', hbehind, hread, hmem', hle, hlt'⟩ := ih m rfl h
      refine ⟨f b ++ before, b', behind', by rw [hbehind, List.append_assoc], ?_, ?_, ?_, ?_⟩
      · rw [Spot.over_append]
        exact hread
      · rw [hmem, size_append, ← Nat.add_assoc, ← Spot.offset_over]
        exact List.mem_cons_of_mem _ hmem'
      · rw [size_append, size_append]
        omega
      · rw [size_append, size_append]
        omega

/-- of two findings the first one ends before the second one begins -/
theorem le_of_mem_findingsFrom_of_lt {s : Spot} {t : Text} {x y : Nat × α}
    (hx : x ∈ findingsFrom p s t) (hy : y ∈ findingsFrom p s t) (h : x.1 < y.1) :
    x.1 + size (f x.2) ≤ y.1 := by
  rcases eq_or_related_of_pairwise (pairwise_findingsFrom hp s t) hx hy with rfl | hxy | hyx
  · exact absurd h (Nat.lt_irrefl _)
  · exact hxy
  · omega

/-- a place where the pattern reads is that of a finding, or inside one -/
theorem mem_or_inside_of_read {t front back rest : Text} {a : α} (ht : t = front ++ back)
    (h : p (Spot.start.over front) back = some (a, rest)) :
    (size front, a) ∈ findings p t ∨
      ∃ x ∈ findings p t, x.1 < size front ∧ size front < x.1 + size (f x.2) := by
  obtain ⟨before, b, behind, ht', hread, hmem, hle, hlt⟩ := exists_finding_over hp ht h
  rw [show Spot.start.offset + size before = size before from Nat.zero_add _] at hmem
  rcases Nat.eq_or_lt_of_le hle with hsize | hlt'
  · left
    obtain ⟨rfl, rfl⟩ := append_inj_of_size (ht.symm.trans ht') hsize.symm
    obtain ⟨rfl, -⟩ := Prod.mk.inj (Option.some.inj (h.symm.trans hread))
    exact hmem
  · right
    exact ⟨_, hmem, hlt', hlt⟩

end

/-! ## patterns that do not report what they take -/

/-- every finding takes a nonempty part of the text -/
def Takes (p : Spot → Text → Option (α × Text)) : Prop :=
  ∀ s t a rest, p s t = some (a, rest) → ∃ m, m ≠ [] ∧ t = m ++ rest

def Piece.map {β : Type} (g : α → β) : Piece α → Piece β
  | .plain c => .plain c
  | .found offset a => .found offset (g a)

/-- the pattern, with what it takes -/
def withTaken (p : Spot → Text → Option (α × Text)) (s : Spot) (t : Text) :
    Option ((α × Text) × Text) :=
  (p s t).map fun r => ((r.1, t.take (t.length - r.2.length)), r.2)

section
variable {p : Spot → Text → Option (α × Text)}

theorem withTaken_eq_some {s : Spot} {m rest : Text} {a : α} :
    withTaken p s (m ++ rest) = some ((a, m), rest) ↔ p s (m ++ rest) = some (a, rest) := by
  have htake : (m ++ rest).take ((m ++ rest).length - rest.length) = m := by
    rw [List.length_append, Nat.add_sub_cancel, List.take_left]
  unfold withTaken
  constructor
  · intro h
    obtain ⟨⟨b, r⟩, hr, e⟩ := Option.map_eq_some_iff.mp h
    obtain ⟨ha, rfl⟩ := Prod.mk.inj e
    rw [hr, ← (Prod.mk.inj ha).1]
  · intro h
    rw [h, Option.map_some, htake]

theorem reads_withTaken (hp : Takes p) : Reads (withTaken p) Prod.snd := by
  intro s t a rest h
  obtain ⟨⟨b, r⟩, hr, e⟩ := Option.map_eq_some_iff.mp h
  cases e
  obtain ⟨m, hm, rfl⟩ := hp s t b r hr
  have htake : (m ++ r).take ((m ++ r).length - r.length) = m := by
    rw [List.length_append, Nat.add_sub_cancel, List.take_left]
  show m ++ r = (m ++ r).take _ ++ r ∧ (m ++ r).take _ ≠ []
  rw [htake]
  exact ⟨rfl, hm⟩

theorem piecesFrom_withTaken (s : Spot) (skip : Nat) (t : Text) : piecesFrom p s skip t =
    (piecesFrom (withTaken p) s skip t).map (Piece.map Prod.fst) := by
  induction t generalizing s skip with
  | nil => rfl
  | cons c t ih =>
    cases skip with
    | succ skip => exact ih _ _
    | zero =>
      rw [piecesFrom, piecesFrom]
      unfold withTaken
      cases h : p s (c :: t) with
      | none => exact congrArg (Piece.plain c :: ·) (ih _ _)
      | some r => exact congrArg (Piece.found s.offset r.1 :: ·) (ih _ _)

theorem findingsFrom_withTaken (s : Spot) (t : Text) : findingsFrom p s t =
    (findingsFrom (withTaken p) s t).map fun f => (f.1, f.2.1) := by
  unfold findingsFrom
  rw [piecesFrom_withTaken, List.filterMap_map, List.map_filterMap]
  congr 1
  funext x
  cases x <;> rfl

/-- a finding was read at its offset -/
theorem mem_findings_of_takes (hp : Takes p) {t : Text} {o : Nat} {a : α}
    (h : (o, a) ∈ findings p t) :
    ∃ front m rest, t = front ++ (m ++ rest) ∧ size front = o ∧ m ≠ [] ∧
      p (Spot.start.over front) (m ++ rest) = some (a, rest) := by
  rw [show findings p t = _ from findingsFrom_withTaken .start t] at h
  obtain ⟨⟨_, b, m⟩, hmem, e⟩ := List.mem_map.mp h
  cases e
  obtain ⟨front, rest, ht, ho, hr⟩ := mem_findings (reads_withTaken hp) hmem
  have hne := (reads_withTaken hp _ _ _ _ hr).2
  exact ⟨front, m, rest, ht, ho, hne, withTaken_eq_some.mp hr⟩

/-- a finding lies behind all of an earlier one -/
theorem pairwise_findingsFrom_of_takes (hp : Takes p) {e : Nat × α → Nat}
    (he : ∀ s m rest a, p s (m ++ rest) = some (a, rest) → e (s.offset, a) ≤ s.offset + size m)
    (s : Spot) (t : Text) : (findingsFrom p s t).Pairwise fun x y => e x ≤ y.1 := by
  rw [findingsFrom_withTaken]
  refine List.pairwise_map.mpr ((pairwise_findingsFrom (reads_withTaken hp) s t).imp_of_mem
    fun {x y} hx _ hxy => ?_)
  obtain ⟨o, b, m⟩ := x
  obtain ⟨front, rest, _, ho, hr⟩ := mem_findingsFrom (reads_withTaken hp) hx
  have hs := he _ m rest b (withTaken_eq_some.mp hr)
  rw [Spot.offset_over, ho] at hs
  exact Nat.le_trans hs hxy

/-- where the pattern reads there is a finding, or one that began before goes on there -/
theorem exists_finding_over_of_takes (hp : Takes p) {t front back rest : Text} {a : α}
    (ht : t = front ++ back) (h : p (Spot.start.over front) back = some (a, rest)) :
    ∃ before m behind b, t = before ++ (m ++ behind) ∧
      p (Spot.start.over before) (m ++ behind) = some (b, behind) ∧
      (size before, b) ∈ findings p t ∧
      size before ≤ size front ∧ size front < size before + size m := by
  obtain ⟨m, -, rfl⟩ := hp _ _ _ _ h
  obtain ⟨before, ⟨b, m'⟩, behind, ht', hread, hmem, hle, hlt⟩ :=
    exists_finding_over (reads_withTaken hp) ht (withTaken_eq_some.mpr h)
  refine ⟨before, m', behind, b, ht', withTaken_eq_some.mp hread, ?_, hle, hlt⟩
  rw [show Spot.start.offset + size before = size before from Nat.zero_add _] at hmem
  rw [show findings p t = _ from findingsFrom_withTaken .start t]
  exact List.mem_map_of_mem hmem

end
end SiteBundle.Text
