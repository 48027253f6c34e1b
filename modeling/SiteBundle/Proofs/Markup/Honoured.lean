import SiteBundle.Proofs.Markup.Compact

/-!
# Compacting, character by character

Marks may overlap, and compacting honours those that do not begin inside one that it honoured before
(`honoured`).  These follow each other without overlap, so they settle what becomes of each character
(`fateAt`): inside one it is copied or dropped with it, outside all of them it is loose, and runs of
loose layout collapse.  Walking over the text with the fates of its characters gives the compact text
(`layOut?_eq`), and a walk can be cut before and behind every character that is no loose layout
(`compactFrom_append`, `compactFrom_append_behind`).
-/

namespace SiteBundle

open Text

/-! ## honoured marks -/

/-- the marks that are honoured from byte `offset` on -/
def honoured : Nat → List Mark → List Mark
  | _, [] => []
  | offset, m :: marks =>
    if m.start < offset then honoured offset marks else m :: honoured m.stop marks

/-- the offset lies in the mark, and not at its start -/
def Mark.Encloses (m : Mark) (o : Nat) : Prop := m.start < o ∧ o < m.stop

instance (m : Mark) (o : Nat) : Decidable (m.Encloses o) := inferInstanceAs (Decidable (_ ∧ _))

section
variable {marks : List Mark} {m : Mark} {offset : Nat} {t : Text}

theorem le_start_of_mem_honoured (hm : m ∈ honoured offset marks)
    (hordered : ∀ x ∈ marks, x.start ≤ x.stop) : offset ≤ m.start := by
  induction marks generalizing offset with
  | nil => exact nomatch hm
  | cons x marks ih =>
    obtain ⟨hx, hmarks⟩ := List.forall_mem_cons.mp hordered
    rw [honoured] at hm
    split at hm
    · exact ih hm hmarks
    · rcases List.mem_cons.mp hm with rfl | hm
      · omega
      · have hle := ih hm hmarks
        omega

theorem honoured_sublist (offset : Nat) (marks : List Mark) :
    (honoured offset marks).Sublist marks := by
  induction marks generalizing offset with
  | nil => exact .slnil
  | cons x marks ih =>
    rw [honoured]
    split
    · exact (ih offset).cons x
    · exact (ih x.stop).cons_cons x

/-- what is honoured does not overlap -/
theorem pairwise_honoured (offset : Nat) (hordered : ∀ x ∈ marks, x.start ≤ x.stop) :
    (honoured offset marks).Pairwise fun x y => x.stop ≤ y.start := by
  induction marks generalizing offset with
  | nil => exact .nil
  | cons x marks ih =>
    have hmarks := (List.forall_mem_cons.mp hordered).2
    rw [honoured]
    split
    · exact ih offset hmarks
    · exact List.pairwise_cons.mpr
        ⟨fun y hy => le_start_of_mem_honoured hy hmarks, ih x.stop hmarks⟩

/-- **Of marks in their order one is honoured**, unless it begins inside one that is, or not alone and
not as the longest. -/
theorem mem_honoured (hsorted : marks.Pairwise fun x y => markLe x y = true) (hm : m ∈ marks)
    (hoffset : offset ≤ m.start) (hfree : ∀ x ∈ honoured offset marks, ¬ x.Encloses m.start)
    (htie : ∀ x ∈ marks, x.start = m.start → x = m ∨ x.stop < m.stop) :
    m ∈ honoured offset marks := by
  induction marks generalizing offset with
  | nil => exact nomatch hm
  | cons x marks ih =>
    obtain ⟨hfirst, hmarks⟩ := List.pairwise_cons.mp hsorted
    have htie' : ∀ y ∈ marks, y.start = m.start → y = m ∨ y.stop < m.stop := fun y hy =>
      htie y (List.mem_cons_of_mem x hy)
    rw [honoured] at hfree ⊢
    by_cases hxm : x = m
    · subst hxm
      rw [if_neg (Nat.not_lt.mpr hoffset)]
      exact List.mem_cons_self
    · replace hm : m ∈ marks := (List.mem_cons.mp hm).resolve_left (Ne.symm hxm)
      -- nothing that comes first in the order begins where it begins
      have hlt : x.start < m.start := by
        have hle := hfirst m hm
        simp only [markLe, Bool.or_eq_true, Bool.and_eq_true, decide_eq_true_eq, beq_iff_eq] at hle
        rcases hle with hlt | ⟨heq, hstop⟩
        · exact hlt
        · have hshort := (htie x List.mem_cons_self heq).resolve_left hxm
          omega
      split
      · rename_i hskip
        rw [if_pos hskip] at hfree
        exact ih hmarks hm hoffset hfree htie'
      · rename_i hskip
        rw [if_neg hskip] at hfree
        have hstop : x.stop ≤ m.start :=
          Nat.le_of_not_lt fun hin => hfree x List.mem_cons_self ⟨hlt, hin⟩
        exact List.mem_cons_of_mem x (ih hmarks hm hstop
          (fun y hy => hfree y (List.mem_cons_of_mem x hy)) htie')

theorem layOut?_honoured (offset : Nat) (marks : List Mark) (t : Text) :
    layOut? offset marks t = layOut? offset (honoured offset marks) t := by
  induction marks generalizing offset t with
  | nil => rfl
  | cons m marks ih =>
    rw [layOut?, honoured]
    split
    · exact ih offset t
    · rename_i hskip
      rw [layOut?, if_neg hskip]
      simp only [ih m.stop]

end

/-! ## fates -/

/-- what becomes of a character -/
inductive Fate where
  | loose
  | kept
  | dropped
deriving DecidableEq, Repr

/-- the fate of the characters in a mark -/
def Mark.fate (m : Mark) : Fate := if m.keep then .kept else .dropped

/-- the fate of the character at this offset -/
def fateAt (marks : List Mark) (o : Nat) : Fate :=
  ((marks.find? (·.covers o)).map Mark.fate).getD .loose

section
variable {marks : List Mark} {m : Mark} {o : Nat}

theorem Mark.fate_ne_loose (m : Mark) : m.fate ≠ .loose := by
  unfold Mark.fate
  split <;> exact nofun

theorem fateAt_of_mem (hapart : marks.Pairwise fun x y => x.stop ≤ y.start) (hm : m ∈ marks)
    (ho : m.covers o = true) : fateAt marks o = m.fate := by
  induction marks with
  | nil => exact nomatch hm
  | cons x marks ih =>
    obtain ⟨hfirst, hmarks⟩ := List.pairwise_cons.mp hapart
    unfold fateAt
    rcases List.mem_cons.mp hm with rfl | hm
    · rw [List.find?_cons_of_pos (p := fun x : Mark => x.covers o) ho]
      rfl
    · have hbehind := hfirst m hm
      have hin := Mark.covers_iff.mp ho
      rw [List.find?_cons_of_neg (p := fun x : Mark => x.covers o) fun hx => ?_]
      · exact ih hmarks hm
      · have hx := Mark.covers_iff.mp hx
        omega

theorem fateAt_eq_loose (h : ∀ x ∈ marks, ¬ x.covers o = true) : fateAt marks o = .loose := by
  rw [fateAt, List.find?_eq_none.mpr h]
  rfl

theorem fateAt_cons_of_not (h : ¬ m.covers o = true) : fateAt (m :: marks) o = fateAt marks o := by
  rw [fateAt, List.find?_cons_of_neg (p := fun x : Mark => x.covers o) h]
  rfl

end

/-! ## the walk -/

/-- the layout that a run comes to -/
def settled : Option Bool → Text
  | none => []
  | some newline => [if newline then '\n' else ' ']

/-- the text from byte `o` on with its characters copied, dropped or, where they are loose layout,
collapsed; `run` is the run being read, and whether it holds a line feed -/
def compactFrom (fate : Nat → Fate) : Option Bool → Nat → Text → Text
  | run, _, [] => settled run
  | run, o, c :: r =>
    match fate o with
    | .kept => settled run ++ c :: compactFrom fate none (o + c.utf8Size) r
    | .dropped => settled run ++ compactFrom fate none (o + c.utf8Size) r
    | .loose =>
      if isGap c then compactFrom fate (some (run.getD false || c == '\n')) (o + c.utf8Size) r
      else settled run ++ c :: compactFrom fate none (o + c.utf8Size) r

section
variable {f g : Nat → Fate} {run : Option Bool} {o : Nat} {c : Char} {t u : Text}

theorem compactFrom_congr (h : ∀ p ∈ places o t, f p.1 = g p.1) :
    compactFrom f run o t = compactFrom g run o t := by
  induction t generalizing o run with
  | nil => rfl
  | cons c t ih =>
    obtain ⟨hc, ht⟩ := List.forall_mem_cons.mp h
    have hc : f o = g o := hc
    rw [compactFrom, compactFrom, hc, ih ht, ih ht]

theorem collapse_eq (h : ∀ p ∈ places o t, f p.1 = .loose) :
    compactFrom f run o t = collapse run t := by
  induction t generalizing o run with
  | nil => cases run <;> rfl
  | cons c t ih =>
    obtain ⟨hc, ht⟩ := List.forall_mem_cons.mp h
    have hc : f o = .loose := hc
    rw [compactFrom, hc, ih ht, ih ht]
    cases run with
    | none =>
      rw [collapse]
      rfl
    | some newline =>
      rw [collapse]
      rfl

/-- a stretch with the fate of a mark is copied or left out, and a run begins behind it -/
theorem compactFrom_marked {m : Mark} (h : ∀ p ∈ places o t, f p.1 = m.fate) (u : Text) :
    compactFrom f none o (t ++ u) =
      (if m.keep then t else []) ++ compactFrom f none (o + size t) u := by
  induction t generalizing o with
  | nil => rw [ite_self, List.nil_append, List.nil_append, size_nil, Nat.add_zero]
  | cons c t ih =>
    obtain ⟨hc, ht⟩ := List.forall_mem_cons.mp h
    have hc : f o = m.fate := hc
    rw [List.cons_append, compactFrom, hc, ih ht, size_cons, Nat.add_assoc, Mark.fate]
    cases m.keep <;> rfl

/-- no run of loose layout goes on over this character -/
def Parts (f : Nat → Fate) (o : Nat) (c : Char) : Prop := f o = .loose → isGap c = false

/-- a run ends before a character that parts -/
theorem compactFrom_of_parts (h : Parts f o c) (u : Text) :
    compactFrom f run o (c :: u) = settled run ++ compactFrom f none o (c :: u) := by
  rw [compactFrom, compactFrom]
  cases hf : f o with
  | kept => rfl
  | dropped => rfl
  | loose =>
    have hc : ¬ isGap c = true := Bool.eq_false_iff.mp (h hf)
    dsimp only
    rw [if_neg hc, if_neg hc]
    rfl

/-- a run begins behind it -/
theorem compactFrom_cons (h : Parts f o c) (u : Text) : compactFrom f none o (c :: u) =
    compactFrom f none o [c] ++ compactFrom f none (o + c.utf8Size) u := by
  rw [compactFrom, compactFrom]
  cases hf : f o with
  | kept => rfl
  | dropped => rfl
  | loose =>
    have hc : ¬ isGap c = true := Bool.eq_false_iff.mp (h hf)
    dsimp only
    rw [if_neg hc, if_neg hc]
    rfl

/-- a walk can be cut before a character that parts -/
theorem compactFrom_append (h : Parts f (o + size t) c) : compactFrom f run o (t ++ c :: u) =
    compactFrom f run o t ++ compactFrom f none (o + size t) (c :: u) := by
  induction t generalizing o run with
  | nil => exact compactFrom_of_parts h u
  | cons d t ih =>
    rw [size_cons, ← Nat.add_assoc] at h ⊢
    rw [List.cons_append, compactFrom, compactFrom]
    cases f o with
    | kept => simp only [ih h, List.append_assoc, List.cons_append]
    | dropped => simp only [ih h, List.append_assoc]
    | loose =>
      dsimp only
      rw [ih h, ih h]
      split
      · rfl
      · rw [List.append_assoc, List.cons_append]

/-- a walk can be cut behind a character that parts -/
theorem compactFrom_append_behind (h : Parts f (o + size t) c) :
    compactFrom f run o (t ++ c :: u) =
      compactFrom f run o (t ++ [c]) ++ compactFrom f none (o + size (t ++ [c])) u := by
  rw [compactFrom_append h, compactFrom_append h, compactFrom_cons h u, size_append, size_cons,
    size_nil, List.append_assoc, Nat.add_zero, Nat.add_assoc]

end

/-! ## stretches are walked over on their own -/

/-- behind a stretch that stands in a text its last character parts, or nothing stands there -/
theorem Stretch.Stands.last_or_end {t front back : Text} {x : Stretch} (h : x.Stands t)
    (ht : t = front ++ (x.text ++ back)) (hfront : size front = x.start) :
    (∃ r c, x.text = r ++ [c] ∧ isGap c = false) ∨ back = [] := by
  obtain ⟨r, c, htext, hc | hend⟩ := h.ends
  · exact .inl ⟨r, c, htext, hc⟩
  · refine .inr (size_eq_zero ?_)
    have hsize := congrArg size ht
    rw [size_append, size_append, hfront, ← hend] at hsize
    have hstop : x.stop = x.start + size x.text := rfl
    omega

section
variable {f : Nat → Fate} {t : Text} {x : Stretch}

theorem compactFrom_stretch {mid back : Text} (hx : x.Stands t) {front : Text}
    (ht : t = front ++ (mid ++ (x.text ++ back))) (hstart : size front + size mid = x.start) :
    compactFrom f none (size front) (mid ++ (x.text ++ back)) =
      compactFrom f none (size front) mid ++
        (compactFrom f none x.start x.text ++ compactFrom f none x.stop back) := by
  obtain ⟨c, r, htext, hc⟩ := hx.begins
  have hbegins : Parts f (size front + size mid) c := fun _ => hc
  have hcut : compactFrom f none (size front) (mid ++ (x.text ++ back)) =
      compactFrom f none (size front) mid ++ compactFrom f none x.start (x.text ++ back) := by
    rw [htext, List.cons_append, compactFrom_append hbegins, hstart]
  rw [hcut]
  congr 1
  rw [← List.append_assoc] at ht
  rcases hx.last_or_end ht (by rw [size_append, hstart]) with ⟨init, d, hlast, hd⟩ | rfl
  · have hends : Parts f (x.start + size init) d := fun _ => hd
    have hsize : x.start + size (init ++ [d]) = x.stop := by rw [← hlast]; rfl
    rw [hlast, List.append_assoc, List.singleton_append, compactFrom_append_behind hends, hsize]
  · rw [List.append_nil]
    exact (List.append_nil _).symm

end

/-! ## marks laid out -/

/-- **The compact text is the walk with the fates that its honoured marks settle.** -/
theorem layOut?_eq {offset : Nat} {marks : List Mark} {t u : Text}
    (hmarks : ∀ m ∈ marks, m.start < m.stop ∧ offset ≤ m.start)
    (hapart : marks.Pairwise fun x y => x.stop ≤ y.start) (h : layOut? offset marks t = some u) :
    u = compactFrom (fateAt marks) none offset t := by
  induction marks generalizing offset t u with
  | nil =>
    rw [collapse_eq fun _ _ => rfl]
    exact (Option.some.inj h).symm
  | cons m marks ih =>
    obtain ⟨⟨hpos, hoffset⟩, hlater⟩ := List.forall_mem_cons.mp hmarks
    obtain ⟨hfirst, hpair⟩ := List.pairwise_cons.mp hapart
    rw [layOut?, if_neg (Nat.not_lt.mpr hoffset)] at h
    simp only [Option.bind_eq_bind, Option.bind_eq_some_iff, Option.pure_def, Option.some.injEq,
      Prod.exists] at h
    obtain ⟨loose, r, h1, inside, rest, h2, behind, h3, rfl⟩ := h
    obtain ⟨rfl, hloose⟩ := append_of_splitAt? h1
    obtain ⟨rfl, hinside⟩ := append_of_splitAt? h2
    rw [ih (fun x hx => ⟨(hlater x hx).1, hfirst x hx⟩) hpair h3]
    have hstart : offset + size loose = m.start := by omega
    have hstop : m.start + size inside = m.stop := by omega
    -- the three parts have the fates of loose text, of the mark and of the later marks
    have hbefore : ∀ p ∈ places offset loose, fateAt (m :: marks) p.1 = .loose := by
      intro p hp
      have hin := bounds_of_mem_places hp
      refine fateAt_eq_loose fun x hx hcover => ?_
      have hcover := Mark.covers_iff.mp hcover
      rcases List.mem_cons.mp hx with rfl | hx
      · omega
      · have hx := hfirst x hx
        omega
    have hin : ∀ p ∈ places m.start inside, fateAt (m :: marks) p.1 = m.fate := by
      intro p hp
      have hp := bounds_of_mem_places hp
      exact fateAt_of_mem hapart List.mem_cons_self (Mark.covers_iff.mpr (by omega))
    have hafter : ∀ p ∈ places m.stop rest, fateAt (m :: marks) p.1 = fateAt marks p.1 := by
      intro p hp
      have hp := bounds_of_mem_places hp
      refine fateAt_cons_of_not fun hcover => ?_
      have hcover := Mark.covers_iff.mp hcover
      omega
    -- the mark takes something, and where it begins a run ends
    have hne : inside ≠ [] := by
      rintro rfl
      rw [size_nil] at hinside
      omega
    obtain ⟨c, inner, rfl⟩ := List.exists_cons_of_ne_nil hne
    have hcut : Parts (fateAt (m :: marks)) (offset + size loose) c := by
      rw [hstart]
      exact fun hloose =>
        absurd ((hin (m.start, c) List.mem_cons_self).symm.trans hloose) m.fate_ne_loose
    rw [List.cons_append, compactFrom_append hcut, hstart, collapse_eq hbefore, ← List.cons_append,
      compactFrom_marked hin, hstop, compactFrom_congr hafter, List.append_assoc]

/-! ## the compact text -/

/-- the marks that compacting honours -/
def honouredMarks (t : Text) (inert : List InertRange) : List Mark := honoured 0 (allMarks t inert)

section
variable {t : Text} {embedded : Bool} {m : Mark}

theorem mem_allMarks_of_honoured {inert : List InertRange} (h : m ∈ honouredMarks t inert) :
    m ∈ allMarks t inert := (honoured_sublist 0 _).subset h

theorem ordered_allMarks : ∀ m ∈ allMarks t (inertRanges t embedded), m.start ≤ m.stop :=
  fun _ hm => Nat.le_of_lt (fits_of_mem_allMarks hm).ordered

theorem apart_honouredMarks :
    (honouredMarks t (inertRanges t embedded)).Pairwise fun x y => x.stop ≤ y.start :=
  pairwise_honoured 0 ordered_allMarks

theorem pairwise_allMarks (t : Text) (inert : List InertRange) :
    (allMarks t inert).Pairwise fun x y => markLe x y = true := by
  refine List.pairwise_mergeSort (fun a b c hab hbc => ?_) (fun a b => ?_) _
  · simp only [markLe, Bool.or_eq_true, Bool.and_eq_true, decide_eq_true_eq, beq_iff_eq] at hab hbc ⊢
    omega
  · simp only [markLe, Bool.or_eq_true, Bool.and_eq_true, decide_eq_true_eq, beq_iff_eq]
    omega

/-- a mark that begins in no honoured one, as the longest where it begins, is honoured -/
theorem mem_honouredMarks {inert : List InertRange} (hm : m ∈ allMarks t inert)
    (hfree : ∀ x ∈ honouredMarks t inert, ¬ x.Encloses m.start)
    (htie : ∀ x ∈ allMarks t inert, x.start = m.start → x = m ∨ x.stop < m.stop) :
    m ∈ honouredMarks t inert :=
  mem_honoured (pairwise_allMarks t inert) hm (Nat.zero_le _) hfree htie

/-- what becomes of the characters of a text -/
def fates (t : Text) (embedded : Bool) : Nat → Fate :=
  fateAt (honouredMarks t (inertRanges t embedded))

/-- what an honoured mark takes is copied or left out -/
theorem compactFrom_of_mem_honoured {o : Nat} {u : Text} {keep : Bool}
    (h : (⟨o, o + size u, keep⟩ : Mark) ∈ honouredMarks t (inertRanges t embedded)) :
    compactFrom (fates t embedded) none o u = if keep then u else [] := by
  have hin : ∀ p ∈ places o u, fates t embedded p.1 = Mark.fate ⟨o, o + size u, keep⟩ := by
    intro p hp
    have hp := bounds_of_mem_places hp
    exact fateAt_of_mem apart_honouredMarks h (Mark.covers_iff.mpr hp)
  have hall := compactFrom_marked hin []
  rw [List.append_nil] at hall
  rw [hall]
  exact List.append_nil _

variable (t embedded)

theorem compactMarkup?_eq : compactMarkup? t (inertRanges t embedded) =
    some (compactFrom (fates t embedded) none 0 t) := by
  obtain ⟨u, hu⟩ := exists_compactMarkup? t embedded
  have hlaid : layOut? 0 (honouredMarks t (inertRanges t embedded)) t = some u := by
    rw [honouredMarks, ← layOut?_honoured, ← compactMarkup?_eq_layOut?, hu]
  have hmarks : ∀ m ∈ honouredMarks t (inertRanges t embedded), m.start < m.stop ∧ 0 ≤ m.start :=
    fun m hm => ⟨(fits_of_mem_allMarks (mem_allMarks_of_honoured hm)).ordered, Nat.zero_le _⟩
  rw [hu, layOut?_eq hmarks apart_honouredMarks hlaid]
  rfl

end

end SiteBundle
