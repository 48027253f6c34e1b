import Mathlib.Data.List.Induction
import SiteBundle.Proofs.Disk.Paths
import SiteBundle.Style.Reference

/-!
# Where addresses lead

An address that has no scheme and no host is read from a directory: its path leads to a place, by names
from the root, and behind the path stands a query or a fragment (`resolve?`).  Written for another
directory it leads to the same place, with the same suffix (`rebased_resolves`), as long as the names
on the way there can stand in an address (`IsAddressName`) and the place is not that directory itself,
which has an empty address.
-/

namespace SiteBundle

open Text

/-! ## reading an address -/

/-- whether an address is read from where it stands -/
def isRelative (url : Text) : Bool :=
  match trim url with
  | [] => false
  | c :: _ => !(c == '#' || c == '/' || isAbsolute (trim url))

/-- where an address leads from a directory: the names from the root, and the query or fragment; `none`
above the root -/
def resolve? (dir : List Text) (url : Text) : Option (List Text × Text) :=
  (walkSteps? dir (splitOn '/' (splitSuffix (trim url)).1)).map fun place =>
    (place, (splitSuffix (trim url)).2)

/-- the address of a place, written for a directory -/
def addressOf (base place : List Text) (suffix : Text) : Text :=
  join ['/'] (stepsBetween base place) ++ suffix

theorem rebaseReference?_eq (url source target : Text) : rebaseReference? url source target =
    if isRelative url then (resolve? (directoryNames source) url).map fun x =>
      addressOf (directoryNames target) x.1 x.2 else none := by
  unfold rebaseReference? isRelative resolve? addressOf
  dsimp only
  generalize trim url = t
  cases t with
  | nil => rfl
  | cons c r =>
    dsimp only
    rw [Option.map_map]
    by_cases h : c = '#' ∨ c = '/' ∨ isAbsolute (c :: r) = true
    · rw [if_pos h, if_neg]
      rcases h with rfl | rfl | h
      · exact nofun
      · exact nofun
      · rw [h, Bool.or_true]
        exact nofun
    · obtain ⟨hhash, hslash, habs⟩ : c ≠ '#' ∧ c ≠ '/' ∧ ¬ isAbsolute (c :: r) = true := by
        simpa only [not_or] using h
      rw [if_neg h, if_pos]
      · rfl
      · rw [beq_eq_false_iff_ne.mpr hhash, beq_eq_false_iff_ne.mpr hslash,
          Bool.eq_false_iff.mpr habs]
        rfl

/-! ## walking -/

section
variable {base place names : List Text}

theorem isIdle_iff {step : Text} : isIdle step = true ↔ step = [] ∨ step = ['.'] := by
  rw [isIdle, Bool.or_eq_true, List.isEmpty_iff, beq_iff_eq]

theorem step?_idle {step : Text} (h : isIdle step = true) (up : List Text) :
    step? up step = some up :=
  if_pos (isIdle_iff.mp h)

theorem step?_plain {name : Text} (h : isPlainName name = true) (up : List Text) :
    step? up name = some (name :: up) := by
  obtain ⟨hidle, hup⟩ := isPlainName_iff.mp h
  unfold step?
  rw [if_neg fun hstay => Bool.eq_false_iff.mp hidle (isIdle_iff.mpr hstay), if_neg hup]

theorem foldlM_step?_names (h : ∀ name ∈ names, isPlainName name = true) (up : List Text) :
    names.foldlM step? up = some (names.reverse ++ up) := by
  induction names generalizing up with
  | nil => rfl
  | cons name names ih =>
    obtain ⟨hname, hnames⟩ := List.forall_mem_cons.mp h
    rw [List.foldlM_cons, step?_plain hname, List.reverse_cons, List.append_assoc]
    exact ih hnames (name :: up)

/-- as many steps up as there are names lead out of them -/
theorem foldlM_step?_up (left : List Text) (up : List Text) :
    (left.map fun _ => (['.', '.'] : Text)).foldlM step? (left.reverse ++ up) = some up := by
  induction left using List.reverseRecOn generalizing up with
  | nil => rfl
  | append_singleton left name ih =>
    have hmap : (left ++ [name]).map (fun _ => (['.', '.'] : Text)) =
        ['.', '.'] :: left.map fun _ => ['.', '.'] := by
      rw [List.map_const', List.map_const', List.length_append]
      rfl
    rw [hmap, List.reverse_append, List.foldlM_cons]
    exact ih up

theorem exists_dropCommon (base place : List Text) : ∃ common,
    base = common ++ (dropCommon base place).1 ∧ place = common ++ (dropCommon base place).2 := by
  fun_induction dropCommon base place with
  | case1 base a place ih =>
    obtain ⟨common, hbase, hplace⟩ := ih
    exact ⟨a :: common, congrArg (a :: ·) hbase, congrArg (a :: ·) hplace⟩
  | case2 => exact ⟨[], rfl, rfl⟩
  | case3 => exact ⟨[], rfl, rfl⟩

/-- the steps from a directory to a place lead there -/
theorem walkSteps?_stepsBetween (h : ∀ name ∈ place, isPlainName name = true) :
    walkSteps? base (stepsBetween base place) = some place := by
  obtain ⟨common, hbase, hplace⟩ := exists_dropCommon base place
  unfold walkSteps? stepsBetween
  generalize dropCommon base place = parts at hbase hplace ⊢
  obtain ⟨left, down⟩ := parts
  dsimp only at hbase hplace ⊢
  have hdown : ∀ name ∈ down, isPlainName name = true := fun name hname =>
    h name (hplace ▸ List.mem_append_right _ hname)
  rw [hbase, List.reverse_append, List.foldlM_append, foldlM_step?_up]
  show (down.foldlM step? common.reverse).map List.reverse = _
  rw [foldlM_step?_names hdown, Option.map_some, List.reverse_append, List.reverse_reverse,
    List.reverse_reverse, ← hplace]

/-- every step goes up, or is a name on the way to the place -/
theorem mem_stepsBetween {step : Text} (h : step ∈ stepsBetween base place) :
    step = ['.', '.'] ∨ step ∈ place := by
  obtain ⟨common, -, hplace⟩ := exists_dropCommon base place
  rcases List.mem_append.mp h with h | h
  · obtain ⟨-, -, rfl⟩ := List.mem_map.mp h
    exact .inl rfl
  · rw [hplace]
    exact .inr (List.mem_append_right _ h)

theorem stepsBetween_ne_nil (h : place ≠ base) : stepsBetween base place ≠ [] := by
  intro hnil
  obtain ⟨common, hbase, hplace⟩ := exists_dropCommon base place
  obtain ⟨hup, hdown⟩ := List.append_eq_nil_iff.mp hnil
  rw [List.map_eq_nil_iff.mp hup, List.append_nil] at hbase
  rw [hdown, List.append_nil] at hplace
  exact h (hplace.trans hbase.symm)

end

/-! ## steps as a path -/

section
variable {steps : List Text} {t u : Text}

theorem join_cons {sep : Text} (step : Text) (hne : steps ≠ []) :
    join sep (step :: steps) = step ++ (sep ++ join sep steps) := by
  cases steps with
  | nil => exact absurd rfl hne
  | cons next steps => exact List.append_assoc _ _ _

theorem splitOn_join (hne : steps ≠ []) (h : ∀ step ∈ steps, '/' ∉ step) :
    splitOn '/' (join ['/'] steps) = steps := by
  induction steps with
  | nil => exact absurd rfl hne
  | cons step steps ih =>
    obtain ⟨hstep, hsteps⟩ := List.forall_mem_cons.mp h
    by_cases hnil : steps = []
    · rw [hnil]
      exact splitOn_of_not_mem hstep
    · rw [join_cons step hnil, List.singleton_append, splitOn_append, splitOn_of_not_mem hstep,
        ih hnil hsteps]
      rfl

theorem mem_join {sep : Text} {c : Char} (h : c ∈ join sep steps) :
    c ∈ sep ∨ ∃ step ∈ steps, c ∈ step := by
  induction steps with
  | nil => exact nomatch h
  | cons step steps ih =>
    by_cases hnil : steps = []
    · rw [hnil] at h
      exact .inr ⟨step, List.mem_cons_self, h⟩
    · rw [join_cons step hnil] at h
      rcases List.mem_append.mp h with h | h
      · exact .inr ⟨step, List.mem_cons_self, h⟩
      · rcases List.mem_append.mp h with h | h
        · exact .inl h
        · exact (ih h).imp_right fun ⟨s, hs, hc⟩ => ⟨s, List.mem_cons_of_mem _ hs, hc⟩

/-- what begins a query or a fragment -/
def isSuffixStart (c : Char) : Bool := c == '?' || c == '#'

theorem splitSuffix_eq (t : Text) : splitSuffix t =
    (t.takeWhile (!isSuffixStart ·), t.dropWhile (!isSuffixStart ·)) := by
  have hsame : (fun c : Char => c != '?' && c != '#') = fun c => !isSuffixStart c := by
    funext c
    rw [isSuffixStart, Bool.not_or]
    rfl
  rw [splitSuffix, hsame]

/-- a suffix is empty, or a query or a fragment -/
theorem splitSuffix_cases (t : Text) : t = (splitSuffix t).1 ++ (splitSuffix t).2 ∧
    ((splitSuffix t).2 = [] ∨ ∃ c r, (splitSuffix t).2 = c :: r ∧ isSuffixStart c = true) := by
  rw [splitSuffix_eq]
  refine ⟨List.takeWhile_append_dropWhile.symm, ?_⟩
  cases h : t.dropWhile (!isSuffixStart ·) with
  | nil => exact .inl rfl
  | cons c r =>
    have hnot := List.head?_dropWhile_not (!isSuffixStart ·) t
    rw [h] at hnot
    exact .inr ⟨c, r, rfl, Bool.not_eq_false' _ |>.mp hnot⟩

theorem splitSuffix_append {path suffix : Text} (hpath : ∀ c ∈ path, isSuffixStart c = false)
    (hsuffix : suffix = [] ∨ ∃ c r, suffix = c :: r ∧ isSuffixStart c = true) :
    splitSuffix (path ++ suffix) = (path, suffix) := by
  have hnot : ∀ c ∈ path, (!isSuffixStart c) = true := fun c hc => by rw [hpath c hc]; rfl
  rw [splitSuffix_eq, List.takeWhile_append_of_pos hnot, List.dropWhile_append_of_pos hnot]
  rcases hsuffix with rfl | ⟨c, r, rfl, hc⟩
  · rw [List.takeWhile_nil, List.dropWhile_nil, List.append_nil]
  · have hc : ¬ (!isSuffixStart c) = true := by rw [hc]; exact nofun
    rw [List.takeWhile_cons_of_neg (p := fun c => !isSuffixStart c) hc,
      List.dropWhile_cons_of_neg (p := fun c => !isSuffixStart c) hc, List.append_nil]

end

/-! ## white space at the ends -/

/-- a text neither begins nor ends with white space -/
def Tight (t : Text) : Prop :=
  (∀ c ∈ t.head?, isBlank c = false) ∧ ∀ c ∈ t.getLast?, isBlank c = false

section
variable {t u : Text}

theorem trim_of_tight (h : Tight t) : trim t = t := by
  have hstart : trimStart t = t := by
    cases t with
    | nil => rfl
    | cons c t =>
      have hc := h.1 c rfl
      exact List.dropWhile_cons_of_neg (by rw [hc]; exact Bool.false_ne_true)
  rw [trim, hstart]
  rcases List.eq_nil_or_concat t with rfl | ⟨t, c, rfl⟩
  · rfl
  · rw [List.concat_eq_append] at h ⊢
    exact trimEndBy_concat t (h.2 c List.getLast?_concat)

theorem trimEnd_isPrefix (t : Text) : trimEnd t <+: t := by
  have h := List.reverse_prefix.mpr (List.dropWhile_suffix (l := t.reverse) isBlank)
  rwa [List.reverse_reverse] at h

theorem trim_isInfix (t : Text) : trim t <:+: t :=
  (trimEnd_isPrefix _).isInfix.trans (List.dropWhile_suffix isBlank).isInfix

theorem tight_trim (t : Text) : Tight (trim t) := by
  refine ⟨fun c hc => ?_, fun c hc => ?_⟩
  · obtain ⟨r, hr⟩ := List.head?_eq_some_iff.mp hc
    obtain ⟨w, hw⟩ := trimEnd_isPrefix (trimStart t)
    have hhead := List.head?_dropWhile_not isBlank t
    rw [show t.dropWhile isBlank = c :: (r ++ w) by rw [← List.cons_append, ← hr]; exact hw.symm]
      at hhead
    exact hhead
  · have hlast := List.head?_dropWhile_not isBlank (trimStart t).reverse
    rw [trim, trimEnd, trimEndBy, List.getLast?_reverse] at hc
    rw [hc] at hlast
    exact hlast

theorem tight_append (ht : Tight t) (hne : t ≠ []) (hu : ∀ c ∈ u.getLast?, isBlank c = false) :
    Tight (t ++ u) := by
  refine ⟨fun c hc => ht.1 c ?_, fun c hc => ?_⟩
  · obtain ⟨d, t, rfl⟩ := List.exists_cons_of_ne_nil hne
    exact hc
  · rw [List.getLast?_append] at hc
    cases hlast : u.getLast? with
    | none =>
      rw [hlast] at hc
      exact ht.2 c hc
    | some d =>
      rw [hlast] at hc
      exact hu c (hlast ▸ hc)

theorem tight_join {steps : List Text} (h : ∀ step ∈ steps, Tight step ∧ step ≠ []) :
    Tight (join ['/'] steps) := by
  induction steps with
  | nil => exact ⟨nofun, nofun⟩
  | cons step steps ih =>
    obtain ⟨⟨hstep, hne⟩, hsteps⟩ := List.forall_mem_cons.mp h
    by_cases hnil : steps = []
    · rw [hnil]
      exact hstep
    · rw [join_cons step hnil]
      refine tight_append hstep hne fun c hc => ?_
      rw [List.getLast?_append] at hc
      cases hlast : (join ['/'] steps).getLast? with
      | none =>
        rw [hlast] at hc
        cases hc
        decide
      | some d =>
        rw [hlast] at hc
        exact (ih hsteps).2 c (hlast ▸ hc)

end

/-- what stands behind the path is a query or a fragment of the address -/
theorem suffix_of_resolve? {dir place : List Text} {url suffix : Text}
    (h : resolve? dir url = some (place, suffix)) :
    (suffix = [] ∨ ∃ c r, suffix = c :: r ∧ isSuffixStart c = true) ∧
      (∀ c ∈ suffix.getLast?, isBlank c = false) ∧ suffix <:+: url := by
  obtain ⟨names, -, e⟩ := Option.map_eq_some_iff.mp h
  cases e
  obtain ⟨htrim, hstart⟩ := splitSuffix_cases (trim url)
  refine ⟨hstart, fun c hc => (tight_trim url).2 c ?_, ?_⟩
  · rw [htrim, List.getLast?_append, hc]
    rfl
  · exact (List.IsSuffix.isInfix ⟨_, htrim.symm⟩).trans (trim_isInfix url)

/-! ## an address for another directory -/

/-- a name that can stand in an address -/
structure IsAddressName (name : Text) : Prop where
  entry : IsEntryName name
  /-- white space at the ends of an address is no part of it -/
  tight : trim name = name
  /-- nothing that begins a query or a fragment, or ends a scheme -/
  plain : ∀ c ∈ name, isSuffixStart c = false ∧ c ≠ ':'

/-- what a path has for a step -/
structure IsAddressStep (step : Text) : Prop where
  ne_nil : step ≠ []
  tight : Tight step
  plain : ∀ c ∈ step, c ≠ '/' ∧ isSuffixStart c = false ∧ c ≠ ':'

theorem IsAddressName.isAddressStep {name : Text} (h : IsAddressName name) : IsAddressStep name where
  ne_nil := h.entry.ne_nil
  tight := h.tight ▸ tight_trim name
  plain := fun c hc => ⟨fun e => h.entry.2 (e ▸ hc), h.plain c hc⟩

section
variable {base place : List Text} {suffix : Text}

theorem isAddressStep_of_mem (h : ∀ name ∈ place, IsAddressName name) :
    ∀ step ∈ stepsBetween base place, IsAddressStep step := by
  intro step hstep
  rcases mem_stepsBetween hstep with rfl | hmem
  · have hdots : ∀ c ∈ (['.', '.'] : Text), c ≠ '/' ∧ isSuffixStart c = false ∧ c ≠ ':' := by decide
    have htight : Tight ['.', '.'] := by
      refine ⟨fun c hc => ?_, fun c hc => ?_⟩
      · cases hc
        decide
      · cases hc
        decide
    exact ⟨List.cons_ne_nil _ _, htight, hdots⟩
  · exact (h step hmem).isAddressStep

/-- a text that begins with a step is no address with a scheme -/
theorem isAbsolute_of_step {step rest : Text} (h : IsAddressStep step) (htight : Tight (step ++ rest))
    (hrest : rest = [] ∨ ∃ c r, rest = c :: r ∧ (c = '/' ∨ isSuffixStart c = true)) :
    isAbsolute (step ++ rest) = false := by
  obtain ⟨c, r, rfl⟩ := List.exists_cons_of_ne_nil h.ne_nil
  have hc := h.plain c List.mem_cons_self
  have hscheme : ((r ++ rest).dropWhile isSchemeChar).head? ≠ some ':' := by
    intro hhead
    rw [List.dropWhile_append] at hhead
    split at hhead
    · -- the first step is over
      rcases hrest with rfl | ⟨d, r', rfl, hd⟩
      · exact nomatch hhead
      · have hnot : isSchemeChar d = false ∧ d ≠ ':' := by
          rcases hd with rfl | hd
          · decide
          · rcases Bool.or_eq_true_iff.mp hd with hd | hd
            · rw [beq_iff_eq.mp hd]
              decide
            · rw [beq_iff_eq.mp hd]
              decide
        rw [List.dropWhile_cons_of_neg (by rw [hnot.1]; exact Bool.false_ne_true)] at hhead
        exact hnot.2 (Option.some.inj hhead)
    · rename_i hne
      cases hdrop : r.dropWhile isSchemeChar with
      | nil => exact hne (List.isEmpty_iff.mpr hdrop)
      | cons d r' =>
        rw [hdrop] at hhead
        have hmem := (List.dropWhile_suffix isSchemeChar).mem (hdrop ▸ List.mem_cons_self (a := d))
        exact (h.plain _ (List.mem_cons_of_mem _ hmem)).2.2 (Option.some.inj hhead)
  unfold isAbsolute
  rw [trim_of_tight htight, List.cons_append]
  split
  · rename_i heq
    exact absurd (List.cons.inj heq).1 hc.1
  · rename_i heq
    obtain ⟨rfl, rfl⟩ := List.cons.inj heq
    rw [beq_eq_false_iff_ne.mpr hscheme, Bool.and_false]
  · rfl

/-- **An address that is written for another directory leads where it led.** -/
theorem rebased_resolves (hnames : ∀ name ∈ place, IsAddressName name) (hne : place ≠ base)
    (hsuffix : suffix = [] ∨ ∃ c r, suffix = c :: r ∧ isSuffixStart c = true)
    (hends : ∀ c ∈ suffix.getLast?, isBlank c = false) :
    isRelative (addressOf base place suffix) = true ∧
      resolve? base (addressOf base place suffix) = some (place, suffix) := by
  have hsteps : ∀ step ∈ stepsBetween base place, IsAddressStep step := isAddressStep_of_mem hnames
  have hnil := stepsBetween_ne_nil hne
  have hwalk : walkSteps? base (stepsBetween base place) = some place :=
    walkSteps?_stepsBetween fun name hname => (hnames name hname).entry.1
  unfold addressOf
  generalize stepsBetween base place = steps at hsteps hnil hwalk ⊢
  have hplain : ∀ c ∈ join ['/'] steps, isSuffixStart c = false := by
    intro c hc
    rcases mem_join hc with hc | ⟨step, hstep, hc⟩
    · rw [List.mem_singleton.mp hc]
      rfl
    · exact ((hsteps step hstep).plain c hc).2.1
  have hjoin : join ['/'] steps ≠ [] := by
    intro hempty
    have hsplit := splitOn_join hnil fun step hstep hmem => ((hsteps step hstep).plain _ hmem).1 rfl
    rw [hempty] at hsplit
    exact (hsteps [] (hsplit ▸ List.mem_singleton_self _)).ne_nil rfl
  have htight : Tight (join ['/'] steps ++ suffix) :=
    tight_append (tight_join fun step hstep => ⟨(hsteps step hstep).tight,
      (hsteps step hstep).ne_nil⟩) hjoin hends
  constructor
  · -- the address begins with its first step
    obtain ⟨step, rest, rfl⟩ := List.exists_cons_of_ne_nil hnil
    obtain ⟨hstep, -⟩ := List.forall_mem_cons.mp hsteps
    obtain ⟨behind, hbehind, heq⟩ : ∃ behind,
        (behind = [] ∨ ∃ c r, behind = c :: r ∧ (c = '/' ∨ isSuffixStart c = true)) ∧
          join ['/'] (step :: rest) ++ suffix = step ++ behind := by
      by_cases hrest : rest = []
      · refine ⟨suffix, hsuffix.imp_right fun ⟨c, r, hc, h⟩ => ⟨c, r, hc, .inr h⟩, ?_⟩
        rw [hrest]
        rfl
      · refine ⟨'/' :: (join ['/'] rest ++ suffix), .inr ⟨_, _, rfl, .inl rfl⟩, ?_⟩
        rw [join_cons step hrest, List.append_assoc]
        rfl
    rw [heq] at htight ⊢
    have habsolute := isAbsolute_of_step hstep htight hbehind
    obtain ⟨c, r, rfl⟩ := List.exists_cons_of_ne_nil hstep.ne_nil
    obtain ⟨hslash, hhash, -⟩ := hstep.plain c List.mem_cons_self
    unfold isRelative
    rw [trim_of_tight htight, habsolute]
    show (!(c == '#' || c == '/' || false)) = true
    rw [beq_eq_false_iff_ne.mpr hslash, (Bool.or_eq_false_iff.mp hhash).2]
    rfl
  · rw [resolve?, trim_of_tight htight, splitSuffix_append hplain hsuffix]
    dsimp only
    rw [splitOn_join hnil fun step hstep hmem => ((hsteps step hstep).plain _ hmem).1 rfl, hwalk]
    rfl

end
end SiteBundle
