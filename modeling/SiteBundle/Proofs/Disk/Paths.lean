import SiteBundle.Proofs.Disk.Plain
import SiteBundle.Proofs.Text.Reading
import SiteBundle.Proofs.Tree.Rooted

/-!
# Paths and their pieces

The pieces of a path are what stands between its slashes, but for empty ones.  Joined names give the
path whose pieces they are, when none of them has a slash (`pathPieces_join`).  So the path of an entry
below a directory leads through the steps of the directory and then through the names of the entry
(`Disk.steps_below`), and a node of the tree is found at the place of the source directory followed
by its names (`Tree.place_eq`).

* `IsEntryName`     a name that an entry of a folder can have;
* `Disk.route`      the steps of a path without the empty one of a trailing slash;
* `Disk.destination`   where a path leads, as far as its text says.
-/

namespace SiteBundle

open Text

/-- a name that an entry of a folder can have -/
def IsEntryName (name : Text) : Prop := isPlainName name = true ∧ '/' ∉ name

theorem IsEntryName.ne_nil {name : Text} (h : IsEntryName name) : name ≠ [] := by
  rintro rfl
  exact nomatch h.1

/-! ## pieces -/

def pathPieces (path : Text) : List Text := (splitOn '/' path).filter (!·.isEmpty)

theorem pathPieces_append_slash (t u : Text) :
    pathPieces (t ++ '/' :: u) = pathPieces t ++ pathPieces u := by
  rw [pathPieces, splitOn_append, List.filter_append]
  rfl

theorem pathPieces_ne_nil {path name : Text} (h : name ∈ pathPieces path) : name ≠ [] := by
  have hname := (List.mem_filter.mp h).2
  rintro rfl
  exact nomatch hname

theorem pathPieces_entryName {name : Text} (h : IsEntryName name) : pathPieces name = [name] := by
  rw [pathPieces, splitOn_of_not_mem h.2]
  refine List.filter_eq_self.mpr fun t ht => ?_
  rw [List.mem_singleton.mp ht, List.isEmpty_eq_false_iff.mpr h.ne_nil]
  rfl

theorem pathPieces_join {names : List Text} (h : ∀ name ∈ names, IsEntryName name) :
    pathPieces (join ['/'] names) = names := by
  induction names with
  | nil => rfl
  | cons name names ih =>
    obtain ⟨hname, hnames⟩ := List.forall_mem_cons.mp h
    cases names with
    | nil => exact pathPieces_entryName hname
    | cons next names =>
      have hjoin : join ['/'] (name :: next :: names) = name ++ '/' :: join ['/'] (next :: names) :=
        List.append_assoc name ['/'] _
      rw [hjoin, pathPieces_append_slash, pathPieces_entryName hname, ih hnames]
      rfl

/-- joined names begin and end with characters of names -/
theorem join_ends {names : List Text} (hne : names ≠ []) (h : ∀ name ∈ names, IsEntryName name) :
    isRooted (join ['/'] names) = false ∧ (join ['/'] names).getLast? ≠ some '/' ∧
      (join ['/'] names).isEmpty = false := by
  induction names with
  | nil => exact absurd rfl hne
  | cons name names ih =>
    obtain ⟨hname, hnames⟩ := List.forall_mem_cons.mp h
    obtain ⟨c, r, rfl⟩ := List.exists_cons_of_ne_nil hname.ne_nil
    have hc : c ≠ '/' := fun hc => hname.2 (hc ▸ List.mem_cons_self)
    have hhead : ∀ t : Text, isRooted ((c :: r) ++ t) = false := by
      intro t
      rw [isRooted, List.cons_append, List.head?_cons]
      exact beq_eq_false_iff_ne.mpr fun heq => hc (Option.some.inj heq)
    cases names with
    | nil =>
      refine ⟨List.append_nil (c :: r) ▸ hhead [], fun hlast => ?_, rfl⟩
      exact hname.2 (List.mem_of_getLast? hlast)
    | cons next names =>
      have hjoin : join ['/'] ((c :: r) :: next :: names) =
          (c :: r) ++ (['/'] ++ join ['/'] (next :: names)) := List.append_assoc (c :: r) ['/'] _
      obtain ⟨-, hlast, hempty⟩ := ih (List.cons_ne_nil _ _) hnames
      rw [hjoin]
      refine ⟨hhead _, ?_, rfl⟩
      cases hrest : (join ['/'] (next :: names)).getLast? with
      | none =>
        rw [List.getLast?_eq_none_iff.mp hrest] at hempty
        exact nomatch hempty
      | some d =>
        rw [List.getLast?_append, List.getLast?_append, hrest]
        rw [hrest] at hlast
        exact hlast

theorem pathSteps_eq (path : Text) :
    pathSteps path = pathPieces path ∨ pathSteps path = pathPieces path ++ [[]] := by
  unfold pathSteps
  dsimp only
  split
  · exact .inr rfl
  · exact .inl rfl

/-! ## routes -/

namespace Disk
variable {d : Disk} {dist : Text}

/-- the steps of a path without the empty one of a trailing slash -/
def route (d : Disk) (path : Text) : List Text :=
  (if isRooted path then [] else d.cwd) ++ pathPieces path

/-- where a path leads, as far as its text says -/
def destination (d : Disk) (path : Text) : Place := Place.normalised [] (d.route path)

theorem steps_eq (d : Disk) (path : Text) :
    d.steps path = d.route path ∨ d.steps path = d.route path ++ [[]] := by
  have hsteps : d.steps path = (if isRooted path then [] else d.cwd) ++ pathSteps path := by
    unfold steps
    split <;> rfl
  rw [hsteps, route]
  rcases pathSteps_eq path with h | h
  · exact .inl (by rw [h])
  · exact .inr (by rw [h, List.append_assoc])

/-- the steps of a path end where it leads -/
theorem normalised_steps (d : Disk) (path : Text) :
    Place.normalised [] (d.steps path) = d.destination path := by
  rcases d.steps_eq path with h | h
  · rw [h, destination]
  · rw [h, destination, Place.normalised, List.foldl_append]
    rfl

/-- the steps of an entry's path below a directory -/
theorem steps_below {names : List Text} (hne : names ≠ [])
    (h : ∀ name ∈ names, IsEntryName name) :
    d.steps (joinPath dist (join ['/'] names)) = d.route dist ++ names := by
  obtain ⟨hrooted, hlast, hempty⟩ := join_ends hne h
  have hpieces := pathPieces_join h
  generalize join ['/'] names = path at hrooted hlast hempty hpieces
  have hsteps : ∀ t : Text, t.getLast? ≠ some '/' →
      d.steps t = (if isRooted t then [] else d.cwd) ++ pathPieces t := by
    intro t ht
    unfold steps pathSteps pathPieces
    dsimp only
    rw [if_neg ht]
    split <;> rfl
  obtain ⟨c, hc⟩ : ∃ c, path.getLast? = some c :=
    Option.isSome_iff_exists.mp (List.getLast?_isSome.mpr (List.isEmpty_eq_false_iff.mp hempty))
  have hjoined : ∀ front : Text, (front ++ path).getLast? ≠ some '/' := by
    intro front
    rw [List.getLast?_append, hc]
    rw [hc] at hlast
    exact hlast
  unfold joinPath route
  cases dist with
  | nil =>
    have hnil : pathPieces [] = [] := rfl
    rw [List.isEmpty_nil, Bool.or_true, if_pos rfl, hsteps path hlast, hrooted, hpieces, hnil,
      List.append_nil]
    rfl
  | cons a dist =>
    have hhead : ∀ t : Text, isRooted ((a :: dist) ++ t) = isRooted (a :: dist) := fun _ => rfl
    rw [hrooted, List.isEmpty_cons, Bool.or_false, if_neg Bool.false_ne_true]
    split
    · rename_i hslash
      -- the slash at the end of the directory separates the two
      obtain ⟨front, hfront⟩ := List.getLast?_eq_some_iff.mp hslash
      have hboth : pathPieces ((a :: dist) ++ path) = pathPieces (a :: dist) ++ pathPieces path := by
        have hempty : pathPieces [] = [] := rfl
        rw [hfront, List.append_assoc, List.singleton_append, pathPieces_append_slash,
          pathPieces_append_slash, hempty, List.append_nil]
      rw [hsteps _ (hjoined _), hhead, hboth, hpieces, List.append_assoc]
    · have hboth : (a :: dist) ++ '/' :: path = ((a :: dist) ++ ['/']) ++ path := by
        rw [List.append_assoc]
        rfl
      rw [hboth, hsteps _ (hjoined _), ← hboth, hhead, pathPieces_append_slash, hpieces,
        List.append_assoc]

end Disk

/-! ## places of nodes -/

/-- the place of a node whose names are those of entries -/
theorem Tree.place_eq {t : Tree} {id : NodeId} (h : ∀ name ∈ t.names id, IsEntryName name) :
    t.place id = t.top ++ t.names id :=
  congrArg (t.top ++ ·) (pathPieces_join h)

end SiteBundle
