import Mathlib.Logic.Relation
import SiteBundle.Proofs.Disk.Plain
import SiteBundle.Proofs.Module.Results
import SiteBundle.Proofs.Text.Offsets
import SiteBundle.Proofs.Text.Reading

/-!
# What rolling up can come to

A roll-up that succeeds reports files of the disk.  One that fails has met a source that cannot be
read or used, which the failure says, with one exception: an import whose clause closes a brace only
before it opens one has no inside to be cut out (`ClosesFirst`).

* `CodeImports`, `ModuleImports`, `CodeReaches`   what is imported, and what that leads to;
* `RollUp.enter`, `RollUp.take`                   the parts of `RollUp.module`;
* `results_module`, `results_rollUpFile`, `results_rollUpInline`   files, and failures.
-/

namespace SiteBundle

open Text

/-- the failure of a transform -/
def Cause.isTransform : Cause → Bool
  | .code _ _ => true
  | .unresolvedImport _ _ => true
  | .unsupportedStatement _ _ => true
  | .unreadableModule _ _ => true
  | _ => false

/-- a module is refused for what it says: a statement that is not supported, or an import that names no
file -/
def Cause.isRefusal : Cause → Bool
  | .unresolvedImport _ _ => true
  | .unsupportedStatement _ _ => true
  | _ => false

theorem Cause.isTransform_of_isRefusal {cause : Cause} (h : cause.isRefusal = true) :
    cause.isTransform = true := by
  cases cause <;> first | rfl | exact nomatch h

/-! ## clauses -/

/-- a brace closes before the first one opens, and none behind -/
def ClosesFirst (clause : Text) : Prop :=
  ∃ before behind, clause = before ++ '\x7b' :: behind ∧ '\x7b' ∉ before ∧ '\x7d' ∈ before ∧
    '\x7d' ∉ behind

/-- the code imports with such a clause -/
def ImportsBackwards (code : Text) : Prop :=
  ∃ i ∈ foundIn importAt? code, ClosesFirst (trim i.clause)

theorem splitClause_eq_error {clause : Text} {cause : Cause}
    (h : splitClause clause = .error (some cause)) : cause = .outOfBounds ∧ ClosesFirst clause := by
  unfold splitClause at h
  split at h
  · exact nomatch h
  · rename_i before behind hcut
    obtain ⟨hclause, hno⟩ := cutAt?_eq_some hcut
    split at h
    · exact nomatch h
    · rename_i hbehind
      split at h
      · rename_i hbefore
        rw [List.contains_iff_mem] at hbehind hbefore
        cases h
        exact ⟨rfl, before, behind, hclause, hno, hbefore, hbehind⟩
      · exact nomatch h

/-- what binding the names of an import may fail with -/
def Failure.OfBindings (i : Import) (f : Failure) : Prop :=
  f.cause.isRefusal = true ∨ f.cause = .outOfBounds ∧ ClosesFirst (trim i.clause)

/-- the names between the braces of a clause, each with the variable it is bound to -/
def namedIn (named : Option Text) : List (Text × Text) :=
  (((named.map (splitOn ',')).getD []).map splitAlias).filter (!·.1.isEmpty)

/-- the variable outside the braces, which is bound to the default export -/
def wholeOf (whole : Text) : List (Text × Text) :=
  if whole.isEmpty then [] else [(defaultName, whole)]

/-- the text makes the variables of the import, which the scope has exports for -/
def Import.Reads (i : Import) (scope : ModuleScope) (t : Text) : Prop :=
  trim i.clause = [] ∧ t = [] ∨
    ∃ whole named, splitClause (trim i.clause) = .ok (whole, named) ∧
      (whole = [] ∨ isIdentifier whole = true) ∧
      (∀ n ∈ wholeOf whole ++ namedIn named, n.1 ∈ scope.exports) ∧
      t = join ['\n'] ((wholeOf whole ++ namedIn named).map fun n => bindingText scope n.1 n.2)

/-- the text makes variables, each of which reads an export of the scope -/
def ModuleScope.Answers (scope : ModuleScope) (t : Text) : Prop :=
  ∃ names : List (Text × Text), t = join ['\n'] (names.map fun n => bindingText scope n.1 n.2) ∧
    ∀ n ∈ names, n.1 ∈ scope.exports

theorem Import.Reads.answers {i : Import} {scope : ModuleScope} {t : Text} (h : i.Reads scope t) :
    scope.Answers t := by
  rcases h with ⟨-, rfl⟩ | ⟨whole, named, -, -, hnames, rfl⟩
  · exact ⟨[], rfl, nofun⟩
  · exact ⟨_, rfl, hnames⟩

theorem results_bindings (scope : ModuleScope) (importer : Place) (i : Import) :
    Results (bindings scope importer i) (i.Reads scope) (·.OfBindings i) := by
  -- a name is exported or not
  have hbind : ∀ name v, Results
      (if scope.exports.contains name then .ok (bindingText scope name v)
        else .error (.of (.unsupportedStatement importer
          ('\'' :: i.specifier ++ "' has no export '".toList ++ name ++ ['\'']))))
      (fun t => t = bindingText scope name v ∧ name ∈ scope.exports) (·.OfBindings i) := by
    intro name v
    split
    · rename_i hname
      exact ⟨rfl, List.contains_iff_mem.mp hname⟩
    · exact .inl rfl
  have hnamed : ∀ (named : Option Text) (first : List (Text × Text)),
      (∀ n ∈ first, n.1 ∈ scope.exports) → Results (do
        let others ← (namedIn named).mapM fun n =>
          if scope.exports.contains n.1 then .ok (bindingText scope n.1 n.2)
          else .error (.of (.unsupportedStatement importer
            ('\'' :: i.specifier ++ "' has no export '".toList ++ n.1 ++ ['\''])))
        pure (join ['\n'] (first.map (fun n => bindingText scope n.1 n.2) ++ others)))
        (fun t => (∀ n ∈ first ++ namedIn named, n.1 ∈ scope.exports) ∧
          t = join ['\n'] ((first ++ namedIn named).map fun n => bindingText scope n.1 n.2))
        (·.OfBindings i) := by
    intro named first hfirst
    rw [results_bind]
    refine (results_mapM fun n _ => hbind n.1 n.2).mono (fun others ⟨ht, hnames⟩ => ?_)
      fun _ he => he
    exact ⟨fun n hn => (List.mem_append.mp hn).elim (hfirst n) (hnames n), by rw [ht, List.map_append]⟩
  unfold bindings
  dsimp only
  split
  · rename_i hclause
    exact .inl ⟨List.isEmpty_iff.mp hclause, rfl⟩
  · split
    · rename_i parts hparts
      rw [pure_bind]
      split
      · exact .inl rfl
      · split
        · exact .inl rfl
        · rename_i hidentifier
          split
          · rename_i hwhole
            rw [pure_bind]
            refine (hnamed parts.2 [] nofun).mono (fun t ht => ?_) fun _ he => he
            refine .inr ⟨parts.1, parts.2, hparts, .inl (List.isEmpty_iff.mp hwhole), ?_⟩
            rw [wholeOf, if_pos hwhole]
            exact ht
          · rename_i hwhole
            rw [results_bind, results_map]
            refine (hbind _ _).mono (fun t ⟨ht, hname⟩ => ?_) fun _ he => he
            rw [ht]
            refine (hnamed parts.2 [(defaultName, parts.1)] (List.forall_mem_singleton.mpr hname)).mono
              (fun t ht => ?_) fun _ he => he
            rw [Bool.and_eq_true, Bool.not_eq_true', Bool.not_eq_true', not_and] at hidentifier
            refine .inr ⟨parts.1, parts.2, hparts, .inr ?_, ?_⟩
            · exact Bool.of_not_eq_false (hidentifier (Bool.eq_false_iff.mpr hwhole))
            · rw [wholeOf, if_neg hwhole]
              exact ht
    · rename_i cause h
      obtain ⟨rfl, hfirst⟩ := splitClause_eq_error h
      exact .inr ⟨rfl, hfirst⟩
    · exact .inl rfl

/-! ## imports -/

/-- code at a place imports a file -/
def CodeImports (disk : Disk) (base : Place) (code : Text) (q : Place) : Prop :=
  ∃ i ∈ foundIn importAt? code, locate? disk base i.specifier = some q

/-- a module imports a file -/
def ModuleImports (disk : Disk) (p q : Place) : Prop :=
  ∃ code, readModule disk p = .ok code ∧ CodeImports disk p.dropLast code q

/-- the imports of code at a place lead to a file -/
def CodeReaches (disk : Disk) (base : Place) (code : Text) (q : Place) : Prop :=
  ∃ p, CodeImports disk base code p ∧ Relation.ReflTransGen (ModuleImports disk) p q

/-- what the imports of an imported module lead to -/
theorem CodeImports.reaches {disk : Disk} {base p q : Place} {source code : Text}
    (h : CodeImports disk base source p) (hcode : readModule disk p = .ok code)
    (hq : CodeReaches disk p.dropLast code q) : CodeReaches disk base source q := by
  obtain ⟨first, hfirst, hpath⟩ := hq
  exact ⟨p, h, .head ⟨code, hcode, hfirst⟩ hpath⟩

theorem mem_foundIn {α : Type} {p : Spot → Text → Option (α × Text)} {t : Text} {a : α} :
    a ∈ foundIn p t ↔ ∃ o, .found o a ∈ pieces p t := by
  unfold foundIn findings
  rw [List.mem_map]
  constructor
  · rintro ⟨⟨o, b⟩, hfound, rfl⟩
    obtain ⟨piece, hpiece, heq⟩ := List.mem_filterMap.mp hfound
    cases piece with
    | plain c => exact nomatch heq
    | found o' b' =>
      obtain ⟨rfl, rfl⟩ := Prod.mk.inj (Option.some.inj heq)
      exact ⟨o', hpiece⟩
  · rintro ⟨o, h⟩
    exact ⟨(o, a), List.mem_filterMap.mpr ⟨_, h, rfl⟩, rfl⟩

/-! ## the parts of a module's roll-up -/

namespace RollUp

-- places are compared as the lists that they are
local instance lawful : LawfulBEq Place := inferInstance

/-- enters a module unless it is known; `closed` are the files that may still be entered -/
def enter (disk : Disk) (closed : List Place) (dependency : Place) (s : RollUp) :
    Except Failure RollUp :=
  if (s.scope? dependency).isSome then .ok s
  else if dependency ∈ closed then do
    let source ← readModule disk dependency
    let (code, s) ← RollUp.module disk (closed.erase dependency) dependency source s
    return { s with files := s.files ++ [dependency], chunks := s.chunks ++ [code] }
  else .error (.of (.unsupportedStatement dependency "circular import".toList))

/-- what stands for a piece of the source of a module, before what stands for the others -/
def take (disk : Disk) (closed : List Place) (path : Place) (acc : List Text × RollUp)
    (piece : Piece Import) : Except Failure (List Text × RollUp) :=
  match piece with
  | .plain c => .ok ([c] :: acc.1, acc.2)
  | .found _ i =>
    match locate? disk path.dropLast i.specifier with
    | none => .error (.of (.unresolvedImport i.specifier path))
    | some dependency => do
      let s ← acc.2.enter disk closed dependency
      match s.scope? dependency with
      | none => .error (.of (.unsupportedStatement path "circular import".toList))
      | some scope => (bindings scope path i).map fun t => (t :: acc.1, s)

theorem module_eq (disk : Disk) (closed : List Place) (path : Place) (source : Text) (s : RollUp) :
    RollUp.module disk closed path source s = (do
      let r ← (pieces importAt? source).foldlM (take disk closed path)
        ([], { s with next := s.next + 1 })
      r.2.close path s.next r.1.reverse.flatten) := by
  rw [RollUp.module]
  refine congrArg (fun step => ((pieces importAt? source).foldlM step
    (([], { s with next := s.next + 1 }) : List Text × RollUp) >>= fun r =>
      r.2.close path s.next r.1.reverse.flatten)) ?_
  funext acc piece
  cases piece with
  | plain c => rfl
  | found o i =>
    unfold take enter
    dsimp only
    cases locate? disk path.dropLast i.specifier with
    | none => rfl
    | some dependency =>
      simp only [dite_eq_ite]
      cases (if (acc.2.scope? dependency).isSome then _ else _ : Except Failure RollUp) with
      | error f => rfl
      | ok t => rfl

end RollUp

/-! ## files and failures -/

/-- a module that is reached cannot be read -/
def Failure.Unread (disk : Disk) (Reached : Place → Prop) (f : Failure) : Prop :=
  ∃ q fault, f.cause = .unreadableModule q fault ∧ Reached q ∧ ∀ code, readModule disk q ≠ .ok code

theorem Failure.Unread.isTransform {disk : Disk} {Reached : Place → Prop} {f : Failure}
    (h : f.Unread disk Reached) : f.cause.isTransform = true := by
  obtain ⟨q, fault, hcause, -⟩ := h
  rw [hcause]
  rfl

/-- what the roll-up of code at a place may fail with: the code or a module that it leads to is to
blame -/
def Failure.OfRollUp (disk : Disk) (base : Place) (source : Text) (f : Failure) : Prop :=
  f.cause.isRefusal = true ∨ f.Unread disk (CodeReaches disk base source) ∨
    f.cause = .outOfBounds ∧ (ImportsBackwards source ∨
      ∃ q code, CodeReaches disk base source q ∧ readModule disk q = .ok code ∧ ImportsBackwards code)

/-- every file is a file of the disk, and its place is plain -/
def OnDisk (disk : Disk) (files : List Place) : Prop :=
  ∀ q ∈ files, disk.isFile q = true ∧ q.Plain

section
variable {disk : Disk} {closed : List Place} {path : Place} {source : Text} {s : RollUp}

theorem OnDisk.concat {files : List Place} (h : OnDisk disk files) (hpath : disk.isFile path = true)
    (hplain : path.Plain) : OnDisk disk (files ++ [path]) := by
  intro q hq
  rcases List.mem_append.mp hq with hq | hq
  · exact h q hq
  · rw [List.mem_singleton.mp hq]
    exact ⟨hpath, hplain⟩

theorem results_readModule (disk : Disk) (path : Place) : Results (readModule disk path)
    (fun code => readModule disk path = .ok code) (·.Unread disk (· = path)) := by
  cases hread : readModule disk path with
  | ok t => exact rfl
  | error f =>
    have hall : ∀ code, readModule disk path ≠ .ok code := by
      intro code h
      rw [hread] at h
      exact nomatch h
    unfold readModule at hread
    split at hread
    · exact nomatch hread
    · cases hread
      exact ⟨path, _, rfl, rfl, hall⟩

theorem Failure.Unread.mono {P Q : Place → Prop} {f : Failure} (h : f.Unread disk P)
    (hPQ : ∀ q, P q → Q q) : f.Unread disk Q := by
  obtain ⟨q, fault, hcause, hq, hread⟩ := h
  exact ⟨q, fault, hcause, hPQ q hq, hread⟩

theorem results_close {id : Nat} {code : Text} :
    Results (s.close path id code) (fun r => r.2.files = s.files) fun f =>
      f.cause.isRefusal = true := by
  unfold RollUp.close
  split
  · exact rfl
  · exact rfl

/-- a module is entered, or was; `himport` is the import that asks for it -/
theorem results_enter {base dependency : Place} (hs : OnDisk disk s.files)
    (hfile : disk.isFile dependency = true) (hplain : dependency.Plain)
    (himport : CodeImports disk base source dependency)
    (hmodule : dependency ∈ closed → ∀ code,
      Results (RollUp.module disk (closed.erase dependency) dependency code s)
        (fun r => OnDisk disk r.2.files) (·.OfRollUp disk dependency.dropLast code)) :
    Results (s.enter disk closed dependency) (fun t => OnDisk disk t.files)
      (·.OfRollUp disk base source) := by
  unfold RollUp.enter
  split
  · exact hs
  · split
    · rename_i hmem
      rw [results_bind]
      refine (results_readModule disk dependency).mono (fun code hcode => ?_) fun f hf =>
        .inr (.inl (hf.mono fun q hq => ⟨dependency, himport, hq ▸ .refl⟩))
      rw [results_bind]
      refine (hmodule hmem code).mono (fun r hr => OnDisk.concat hr hfile hplain) fun f hf => ?_
      refine hf.imp_right (Or.imp (·.mono fun q => himport.reaches hcode) fun ⟨hout, h⟩ =>
        ⟨hout, .inr ?_⟩)
      rcases h with h | ⟨q, code', hq, hcode', h⟩
      · exact ⟨dependency, code, ⟨dependency, himport, .refl⟩, hcode, h⟩
      · exact ⟨q, code', himport.reaches hcode hq, hcode', h⟩
    · exact .inl rfl

/-- one module with everything it imports; by induction on the files that may still be entered -/
theorem results_module (disk : Disk) (closed : List Place) (path : Place) (source : Text)
    (s : RollUp) (hs : OnDisk disk s.files) :
    Results (RollUp.module disk closed path source s) (fun r => OnDisk disk r.2.files)
      (·.OfRollUp disk path.dropLast source) := by
  induction hn : closed.length using Nat.strongRecOn generalizing closed path source s with
  | _ n ih =>
    rw [RollUp.module_eq, results_bind]
    refine (results_foldlM (I := fun acc => OnDisk disk acc.2.files) hs ?_).mono
      (fun acc hacc => results_close.mono (fun r hr => by rw [hr]; exact hacc) fun _ he => .inl he)
      fun _ he => he
    intro piece hpiece acc hacc
    cases piece with
    | plain c => exact hacc
    | found o i =>
      have hi : i ∈ foundIn importAt? source := mem_foundIn.mpr ⟨o, hpiece⟩
      unfold RollUp.take
      dsimp only
      split
      · exact .inl rfl
      · rename_i dependency hloc
        obtain ⟨hfile, hplain⟩ := isFile_of_locate? hloc
        rw [results_bind]
        refine (results_enter hacc hfile hplain ⟨i, hi, hloc⟩ fun hmem code => ?_).mono
          (fun t ht => ?_) fun _ he => he
        · refine ih _ ?_ _ dependency code acc.2 hacc rfl
          rw [← hn, List.length_erase_of_mem hmem]
          exact Nat.sub_lt (List.length_pos_of_mem hmem) Nat.one_pos
        · split
          · exact .inl rfl
          · rename_i scope _
            rw [results_map]
            refine (results_bindings scope path i).mono (fun _ _ => ht) fun f hf => ?_
            exact hf.imp_right fun h => .inr ⟨h.1, .inl ⟨i, hi, h.2⟩⟩

/-- what the roll-up of a file may fail with -/
theorem refused_rollUpFile (disk : Disk) (path : Place) :
    Results (rollUpFile disk path) (fun r => OnDisk disk r.files) fun f =>
      f.cause.isRefusal = true ∨
      f.Unread disk (Relation.ReflTransGen (ModuleImports disk) (Place.normalised [] path)) ∨
      f.cause = .outOfBounds ∧ ∃ q code,
        Relation.ReflTransGen (ModuleImports disk) (Place.normalised [] path) q ∧
          readModule disk q = .ok code ∧ ImportsBackwards code := by
  have hplain : (Place.normalised [] path).Plain :=
    Place.plain_normalised (fun _ hname => absurd hname List.not_mem_nil) _
  unfold rollUpFile
  rw [results_bind]
  refine (results_readModule disk _).mono (fun code hcode => ?_) fun f hf =>
    .inr (.inl (hf.mono fun q hq => hq ▸ .refl))
  rw [results_bind]
  refine (results_module disk _ _ code .nothing fun _ hq => absurd hq List.not_mem_nil).mono
    (fun r hr => OnDisk.concat hr (isFile_of_readModule hplain hcode) hplain) fun f hf => ?_
  refine hf.imp_right (Or.imp (·.mono fun q ⟨first, hfirst, hpath⟩ => .head ⟨code, hcode, hfirst⟩ hpath)
    fun ⟨hout, h⟩ => ⟨hout, ?_⟩)
  rcases h with h | ⟨q, code', ⟨first, hfirst, hpath⟩, hcode', h⟩
  · exact ⟨_, code, .refl, hcode, h⟩
  · exact ⟨q, code', .head ⟨code, hcode, hfirst⟩ hpath, hcode', h⟩

theorem refused_rollUpInline (disk : Disk) (base : Place) (code : Text) :
    Results (rollUpInline disk base code) (fun r => OnDisk disk r.files)
      (·.OfRollUp disk base code) := by
  unfold rollUpInline
  rw [results_bind]
  refine (results_module disk _ _ code .nothing fun _ hq => absurd hq List.not_mem_nil).mono
    (fun _ hr => hr) fun f hf => ?_
  rw [List.dropLast_concat] at hf
  exact hf

theorem results_rollUpFile (disk : Disk) (path : Place) :
    Results (rollUpFile disk path) (fun r => OnDisk disk r.files) fun f =>
      f.cause.isTransform = true ∨ f.cause = .outOfBounds ∧ ∃ q code,
        Relation.ReflTransGen (ModuleImports disk) (Place.normalised [] path) q ∧
          readModule disk q = .ok code ∧ ImportsBackwards code := by
  refine (refused_rollUpFile disk path).mono (fun _ hr => hr) fun f hf => ?_
  rcases hf with h | h | h
  · exact .inl (Cause.isTransform_of_isRefusal h)
  · exact .inl h.isTransform
  · exact .inr h

theorem results_rollUpInline (disk : Disk) (base : Place) (code : Text) :
    Results (rollUpInline disk base code) (fun r => OnDisk disk r.files) fun f =>
      f.cause.isTransform = true ∨ f.cause = .outOfBounds ∧ (ImportsBackwards code ∨
        ∃ q code', CodeReaches disk base code q ∧ readModule disk q = .ok code' ∧
          ImportsBackwards code') := by
  refine (refused_rollUpInline disk base code).mono (fun _ hr => hr) fun f hf => ?_
  rcases hf with h | h | h
  · exact .inl (Cause.isTransform_of_isRefusal h)
  · exact .inl h.isTransform
  · exact .inr h

end
end SiteBundle
