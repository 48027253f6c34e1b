import SiteBundle.Proofs.Disk.Listing
import SiteBundle.Proofs.Module.RollUp

/-!
# The order of rolled up modules

Modules are finished depth first.  When one is finished, all that it imports was finished before it
(`FinishedModule.Made`), so a list of finished modules is in order, and nothing in it leads back to
itself (`Finished.acyclic`).

* `Finished`           modules in the order they were finished, each made of those before it;
* `RollUp.Holds`       a state of the roll-up, read as such a list;
* `rolled_module`      what one module adds to the list: what its imports lead to, and then itself;
* `rollUp_ordered`     a whole script.

Every module that is entered is taken from the files that may still be entered, so the same file is
never entered again further down, and the walk ends.
-/

namespace SiteBundle

open Text

/-! ## finished modules -/

/-- a module that has been rolled up -/
structure FinishedModule where
  path : Place
  number : Nat
  source : Text
  /-- the source with its imports replaced and its exports taken out -/
  code : Text
  exports : Exports

namespace FinishedModule

def scope (m : FinishedModule) : ModuleScope := ⟨moduleVariable m.number, m.exports.map (·.1)⟩

/-- the module in a function of its own -/
def text (m : FinishedModule) : Text := scopeText m.scope.binding m.code m.exports

variable {disk : Disk} {base q : Place} {earlier earlier' : List FinishedModule} {m : FinishedModule}

/-- what stands for a piece of a source; for an import, variables that read exports of a module that
was finished before -/
def Stands (disk : Disk) (earlier : List FinishedModule) (base : Place) :
    Piece Import → Text → Prop
  | .plain c, part => part = [c]
  | .found _ i, part => ∃ d ∈ earlier, locate? disk base i.specifier = some d.path ∧
      d.scope.Answers part

/-- the same with the variables that the import makes, for the module at `path` -/
def Binds (disk : Disk) (earlier : List FinishedModule) (path : Place) :
    Piece Import → Text → Prop
  | .plain c, part => part = [c]
  | .found _ i, part => ∃ d ∈ earlier, locate? disk path.dropLast i.specifier = some d.path ∧
      bindings d.scope path i = .ok part

theorem Binds.mono {path : Place} {piece : Piece Import} {part : Text}
    (h : Binds disk earlier path piece part) (hsub : earlier ⊆ earlier') :
    Binds disk earlier' path piece part := by
  cases piece with
  | plain c => exact h
  | found o i =>
    obtain ⟨d, hd, hrest⟩ := h
    exact ⟨d, hsub hd, hrest⟩

theorem Binds.stands {path : Place} {piece : Piece Import} {part : Text}
    (h : Binds disk earlier path piece part) : Stands disk earlier path.dropLast piece part := by
  cases piece with
  | plain c => exact h
  | found o i =>
    obtain ⟨d, hd, hloc, hbindings⟩ := h
    have hresults := results_bindings d.scope path i
    rw [hbindings] at hresults
    exact ⟨d, hd, hloc, hresults.answers⟩

/-- the module is made of its source and of modules that were finished before -/
def Made (disk : Disk) (earlier : List FinishedModule) (m : FinishedModule) : Prop :=
  ∃ parts, List.Forall₂ (Stands disk earlier m.path.dropLast) (pieces importAt? m.source) parts ∧
    withoutExports parts.flatten (defaultVariable m.number) = .ok (m.code, m.exports)

/-- the module is made of its source with the variables that its imports make -/
def Bound (disk : Disk) (earlier : List FinishedModule) (m : FinishedModule) : Prop :=
  ∃ parts, List.Forall₂ (Binds disk earlier m.path) (pieces importAt? m.source) parts ∧
    withoutExports parts.flatten (defaultVariable m.number) = .ok (m.code, m.exports)

theorem Bound.mono (h : m.Bound disk earlier) (hsub : earlier ⊆ earlier') : m.Bound disk earlier' := by
  obtain ⟨parts, hparts, hexports⟩ := h
  exact ⟨parts, hparts.imp fun _ _ hpart => hpart.mono hsub, hexports⟩

theorem Bound.made (h : m.Bound disk earlier) : m.Made disk earlier := by
  obtain ⟨parts, hparts, hexports⟩ := h
  exact ⟨parts, hparts.imp fun _ _ => Binds.stands, hexports⟩

/-- what the module imports was finished before -/
theorem Made.mem_of_imports (h : m.Made disk earlier)
    (hq : CodeImports disk m.path.dropLast m.source q) : q ∈ earlier.map (·.path) := by
  obtain ⟨parts, hparts, -⟩ := h
  obtain ⟨i, hi, hloc⟩ := hq
  obtain ⟨o, hpiece⟩ := mem_foundIn.mp hi
  obtain ⟨k, hk, hget⟩ := List.mem_iff_getElem.mp hpiece
  have hstands := hparts.get hk (hparts.length_eq ▸ hk)
  rw [List.get_eq_getElem, hget] at hstands
  obtain ⟨d, hd, hloc', -⟩ := hstands
  rw [Option.some.inj (hloc.symm.trans hloc')]
  exact List.mem_map_of_mem hd

end FinishedModule

/-- modules in the order they were finished, each with its file and made of those before it -/
inductive Finished (disk : Disk) : List FinishedModule → Prop
  | nil : Finished disk []
  | concat {ms : List FinishedModule} {m : FinishedModule} : Finished disk ms →
      readModule disk m.path = .ok m.source → m.Bound disk ms → m.path ∉ ms.map (·.path) →
      m.number ∉ ms.map (·.number) → Finished disk (ms ++ [m])

namespace Finished
variable {disk : Disk} {ms : List FinishedModule} {p q : Place}

theorem nodup_paths (h : Finished disk ms) : (ms.map (·.path)).Nodup := by
  induction h with
  | nil => exact List.nodup_nil
  | concat _ _ _ hpath _ ih =>
    rw [List.map_append, List.map_singleton, ← List.concat_eq_append]
    exact (List.nodup_concat _ _).mpr ⟨hpath, ih⟩

theorem nodup_numbers (h : Finished disk ms) : (ms.map (·.number)).Nodup := by
  induction h with
  | nil => exact List.nodup_nil
  | concat _ _ _ _ hnumber ih =>
    rw [List.map_append, List.map_singleton, ← List.concat_eq_append]
    exact (List.nodup_concat _ _).mpr ⟨hnumber, ih⟩

theorem read (h : Finished disk ms) : ∀ m ∈ ms, readModule disk m.path = .ok m.source := by
  induction h with
  | nil => exact nofun
  | concat _ hread _ _ _ ih =>
    exact List.forall_mem_append.mpr ⟨ih, List.forall_mem_singleton.mpr hread⟩

/-- each module is made of those before it -/
theorem bound (h : Finished disk ms) {m : FinishedModule} {earlier later : List FinishedModule}
    (hms : ms = earlier ++ m :: later) : m.Bound disk earlier := by
  induction h generalizing later with
  | nil => exact absurd hms.symm (List.append_ne_nil_of_right_ne_nil _ (List.cons_ne_nil _ _))
  | @concat ms m' _ _ hbound _ _ ih =>
    rcases List.eq_nil_or_concat later with rfl | ⟨later, last, rfl⟩
    · obtain ⟨rfl, hlast⟩ := List.append_inj' hms rfl
      rw [← List.head_eq_of_cons_eq hlast]
      exact hbound
    · rw [List.concat_eq_append, ← List.cons_append, ← List.append_assoc] at hms
      exact ih (List.append_inj' hms rfl).1

/-- what a module imports comes before it -/
theorem sublist_of_imports (h : Finished disk ms) (hp : p ∈ ms.map (·.path))
    (hq : ModuleImports disk p q) : [q, p].Sublist (ms.map (·.path)) := by
  induction h with
  | nil => exact nomatch hp
  | @concat ms m _ hread hbound _ _ ih =>
    rw [List.map_append, List.map_singleton] at hp ⊢
    rcases List.mem_append.mp hp with hp | hp
    · exact (ih hp).trans (List.sublist_append_left _ _)
    · obtain rfl := List.mem_singleton.mp hp
      obtain ⟨code, hcode, himport⟩ := hq
      obtain rfl := Except.ok.inj (hread.symm.trans hcode)
      exact (List.singleton_sublist.mpr (hbound.made.mem_of_imports himport)).append (.refl [m.path])

theorem mem_of_imports (h : Finished disk ms) (hp : p ∈ ms.map (·.path))
    (hq : ModuleImports disk p q) : q ∈ ms.map (·.path) :=
  (h.sublist_of_imports hp hq).subset List.mem_cons_self

theorem mem_of_reaches (h : Finished disk ms) (hp : p ∈ ms.map (·.path))
    (hq : Relation.ReflTransGen (ModuleImports disk) p q) : q ∈ ms.map (·.path) := by
  induction hq with
  | refl => exact hp
  | tail _ himport ih => exact h.mem_of_imports ih himport

/-- **Nothing in the list leads back to itself.** -/
theorem acyclic (h : Finished disk ms) (hp : p ∈ ms.map (·.path)) :
    ¬ Relation.TransGen (ModuleImports disk) p p := by
  induction h with
  | nil => exact nomatch hp
  | @concat ms m hms hread hbound hnew _ ih =>
    rw [List.map_append, List.map_singleton] at hp
    rcases List.mem_append.mp hp with hp | hp
    · exact ih hp
    · -- the first import of the last module is before it, and from there nothing leads to it
      obtain rfl := List.mem_singleton.mp hp
      intro hcircle
      obtain ⟨q, ⟨code, hcode, himport⟩, hback⟩ := Relation.TransGen.head'_iff.mp hcircle
      obtain rfl := Except.ok.inj (hread.symm.trans hcode)
      exact hnew (hms.mem_of_reaches (hbound.made.mem_of_imports himport) hback)

end Finished

/-! ## the state of a roll-up -/

/-- the modules that were rolled up so far -/
structure RollUp.Holds (disk : Disk) (s : RollUp) (ms : List FinishedModule) : Prop where
  finished : Finished disk ms
  scopes : s.scopes = ms.map fun m => (m.path, m.scope)
  chunks : s.chunks = ms.map (·.text)
  files : s.files = ms.map (·.path)
  below : ∀ m ∈ ms, m.number < s.next

namespace RollUp.Holds
variable {disk : Disk} {s : RollUp} {ms : List FinishedModule} {p : Place}

theorem scope?_eq (h : Holds disk s ms) :
    s.scope? p = (ms.find? fun m => m.path == p).map (·.scope) := by
  rw [scope?, h.scopes, List.find?_map, Option.map_map]
  rfl

theorem mem_of_scope? (h : Holds disk s ms) {scope : ModuleScope} (hscope : s.scope? p = some scope) :
    ∃ d ∈ ms, d.path = p ∧ d.scope = scope := by
  rw [h.scope?_eq] at hscope
  obtain ⟨d, hfind, hd⟩ := Option.map_eq_some_iff.mp hscope
  have hpath := List.find?_some hfind
  exact ⟨d, List.mem_of_find?_eq_some hfind, beq_iff_eq.mp hpath, hd⟩

theorem not_mem_of_scope? (h : Holds disk s ms) (hscope : (s.scope? p).isSome ≠ true) :
    p ∉ ms.map (·.path) := by
  intro hp
  obtain ⟨d, hd, hpath⟩ := List.mem_map.mp hp
  rw [h.scope?_eq, Option.isSome_map] at hscope
  exact hscope (List.find?_isSome.mpr ⟨d, hd, beq_iff_eq.mpr hpath⟩)

end RollUp.Holds

/-- modules that were added since: from the files that might be entered, with new numbers, and none that
nothing leads to -/
def Added (closed : List Place) (next : Nat) (leads : Place → Prop) (new : List FinishedModule) :
    Prop :=
  ∀ m ∈ new, m.path ∈ closed ∧ next ≤ m.number ∧ leads m.path

/-- the module `m` was rolled up from `s`, and before it what its imports lead to -/
structure RollUp.Rolled (disk : Disk) (closed : List Place) (s : RollUp) (ms new : List FinishedModule)
    (m : FinishedModule) (t : RollUp) : Prop where
  holds : Holds disk t (ms ++ new)
  bound : m.Bound disk (ms ++ new)
  number : m.number = s.next
  next : s.next < t.next
  added : Added closed (s.next + 1) (CodeReaches disk m.path.dropLast m.source) new

/-- what comes of rolling up a module: its code, and its scope behind the others -/
def RollUp.RollsUp (disk : Disk) (closed : List Place) (path : Place) (source : Text) (s : RollUp)
    (ms : List FinishedModule) (r : Text × RollUp) : Prop :=
  ∃ new m t, Rolled disk closed s ms new m t ∧ m.path = path ∧ m.source = source ∧
    r = (m.text, { t with scopes := t.scopes ++ [(path, m.scope)] })

/-- a module was entered, or was before -/
def RollUp.Entered (disk : Disk) (closed : List Place) (dependency : Place) (s : RollUp)
    (ms : List FinishedModule) (t : RollUp) : Prop :=
  ∃ new, Holds disk t (ms ++ new) ∧ s.next ≤ t.next ∧
    Added closed s.next (Relation.ReflTransGen (ModuleImports disk) dependency) new

section
variable {disk : Disk} {closed : List Place} {path dependency : Place} {source : Text} {s t : RollUp}
  {ms new : List FinishedModule} {m : FinishedModule}

/-- a module that was rolled up is put behind the others, when its file is new -/
theorem RollUp.Rolled.holds_concat (h : Rolled disk closed s ms new m t) (hs : s.Holds disk ms)
    (hread : readModule disk m.path = .ok m.source) (hold : m.path ∉ ms.map (·.path))
    (hclosed : m.path ∉ closed) :
    Holds disk ⟨t.scopes ++ [(m.path, m.scope)], t.chunks ++ [m.text], t.files ++ [m.path], t.next⟩
      (ms ++ (new ++ [m])) := by
  have hpath : m.path ∉ (ms ++ new).map (·.path) := by
    rw [List.map_append, List.mem_append]
    rintro (hmem | hmem)
    · exact hold hmem
    · obtain ⟨x, hx, heq⟩ := List.mem_map.mp hmem
      exact hclosed (heq ▸ (h.added x hx).1)
  have hnumber : m.number ∉ (ms ++ new).map (·.number) := by
    rw [h.number, List.map_append, List.mem_append]
    rintro (hmem | hmem)
    · obtain ⟨x, hx, heq⟩ := List.mem_map.mp hmem
      exact Nat.ne_of_lt (hs.below x hx) heq
    · obtain ⟨x, hx, heq⟩ := List.mem_map.mp hmem
      exact Nat.ne_of_gt (h.added x hx).2.1 heq
  rw [← List.append_assoc]
  refine ⟨h.holds.finished.concat hread h.bound hpath hnumber, ?_, ?_, ?_, ?_⟩
  · rw [List.map_append, ← h.holds.scopes, List.map_singleton]
  · rw [List.map_append, ← h.holds.chunks, List.map_singleton]
  · rw [List.map_append, ← h.holds.files, List.map_singleton]
  · exact List.forall_mem_append.mpr ⟨h.holds.below, List.forall_mem_singleton.mpr (h.number ▸ h.next)⟩

/-- entering a module, by what rolling it up does -/
theorem entered_enter (hs : s.Holds disk ms) (hclosed : closed.Nodup)
    (hmodule : dependency ∈ closed → ∀ code,
      Results (RollUp.module disk (closed.erase dependency) dependency code s)
        (RollUp.RollsUp disk (closed.erase dependency) dependency code s ms) fun _ => True) :
    Results (s.enter disk closed dependency) (RollUp.Entered disk closed dependency s ms)
      fun _ => True := by
  unfold RollUp.enter
  split
  · exact ⟨[], by rw [List.append_nil]; exact hs, Nat.le_refl _, nofun⟩
  · rename_i hscope
    split
    · rename_i hmem
      rw [results_bind]
      refine (results_readModule disk dependency).mono (fun code hcode => ?_) fun _ _ => trivial
      rw [results_bind]
      refine (hmodule hmem code).mono ?_ fun _ _ => trivial
      rintro r ⟨new, m, t, ht, rfl, rfl, rfl⟩
      refine ⟨new ++ [m], ht.holds_concat hs hcode (hs.not_mem_of_scope? hscope)
        hclosed.not_mem_erase, Nat.le_of_lt ht.next, ?_⟩
      refine List.forall_mem_append.mpr ⟨fun x hx => ?_, List.forall_mem_singleton.mpr ?_⟩
      · -- what the imports of the module lead to, it leads to
        obtain ⟨hx, hnumber, first, hfirst, hleads⟩ := ht.added x hx
        exact ⟨List.mem_of_mem_erase hx, Nat.le_of_succ_le hnumber, .head ⟨_, hcode, hfirst⟩ hleads⟩
      · rw [ht.number]
        exact ⟨hmem, Nat.le_refl _, .refl⟩
    · exact trivial

/-- the pieces of a source, one after the other -/
theorem results_takes (hclosed : closed.Nodup)
    (hmodule : ∀ dependency ∈ closed, ∀ code (s : RollUp) ms, s.Holds disk ms →
      Results (RollUp.module disk (closed.erase dependency) dependency code s)
        (RollUp.RollsUp disk (closed.erase dependency) dependency code s ms) fun _ => True)
    {l : List (Piece Import)} (hl : l ⊆ pieces importAt? source) (hs : s.Holds disk ms)
    (texts : List Text) :
    Results (l.foldlM (RollUp.take disk closed path) (texts, s)) (fun r => ∃ new parts,
      r.1 = parts.reverse ++ texts ∧ r.2.Holds disk (ms ++ new) ∧ s.next ≤ r.2.next ∧
      List.Forall₂ (FinishedModule.Binds disk (ms ++ new) path) l parts ∧
      Added closed s.next (CodeReaches disk path.dropLast source) new) fun _ => True := by
  induction l generalizing s ms texts with
  | nil =>
    refine ⟨[], [], rfl, ?_, Nat.le_refl _, .nil, nofun⟩
    rw [List.append_nil]
    exact hs
  | cons piece l ih =>
    obtain ⟨hpiece, hl⟩ := List.cons_subset.mp hl
    rw [List.foldlM_cons, results_bind]
    -- what stands for the first piece, and the modules that it adds
    have hfirst : Results (RollUp.take disk closed path (texts, s) piece) (fun r => ∃ new part,
        r.1 = part :: texts ∧ r.2.Holds disk (ms ++ new) ∧ s.next ≤ r.2.next ∧
        FinishedModule.Binds disk (ms ++ new) path piece part ∧
        Added closed s.next (CodeReaches disk path.dropLast source) new) fun _ => True := by
      cases piece with
      | plain c =>
        refine ⟨[], [c], rfl, ?_, Nat.le_refl _, rfl, nofun⟩
        rw [List.append_nil]
        exact hs
      | found o i =>
        unfold RollUp.take
        dsimp only
        split
        · exact trivial
        · rename_i dependency hloc
          rw [results_bind]
          refine (entered_enter hs hclosed fun hmem code => hmodule _ hmem code s ms hs).mono ?_
            fun _ _ => trivial
          rintro t ⟨new, ht, hnext, hnew⟩
          split
          · exact trivial
          · rename_i scope hscope
            obtain ⟨d, hd, rfl, rfl⟩ := ht.mem_of_scope? hscope
            cases hpart : bindings d.scope path i with
            | error f => exact trivial
            | ok part =>
              refine ⟨new, part, rfl, ht, hnext, ⟨d, hd, hloc, hpart⟩, fun x hx => ?_⟩
              obtain ⟨hx, hnumber, hleads⟩ := hnew x hx
              exact ⟨hx, hnumber, d.path, ⟨i, mem_foundIn.mpr ⟨o, hpiece⟩, hloc⟩, hleads⟩
    refine hfirst.mono ?_ fun _ _ => trivial
    rintro ⟨texts', t⟩ ⟨new, part, rfl, ht, hnext, hpart, hnew⟩
    refine (ih hl ht _).mono ?_ fun _ _ => trivial
    rintro r ⟨new', parts, hr, hholds, hnext', hparts, hnew'⟩
    rw [List.append_assoc] at hholds hparts
    refine ⟨new ++ new', part :: parts, ?_, hholds, Nat.le_trans hnext hnext', ?_, ?_⟩
    · rw [hr, List.reverse_cons, List.append_assoc]
      rfl
    · refine .cons (hpart.mono ?_) hparts
      rw [← List.append_assoc]
      exact List.subset_append_left _ _
    · refine List.forall_mem_append.mpr ⟨hnew, fun x hx => ?_⟩
      obtain ⟨hx, hnumber, hleads⟩ := hnew' x hx
      exact ⟨hx, Nat.le_trans hnext hnumber, hleads⟩

/-- one module with everything it imports; by induction on the files that may still be entered, which
are fewer for what it imports -/
theorem rolled_module (disk : Disk) (closed : List Place) (hclosed : closed.Nodup) (path : Place)
    (source : Text) (s : RollUp) (ms : List FinishedModule) (hs : s.Holds disk ms) :
    Results (RollUp.module disk closed path source s)
      (RollUp.RollsUp disk closed path source s ms) fun _ => True := by
  induction hn : closed.length using Nat.strongRecOn generalizing closed path source s ms with
  | _ n ih =>
    have hmodule : ∀ dependency ∈ closed, ∀ code (s : RollUp) ms, s.Holds disk ms →
        Results (RollUp.module disk (closed.erase dependency) dependency code s)
          (RollUp.RollsUp disk (closed.erase dependency) dependency code s ms) fun _ => True := by
      intro dependency hmem code s ms hs
      refine ih _ ?_ _ (hclosed.erase dependency) dependency code s ms hs rfl
      rw [← hn, List.length_erase_of_mem hmem]
      exact Nat.sub_lt (List.length_pos_of_mem hmem) Nat.one_pos
    have hstart : RollUp.Holds disk { s with next := s.next + 1 } ms :=
      ⟨hs.finished, hs.scopes, hs.chunks, hs.files, fun m hm => Nat.lt_succ_of_lt (hs.below m hm)⟩
    rw [RollUp.module_eq, results_bind]
    refine (results_takes hclosed hmodule (List.Subset.refl _) hstart []).mono ?_ fun _ _ => trivial
    rintro ⟨texts, t⟩ ⟨new, parts, rfl, ht, hnext, hparts, hnew⟩
    rw [List.append_nil, List.reverse_reverse]
    unfold RollUp.close
    split
    · exact trivial
    · rename_i code exports hexports
      exact ⟨new, ⟨path, s.next, source, code, exports⟩, t,
        ⟨ht, ⟨parts, hparts, hexports⟩, rfl, hnext, hnew⟩, rfl, rfl, rfl⟩

end

/-! ## whole scripts -/

theorem infix_join {sep t : Text} {l : List Text} (h : t ∈ l) : t <:+: join sep l := by
  induction l with
  | nil => exact nomatch h
  | cons u l ih =>
    cases l with
    | nil =>
      rw [List.mem_singleton.mp h]
      exact List.infix_rfl
    | cons v l =>
      rw [join]
      rcases List.mem_cons.mp h with rfl | h
      · rw [List.append_assoc]
        exact (List.prefix_append _ _).isInfix
      · exact (ih h).trans (List.suffix_append _ _).isInfix

/-- every export of a module is a field of the object that it returns -/
theorem FinishedModule.infix_returnText {m : FinishedModule} {name : Text}
    (h : name ∈ m.scope.exports) :
    ∃ v, (name, v) ∈ m.exports ∧ name ++ ": ".toList ++ v <:+: returnText m.exports := by
  obtain ⟨⟨name, v⟩, he, rfl⟩ := List.mem_map.mp h
  refine ⟨v, he, ?_⟩
  unfold returnText
  rw [if_neg (by rw [List.isEmpty_iff]; exact List.ne_nil_of_mem he)]
  have hfield : name ++ ": ".toList ++ v ∈ m.exports.map fun e => e.1 ++ ": ".toList ++ e.2 :=
    List.mem_map.mpr ⟨_, he, rfl⟩
  exact (infix_join hfield).trans (List.infix_append _ _ _)

/-- what is rolled up: a module with a file, or code at a place -/
inductive ModuleEntry where
  | file (path : Place)
  | inline (base : Place) (code : Text)

namespace ModuleEntry

def rollUp (disk : Disk) : ModuleEntry → Except Failure RolledUp
  | .file path => rollUpFile disk path
  | .inline base code => rollUpInline disk base code

/-- the files that an entry leads to; a file leads to itself -/
def Reaches (disk : Disk) : ModuleEntry → Place → Prop
  | .file path, q => Relation.ReflTransGen (ModuleImports disk) (Place.normalised [] path) q
  | .inline base code, q => CodeReaches disk base code q

/-- the entry comes last: a file is the last that is listed, and code comes behind all that are -/
def Closes : ModuleEntry → List FinishedModule → Option FinishedModule → Prop
  | .file path, listed, rest =>
    rest = none ∧ (listed.map (·.path)).getLast? = some (Place.normalised [] path)
  | .inline base code, _, rest =>
    ∃ m, rest = some m ∧ m.path = base ++ [inlineName] ∧ m.source = code

/-- the entry, or a module that it leads to, has an import whose clause closes a brace only before it
opens one -/
def ImportsBackwards (disk : Disk) (e : ModuleEntry) : Prop :=
  (∃ base code, e = .inline base code ∧ SiteBundle.ImportsBackwards code) ∨
    ∃ q code, e.Reaches disk q ∧ readModule disk q = .ok code ∧ SiteBundle.ImportsBackwards code

end ModuleEntry

/-- a script holds the modules with files that are listed, and the rest, in order -/
structure RolledUp.Ordered (disk : Disk) (e : ModuleEntry) (r : RolledUp)
    (listed : List FinishedModule) (rest : Option FinishedModule) : Prop where
  files : r.files = listed.map (·.path)
  code : r.code = join ['\n'] ((listed ++ rest.toList).map (·.text))
  closes : e.Closes listed rest
  read : ∀ m ∈ listed, readModule disk m.path = .ok m.source
  /-- each module is made of those before it: so are the variables that stand for its imports -/
  made : ∀ earlier m later, listed = earlier ++ m :: later → m.Made disk earlier
  madeLast : ∀ m ∈ rest, m.Made disk listed
  /-- what other modules may read is a field of the object that the module returns -/
  returned : ∀ m ∈ listed, ∀ name ∈ m.scope.exports,
    ∃ v, (name, v) ∈ m.exports ∧ name ++ ": ".toList ++ v <:+: returnText m.exports
  numbered : ((listed ++ rest.toList).map (·.number)).Nodup
  once : r.files.Nodup
  complete : ∀ q, q ∈ r.files ↔ e.Reaches disk q
  /-- what a file imports comes before it -/
  behind : ∀ p ∈ r.files, ∀ q, ModuleImports disk p q → [q, p].Sublist r.files
  acyclic : ∀ q, e.Reaches disk q → ¬ Relation.TransGen (ModuleImports disk) q q

section
variable {disk : Disk} {e : ModuleEntry} {u : RollUp} {listed : List FinishedModule}

/-- the script of the modules that a roll-up holds, with the rest behind them -/
theorem RollUp.Holds.ordered (h : u.Holds disk listed) (rest : Option FinishedModule)
    (hcloses : e.Closes listed rest)
    (hbound : ∀ m ∈ rest, m.Bound disk listed ∧ m.number ∉ listed.map (·.number))
    (hcomplete : ∀ q, q ∈ listed.map (·.path) ↔ e.Reaches disk q) :
    RolledUp.Ordered disk e ⟨join ['\n'] (u.chunks ++ rest.toList.map (·.text)), u.files⟩ listed
      rest where
  files := h.files
  code := by rw [h.chunks, List.map_append]
  closes := hcloses
  read := h.finished.read
  made := fun _ _ _ hms => (h.finished.bound hms).made
  madeLast := fun m hm => (hbound m hm).1.made
  returned := fun _ _ _ => FinishedModule.infix_returnText
  numbered := by
    rw [List.map_append]
    cases rest with
    | none => exact (List.append_nil _).symm ▸ h.finished.nodup_numbers
    | some m =>
      rw [Option.toList_some, List.map_singleton, ← List.concat_eq_append]
      exact (List.nodup_concat _ _).mpr ⟨(hbound m rfl).2, h.finished.nodup_numbers⟩
  once := by
    rw [h.files]
    exact h.finished.nodup_paths
  complete := by
    rw [h.files]
    exact hcomplete
  behind := by
    rw [h.files]
    exact fun p hp q => h.finished.sublist_of_imports hp
  acyclic := fun q hq => h.finished.acyclic ((hcomplete q).mpr hq)

theorem nodup_files (hdisk : disk.Sound) : disk.files.Nodup := hdisk.once.filter _

theorem holds_nothing (disk : Disk) : RollUp.nothing.Holds disk [] :=
  ⟨.nil, rfl, rfl, rfl, nofun⟩

/-- what comes of a roll-up: a script in order, of modules that hold the variables of their imports -/
def RolledUp.OrderedBound (disk : Disk) (e : ModuleEntry) (r : RolledUp) : Prop :=
  ∃ listed rest, r.Ordered disk e listed rest ∧ ∀ m ∈ listed ++ rest.toList, m.Bound disk listed

theorem RollUp.Holds.bound (h : u.Holds disk listed) {m : FinishedModule} (hm : m ∈ listed) :
    m.Bound disk listed := by
  obtain ⟨earlier, later, hms⟩ := List.append_of_mem hm
  exact (h.finished.bound hms).mono (hms ▸ List.subset_append_left _ _)

theorem ordered_rollUpFile (hdisk : disk.Sound) (path : Place) :
    Results (rollUpFile disk path) (·.OrderedBound disk (.file path)) fun _ => True := by
  unfold rollUpFile
  rw [results_bind]
  refine (results_readModule disk _).mono (fun code hcode => ?_) fun _ _ => trivial
  rw [results_bind]
  refine (rolled_module disk _ ((nodup_files hdisk).erase _) _ code .nothing []
    (holds_nothing disk)).mono ?_ fun _ _ => trivial
  rintro r ⟨new, m, t, ht, hpath, rfl, rfl⟩
  have hholds := ht.holds_concat (holds_nothing disk) (hpath ▸ hcode) List.not_mem_nil
    (hpath ▸ (nodup_files hdisk).not_mem_erase)
  have hlast : ((new ++ [m]).map (·.path)).getLast? = some (Place.normalised [] path) := by
    rw [List.map_append, List.map_singleton, List.getLast?_concat, hpath]
  have hcomplete : ∀ q, q ∈ (new ++ [m]).map (·.path) ↔ (ModuleEntry.file path).Reaches disk q := by
    refine fun q => ⟨fun hq => ?_, hholds.finished.mem_of_reaches (List.mem_of_getLast? hlast)⟩
    obtain ⟨x, hx, rfl⟩ := List.mem_map.mp hq
    rcases List.mem_append.mp hx with hx | hx
    · obtain ⟨-, -, first, hfirst, hleads⟩ := ht.added x hx
      rw [hpath] at hfirst
      exact .head ⟨_, hcode, hfirst⟩ hleads
    · rw [List.mem_singleton.mp hx, hpath]
      exact .refl
  have hordered := hholds.ordered none (e := .file path) ⟨rfl, hlast⟩ nofun hcomplete
  rw [Option.toList_none, List.map_nil, List.append_nil, hpath] at hordered
  refine ⟨_, _, hordered, fun x hx => hholds.bound ?_⟩
  rwa [Option.toList_none, List.append_nil] at hx

theorem ordered_rollUpInline (hdisk : disk.Sound) (base : Place) (code : Text) :
    Results (rollUpInline disk base code) (·.OrderedBound disk (.inline base code))
      fun _ => True := by
  unfold rollUpInline
  rw [results_bind]
  refine (rolled_module disk _ ((nodup_files hdisk).erase _) _ code .nothing []
    (holds_nothing disk)).mono ?_ fun _ _ => trivial
  rintro r ⟨new, m, t, ht, hpath, rfl, rfl⟩
  have hnumber : m.number ∉ new.map (·.number) := by
    rw [ht.number]
    intro hmem
    obtain ⟨x, hx, heq⟩ := List.mem_map.mp hmem
    exact Nat.ne_of_gt (ht.added x hx).2.1 heq
  have hbase : m.path.dropLast = base := by rw [hpath, List.dropLast_concat]
  have hcomplete : ∀ q, q ∈ new.map (·.path) ↔
      (ModuleEntry.inline base m.source).Reaches disk q := by
    refine fun q => ⟨fun hq => ?_, ?_⟩
    · obtain ⟨x, hx, rfl⟩ := List.mem_map.mp hq
      exact hbase ▸ (ht.added x hx).2.2
    · rintro ⟨first, hfirst, hleads⟩
      exact ht.holds.finished.mem_of_reaches (ht.bound.made.mem_of_imports (hbase ▸ hfirst)) hleads
  refine ⟨new, some m, ht.holds.ordered (some m) ⟨m, rfl, hpath, rfl⟩
    (fun m' hm' => Option.mem_some.mp hm' ▸ ⟨ht.bound, hnumber⟩) hcomplete, fun x hx => ?_⟩
  rcases List.mem_append.mp hx with hx | hx
  · exact ht.holds.bound hx
  · rw [List.mem_singleton.mp hx]
    exact ht.bound

theorem ModuleEntry.ordered_rollUp (hdisk : disk.Sound) (e : ModuleEntry) :
    Results (e.rollUp disk) (·.OrderedBound disk e) fun _ => True := by
  cases e with
  | file path => exact ordered_rollUpFile hdisk path
  | inline base code => exact ordered_rollUpInline hdisk base code

/-- **A roll-up that succeeds lists every file that the entry leads to, once and behind all that it
imports; a circle makes it fail.** -/
theorem rollUp_ordered (hdisk : disk.Sound) (e : ModuleEntry) :
    (∀ r, e.rollUp disk = .ok r →
      OnDisk disk r.files ∧ ∃ listed rest, r.Ordered disk e listed rest) ∧
    ((∃ q, e.Reaches disk q ∧ Relation.TransGen (ModuleImports disk) q q) →
      ∃ f, e.rollUp disk = .error f ∧
        (f.cause.isTransform = true ∨ f.cause = .outOfBounds ∧ e.ImportsBackwards disk)) := by
  have hordered := e.ordered_rollUp hdisk
  have hresults : Results (e.rollUp disk) (fun r => OnDisk disk r.files) fun f =>
      f.cause.isTransform = true ∨ f.cause = .outOfBounds ∧ e.ImportsBackwards disk := by
    cases e with
    | file path =>
      exact (results_rollUpFile disk path).mono (fun _ hr => hr) fun f hf =>
        hf.imp_right fun ⟨hout, hback⟩ => ⟨hout, .inr hback⟩
    | inline base code =>
      refine (results_rollUpInline disk base code).mono (fun _ hr => hr) fun f hf => ?_
      exact hf.imp_right fun ⟨hout, hback⟩ => ⟨hout, hback.imp_left fun h => ⟨base, code, rfl, h⟩⟩
  cases hr : e.rollUp disk with
  | ok r =>
    rw [hr] at hordered hresults
    obtain ⟨listed, rest, h, -⟩ := hordered
    refine ⟨?_, fun ⟨q, hq, hcircle⟩ => absurd hcircle (h.acyclic q hq)⟩
    rintro _ ⟨⟩
    exact ⟨hresults, listed, rest, h⟩
  | error f =>
    rw [hr] at hresults
    exact ⟨nofun, fun _ => ⟨f, rfl, hresults⟩⟩

end

/-! ## two modules that import one -/

namespace SharedImport

def disk : Disk where
  entries := [(["main.js".toList], .file (Utf8.bytes
      "import \x7b a \x7d from './a.js';\nimport \x7b b \x7d from './b';\nf(a, b);".toList)),
    (["a.js".toList], .file (Utf8.bytes
      "import \x7b one \x7d from './one.js';\nexport const a = one;".toList)),
    (["b.js".toList], .file (Utf8.bytes
      "import \x7b one as first \x7d from './one';\nexport const b = first;".toList)),
    (["one.js".toList], .file (Utf8.bytes "export const one = 1;".toList))]
  cwd := []

theorem sound_disk : disk.Sound where
  once := by decide
  above := by decide

def entry : ModuleEntry := .file ["main.js".toList]

/-- the shared module comes first, and once -/
theorem files_entry : (entry.rollUp disk).toOption.map (·.files) =
    some [["one.js".toList], ["a.js".toList], ["b.js".toList], ["main.js".toList]] := by
  -- lists of characters are evaluated faster than literals
  unfold entry disk
  repeat rw [String.toList_ofList]
  decide +kernel

end SharedImport

open SharedImport in
theorem rollUp_ordered_sharedImport : disk.Sound ∧ ∃ r, entry.rollUp disk = .ok r ∧
    r.files = [["one.js".toList], ["a.js".toList], ["b.js".toList], ["main.js".toList]] ∧
    ∃ listed rest, r.Ordered SharedImport.disk entry listed rest := by
  obtain ⟨r, hr, hfiles⟩ := Option.map_eq_some_iff.mp files_entry
  have hok : entry.rollUp disk = .ok r := eq_ok_of_toOption hr
  exact ⟨sound_disk, r, hok, hfiles, ((rollUp_ordered sound_disk entry).1 r hok).2⟩

/-! ## a circle behind an import that closes a brace first -/

namespace BackwardsCircle

/-- the module imports another one and then itself -/
def code : Text := "import \x7d \x7b from './a.js';\nimport './m.js';".toList

def disk : Disk where
  entries := [(["a.js".toList], .file []), (["m.js".toList], .file (Utf8.bytes code))]
  cwd := []

def circular : Place := ["m.js".toList]

theorem imports_itself : ModuleImports disk circular circular := by
  have hread : (readModule disk circular).toOption = some code := by
    unfold disk circular code
    repeat rw [String.toList_ofList]
    decide +kernel
  have hfound : (foundIn importAt? code).map (fun i => locate? disk [] i.specifier) =
      [some ["a.js".toList], some circular] := rfl
  obtain ⟨i, hi, hloc⟩ := List.mem_map.mp (hfound ▸ List.mem_cons_of_mem _ List.mem_cons_self)
  exact ⟨code, eq_ok_of_toOption hread, i, hi, hloc⟩

/-- what evaluation says about the failure -/
theorem evaluated_failure : (match rollUpFile disk circular with
    | .ok _ => true
    | .error f => f.cause.isTransform) = false := by
  decide +kernel

end BackwardsCircle

open BackwardsCircle in
/-- the circle is not found: cutting out the inside of the braces steps out of bounds before that -/
theorem rollUp_backwardsCircle_outOfBounds : disk.Sound ∧
    (ModuleEntry.file circular).Reaches disk circular ∧
    Relation.TransGen (ModuleImports disk) circular circular ∧
    ∃ f, (ModuleEntry.file circular).rollUp disk = .error f ∧ f.cause = .outOfBounds := by
  have hsound : disk.Sound := ⟨by decide, by decide⟩
  have hplain : Place.normalised [] circular = circular := by decide +kernel
  have hreaches : (ModuleEntry.file circular).Reaches disk circular := by
    show Relation.ReflTransGen _ (Place.normalised [] circular) circular
    rw [hplain]
  refine ⟨hsound, hreaches, .single imports_itself, ?_⟩
  have hresults := results_rollUpFile disk circular
  have hfailure := evaluated_failure
  show ∃ f, rollUpFile disk circular = .error f ∧ f.cause = .outOfBounds
  cases h : rollUpFile disk circular with
  | ok r =>
    rw [h] at hfailure
    exact nomatch hfailure
  | error f =>
    rw [h] at hfailure hresults
    rcases hresults with htransform | ⟨hout, -⟩
    · exact nomatch hfailure.symm.trans htransform
    · exact ⟨f, rfl, hout⟩

end SiteBundle
