import SiteBundle.Module.RollUp

/-!
# Plain places

A place is plain when none of its names is a step that stays or goes up.  Steps that were taken
without looking at the disk end at a plain place, and a plain place is found where it says.
-/

namespace SiteBundle

open Text

/-- whether a name leads to an entry of a folder -/
def isPlainName (name : Text) : Bool := !isIdle name && name != ['.', '.']

theorem isPlainName_iff {name : Text} :
    isPlainName name = true ↔ isIdle name = false ∧ name ≠ ['.', '.'] := by
  rw [isPlainName, Bool.and_eq_true, Bool.not_eq_true', bne_iff_ne]

/-- a name with an extension -/
theorem isPlainName_extension {stem : Text} {c : Char} (hc : c ≠ '.') (extension : Text) :
    isPlainName (stem ++ '.' :: c :: extension) = true := by
  match stem with
  | [] => simp [isPlainName, isIdle, hc]
  | [a] => simp [isPlainName, isIdle]
  | a :: b :: stem => simp [isPlainName, isIdle]

def Place.Plain (p : Place) : Prop := ∀ name ∈ p, isPlainName name = true

namespace Place
variable {p q : Place} {name : Text}

theorem plain_append : Plain (p ++ q) ↔ p.Plain ∧ q.Plain := List.forall_mem_append

theorem plain_singleton : Plain [name] ↔ isPlainName name = true := List.forall_mem_singleton

theorem Plain.dropLast (h : p.Plain) : Plain p.dropLast :=
  fun name hname => h name ((List.dropLast_sublist p).subset hname)

theorem Plain.step (h : p.Plain) (name : Text) : (p.step name).Plain := by
  unfold Place.step
  split
  · exact h
  · split
    · exact h.dropLast
    · rename_i hidle hup
      rw [Bool.not_eq_true] at hidle
      exact plain_append.mpr ⟨h, plain_singleton.mpr (isPlainName_iff.mpr ⟨hidle, hup⟩)⟩

theorem plain_normalised (h : p.Plain) (steps : List Text) : (p.normalised steps).Plain := by
  unfold normalised
  induction steps generalizing p with
  | nil => exact h
  | cons name steps ih => exact ih (h.step name)

theorem Plain.withExtension (h : p.Plain) {c : Char} (hc : c ≠ '.') (extension : Text) :
    (p.withExtension (c :: extension)).Plain := by
  unfold Place.withExtension
  split
  · exact h
  · exact plain_append.mpr ⟨h.dropLast, plain_singleton.mpr (isPlainName_extension hc _)⟩

/-- nothing is left out of the steps to a plain place -/
theorem Plain.filter (h : p.Plain) : p.filter (!isIdle ·) = p := by
  refine List.filter_eq_self.mpr fun name hname => ?_
  rw [(isPlainName_iff.mp (h name hname)).1]
  rfl

end Place

namespace Disk
variable {d : Disk} {p q : Place}

theorem findStep_plain {name : Text} (hname : isPlainName name = true)
    (h : d.findStep p name = .ok q) : q = p ++ [name] := by
  obtain ⟨hidle, hup⟩ := isPlainName_iff.mp hname
  unfold findStep at h
  simp only [hidle, hup, Bool.false_eq_true, if_false] at h
  split at h
  · exact nomatch h
  · split at h
    · exact nomatch h
    · split at h
      · exact (Except.ok.inj h).symm
      · exact nomatch h

theorem find_plain (hq : Place.Plain q) (h : d.find q = .ok p) : p = q := by
  have hfold : ∀ (steps : List Text) (a : Place), Place.Plain steps →
      steps.foldlM d.findStep a = .ok p → p = a ++ steps := by
    intro steps
    induction steps with
    | nil =>
      intro a _ ha
      rw [List.append_nil]
      exact (Except.ok.inj ha).symm
    | cons name steps ih =>
      intro a hsteps ha
      rw [List.foldlM_cons] at ha
      cases hb : d.findStep a name with
      | error fault =>
        rw [hb] at ha
        exact nomatch ha
      | ok b =>
        rw [hb] at ha
        have hplain := List.forall_mem_cons.mp hsteps
        rw [ih b hplain.2 ha, findStep_plain hplain.1 hb, List.append_assoc]
        rfl
  unfold find at h
  split at h
  · exact nomatch h
  · exact hfold q [] hq h

theorem isFile_iff : d.isFile p = true ↔ ∃ content, d.get? p = some (.file content) := by
  unfold isFile
  split
  · rename_i content h
    exact ⟨fun _ => ⟨content, h⟩, fun _ => rfl⟩
  · rename_i hno
    exact ⟨nofun, fun ⟨content, h⟩ => absurd h (hno content)⟩

theorem isFile_of_readBytes {content : List UInt8} (hq : Place.Plain q)
    (h : d.readBytes q = .ok content) : d.isFile q = true := by
  unfold readBytes at h
  cases hp : d.find q with
  | error fault =>
    rw [hp] at h
    cases h
  | ok p =>
    rw [hp] at h
    obtain rfl := find_plain hq hp
    dsimp only [Bind.bind, Except.bind] at h
    split at h
    · rename_i found hfound
      exact isFile_iff.mpr ⟨found, hfound⟩
    · cases h

end Disk

/-- a module that can be read is a file -/
theorem isFile_of_readModule {disk : Disk} {path : Place} {code : Text} (hpath : path.Plain)
    (h : readModule disk path = .ok code) : disk.isFile path = true := by
  unfold readModule Disk.readText at h
  cases hread : disk.readBytes path with
  | error fault =>
    rw [hread] at h
    exact nomatch h
  | ok content => exact Disk.isFile_of_readBytes hpath hread

/-- an address leads to a file -/
theorem isFile_of_locate? {disk : Disk} {base q : Place} {specifier : Text}
    (h : locate? disk base specifier = some q) : disk.isFile q = true ∧ q.Plain := by
  unfold locate? at h
  split at h
  · refine ⟨List.find?_some h, ?_⟩
    have hplain : (Place.normalised [] (base ++ splitOn '/' specifier)).Plain :=
      Place.plain_normalised (fun _ hname => absurd hname List.not_mem_nil) _
    have hmem := List.mem_of_find?_eq_some h
    simp only [candidates, List.mem_cons, List.not_mem_nil, or_false] at hmem
    rcases hmem with rfl | rfl | rfl | rfl
    · exact hplain
    · exact hplain.withExtension (by decide) _
    · exact hplain.withExtension (by decide) _
    · exact Place.plain_append.mpr ⟨hplain, Place.plain_singleton.mpr (by decide)⟩
  · exact nomatch h

end SiteBundle
