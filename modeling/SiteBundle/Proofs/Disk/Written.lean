import SiteBundle.Output.Entry
import SiteBundle.Proofs.Disk.Plain

/-!
# What writing leaves on the disk

Making folders and writing files only adds: a folder stays a folder, a file stays a file
(`Disk.Extends`), and paths lead where they led.  So every file of the output that was written is still
there when the last entry has been written (`hasFile_of_replaceOutput`).

* `Disk.HasFile`    the path leads to a file;
* `Disk.Extends`    what stays of a disk, with one lemma for each change;
* `Wrote`           work on the disk that succeeds, taken apart like the work on a site.
-/

namespace SiteBundle

open Text

namespace Disk

/-- the path leads to a file -/
def HasFile (d : Disk) (path : Text) : Prop :=
  ∃ p, d.find (d.steps path) = .ok p ∧ d.isFile p = true

/-- what stays of a disk while folders and files are added -/
structure Extends (d d' : Disk) : Prop where
  cwd : d'.cwd = d.cwd
  folder : ∀ p, d.isFolder p = true → d'.isFolder p = true
  file : ∀ p, d.isFile p = true → d'.isFile p = true

variable {d d' d'' : Disk} {p q : Place} {steps : List Text} {content : List UInt8}

theorem get?_eq_some {e : Entry} (h : d.get? p = some e) : d.isFolder p = true ∨ d.isFile p = true := by
  cases e with
  | folder => exact .inl (by rw [isFolder, h]; rfl)
  | file content => exact .inr (isFile_iff.mpr ⟨content, h⟩)

theorem isSome_get?_iff : (d.get? p).isSome = true ↔ d.isFolder p = true ∨ d.isFile p = true := by
  constructor
  · intro h
    obtain ⟨e, he⟩ := Option.isSome_iff_exists.mp h
    exact get?_eq_some he
  · rintro (h | h)
    · rw [isFolder, beq_iff_eq] at h
      rw [h]
      rfl
    · obtain ⟨content, h⟩ := isFile_iff.mp h
      rw [h]
      rfl

theorem get?_put (hp : p ≠ []) (e : Entry) :
    (d.put p e).get? q = if q = p then some e else d.get? q := by
  cases q with
  | nil => rw [if_neg (Ne.symm hp)]; rfl
  | cons a q =>
    have hget : ∀ d : Disk, d.get? (a :: q) = (d.entries.find? (·.1 == a :: q)).map (·.2) :=
      fun _ => rfl
    rw [hget, hget]
    unfold put
    split
    · rename_i hsome
      -- the entry of the place is exchanged, and the other entries stay
      have hsame : ((·.1 == a :: q) ∘ fun x : Place × Entry => if x.1 == p then (p, e) else x) =
          (·.1 == a :: q) := by
        funext x
        show ((if x.1 == p then (p, e) else x).1 == a :: q) = (x.1 == a :: q)
        split
        · rename_i hx
          rw [eq_of_beq hx]
        · rfl
      rw [List.find?_map, hsame]
      split
      · rename_i hq
        subst hq
        rw [hget, Option.isSome_map] at hsome
        obtain ⟨x, hx⟩ := Option.isSome_iff_exists.mp hsome
        have hplace := List.find?_some hx
        rw [hx, Option.map_some, Option.map_some, if_pos hplace]
      · rename_i hq
        cases hx : d.entries.find? (·.1 == a :: q) with
        | none => rfl
        | some x =>
          have hplace := List.find?_some (p := fun x : Place × Entry => x.1 == a :: q) hx
          have hne : ¬ (x.1 == p) = true := fun h =>
            hq ((eq_of_beq hplace).symm.trans (eq_of_beq h))
          rw [Option.map_some, Option.map_some, if_neg hne]
          rfl
    · rename_i hnone
      rw [List.find?_append]
      split
      · rename_i hq
        subst hq
        rw [hget, Option.isSome_map, Bool.not_eq_true, Option.isSome_eq_false_iff,
          Option.isNone_iff_eq_none] at hnone
        rw [hnone, List.find?_singleton, if_pos (beq_self_eq_true _)]
        rfl
      · rename_i hq
        have hne : ¬ (p == a :: q) = true := fun h => hq (eq_of_beq h).symm
        rw [List.find?_singleton, if_neg hne, Option.or_none]

/-- entries that are left out of a disk -/
theorem get?_filter (keeps : Place → Bool) :
    ({ d with entries := d.entries.filter fun x => keeps x.1 } : Disk).get? p =
      if p = [] ∨ keeps p = true then d.get? p else none := by
  cases p with
  | nil => rw [if_pos (.inl rfl)]; rfl
  | cons a p =>
    have hget : ∀ d : Disk, d.get? (a :: p) = (d.entries.find? (·.1 == a :: p)).map (·.2) :=
      fun _ => rfl
    rw [hget, hget, List.find?_filter]
    cases hkeeps : keeps (a :: p) with
    | true =>
      have hsame : (fun x : Place × Entry => decide (keeps x.1 = true ∧ (x.1 == a :: p) = true)) =
          fun x => x.1 == a :: p := by
        funext x
        cases hx : x.1 == a :: p with
        | false => exact decide_eq_false fun hboth => nomatch hboth.2
        | true => exact decide_eq_true ⟨eq_of_beq hx ▸ hkeeps, rfl⟩
      rw [if_pos (.inr rfl)]
      exact congrArg (fun f => (d.entries.find? f).map (·.2)) hsame
    | false =>
      rw [if_neg (not_or.mpr ⟨List.cons_ne_nil a p, Bool.false_ne_true⟩), Option.map_eq_none_iff,
        List.find?_eq_none]
      intro x _ hboth
      obtain ⟨hkept, hx⟩ := of_decide_eq_true hboth
      rw [eq_of_beq hx, hkeeps] at hkept
      exact nomatch hkept

theorem cwd_put {e : Entry} : (d.put p e).cwd = d.cwd := by
  unfold put
  split <;> rfl

namespace Extends

theorem refl (d : Disk) : d.Extends d := ⟨rfl, fun _ h => h, fun _ h => h⟩

theorem trans (h : d.Extends d') (h' : d'.Extends d'') : d.Extends d'' :=
  ⟨h'.cwd.trans h.cwd, fun p hp => h'.folder p (h.folder p hp), fun p hp => h'.file p (h.file p hp)⟩

/-- a new folder where nothing is -/
theorem put_folder (hp : p ≠ []) (h : (d.get? p).isSome = false) : d.Extends (d.put p .folder) := by
  refine ⟨cwd_put, fun q hq => ?_, fun q hq => ?_⟩
  · rw [isFolder, get?_put hp]
    split
    · rfl
    · exact hq
  · have hne : q ≠ p := by
      rintro rfl
      rw [isSome_get?_iff.mpr (.inr hq)] at h
      exact nomatch h
    rw [isFile, get?_put hp, if_neg hne]
    exact hq

/-- a file where no folder is -/
theorem put_file (hp : p ≠ []) (h : d.isFolder p = false) (content : List UInt8) :
    d.Extends (d.put p (.file content)) := by
  refine ⟨cwd_put, fun q hq => ?_, fun q hq => ?_⟩
  · have hne : q ≠ p := by
      rintro rfl
      rw [h] at hq
      exact nomatch hq
    rw [isFolder, get?_put hp, if_neg hne]
    exact hq
  · rw [isFile, get?_put hp]
    by_cases hqp : q = p
    · rw [if_pos hqp]
    · rw [if_neg hqp]
      exact hq

theorem findStep (h : d.Extends d') {name : Text} (hq : d.findStep p name = .ok q) :
    d'.findStep p name = .ok q := by
  unfold Disk.findStep at hq ⊢
  split at hq
  · exact nomatch hq
  · rename_i hfolder
    rw [Bool.not_eq_true, Bool.not_eq_false'] at hfolder
    rw [h.folder p hfolder, if_neg (by decide)]
    split at hq
    · rename_i hidle
      rwa [if_pos hidle]
    · rename_i hidle
      rw [if_neg hidle]
      split at hq
      · rename_i hup
        rwa [if_pos hup]
      · rename_i hup
        rw [if_neg hup]
        split at hq
        · exact nomatch hq
        · rename_i hlong
          rw [if_neg hlong]
          split at hq
          · rename_i e he
            have hsome : (d'.get? (p ++ [name])).isSome = true :=
              isSome_get?_iff.mpr ((get?_eq_some he).imp (h.folder _) (h.file _))
            obtain ⟨e', he'⟩ := Option.isSome_iff_exists.mp hsome
            rw [he']
            exact hq
          · exact nomatch hq

theorem foldlM_findStep (h : d.Extends d') (hp : steps.foldlM d.findStep q = .ok p) :
    steps.foldlM d'.findStep q = .ok p := by
  induction steps generalizing q with
  | nil => exact hp
  | cons name steps ih =>
    rw [List.foldlM_cons] at hp ⊢
    cases hstep : d.findStep q name with
    | error fault =>
      rw [hstep] at hp
      exact nomatch hp
    | ok r =>
      rw [hstep] at hp
      rw [h.findStep hstep]
      exact ih hp

theorem find (h : d.Extends d') (hp : d.find steps = .ok p) : d'.find steps = .ok p := by
  unfold Disk.find at hp ⊢
  split at hp
  · exact nomatch hp
  · exact h.foldlM_findStep hp

theorem hasFile (h : d.Extends d') {path : Text} (hpath : d.HasFile path) : d'.HasFile path := by
  obtain ⟨p, hp, hfile⟩ := hpath
  refine ⟨p, h.find ?_, h.file p hfile⟩
  rwa [steps, h.cwd]

end Extends

/-! ## changes -/

theorem target?_eq_ok {name : Text} (h : d.target? steps = .ok (some (p, name))) :
    refused? steps = none ∧ (dropSlash steps).getLast? = some name ∧
      d.find (dropSlash steps).dropLast = .ok p ∧ d.isFolder p = true := by
  unfold target? at h
  split at h
  · exact nomatch h
  · exact nomatch h
  · rename_i last hrefused hlast
    cases hfind : d.find (dropSlash steps).dropLast with
    | error fault =>
      rw [hfind] at h
      exact nomatch h
    | ok q =>
      rw [hfind] at h
      replace h : (if d.isFolder q then .ok (some (q, last)) else .error .notAFolder :
        Except DiskFault (Option (Place × Text))) = .ok (some (p, name)) := h
      split at h
      · rename_i hfolder
        obtain ⟨rfl, rfl⟩ := Prod.mk.inj (Option.some.inj (Except.ok.inj h))
        exact ⟨hrefused, hlast, rfl, hfolder⟩
      · exact nomatch h

/-- a folder that is made is new -/
theorem makeFolder_eq_ok (h : d.makeFolder steps = .ok d') : ∃ p name,
    d.target? steps = .ok (some (p, name)) ∧ name ≠ ['.'] ∧ name ≠ ['.', '.'] ∧
      d.get? (p ++ [name]) = none ∧ d' = d.put (p ++ [name]) .folder := by
  unfold makeFolder at h
  cases htarget : d.target? steps with
  | error fault =>
    rw [htarget] at h
    exact nomatch h
  | ok found =>
    rw [htarget] at h
    cases found with
    | none => exact nomatch h
    | some target =>
      obtain ⟨p, name⟩ := target
      replace h : (if name = ['.'] ∨ name = ['.', '.'] then .error .alreadyThere
        else if maxName < size name then .error .nameTooLong
        else if (d.get? (p ++ [name])).isSome then .error .alreadyThere
        else .ok (d.put (p ++ [name]) .folder) : Except DiskFault Disk) = .ok d' := h
      split at h
      · exact nomatch h
      · rename_i hname
        obtain ⟨hdot, hup⟩ := not_or.mp hname
        split at h
        · exact nomatch h
        · split at h
          · exact nomatch h
          · rename_i hnone
            rw [Bool.not_eq_true, Option.isSome_eq_false_iff, Option.isNone_iff_eq_none] at hnone
            exact ⟨p, name, rfl, hdot, hup, hnone, (Except.ok.inj h).symm⟩

theorem extends_makeFolder (h : d.makeFolder steps = .ok d') : d.Extends d' := by
  obtain ⟨p, name, -, -, -, hnone, rfl⟩ := makeFolder_eq_ok h
  exact .put_folder (List.concat_ne_nil _ _) (by rw [hnone]; rfl)

theorem extends_ensureFolder (d : Disk) (steps : List Text) : d.Extends (d.ensureFolder steps).1 := by
  unfold ensureFolder
  split
  · rename_i d' hmade
    exact extends_makeFolder hmade
  · split
    · exact .refl d
    · exact .refl d

theorem extends_createFolders (d : Disk) (steps : List Text) :
    d.Extends (d.createFolders steps).1 := by
  fun_induction createFolders d steps with
  | case1 steps made hmade _ => exact hmade ▸ extends_ensureFolder d steps
  | case2 steps _ _ _ _ made hmade ih =>
    rw [hmade] at ih
    exact ih.trans (extends_ensureFolder made steps)
  | case3 _ _ _ _ _ _ ih => exact ih
  | case4 steps _ => exact extends_ensureFolder d steps

/-- the name that a file is written under leads to the file -/
theorem findStep_put {name : Text} {e : Entry} (hfolder : d.isFolder p = true)
    (hplain : isPlainName name = true) (hsize : ¬ maxName < size name)
    (hextends : d.Extends (d.put (p ++ [name]) e)) :
    (d.put (p ++ [name]) e).findStep p name = .ok (p ++ [name]) := by
  obtain ⟨hidle, hup⟩ := isPlainName_iff.mp hplain
  unfold findStep
  rw [hextends.folder p hfolder, hidle, if_neg hup, if_neg hsize, get?_put (List.concat_ne_nil _ _),
    if_pos rfl]
  rfl

theorem find_concat {name : Text} (hrefused : refused? (steps ++ [name]) = none)
    (hp : d.find steps = .ok p) (hq : d.findStep p name = .ok q) :
    d.find (steps ++ [name]) = .ok q := by
  unfold find at hp ⊢
  split at hp
  · exact nomatch hp
  · rw [hrefused]
    dsimp only
    rw [List.foldlM_append, hp]
    show [name].foldlM d.findStep p = _
    rw [List.foldlM_cons, hq]
    rfl

/-- a file is written under a plain name, into a folder that is there -/
theorem writeFile_eq_ok (h : d.writeFile steps content = .ok d') : ∃ front p name,
    steps = front ++ [name] ∧ isPlainName name = true ∧ refused? steps = none ∧
      ¬ maxName < size name ∧ d.find front = .ok p ∧ d.isFolder p = true ∧
      d.isFolder (p ++ [name]) = false ∧ d' = d.put (p ++ [name]) (.file content) := by
  unfold writeFile at h
  cases htarget : d.target? steps with
  | error fault =>
    rw [htarget] at h
    exact nomatch h
  | ok found =>
    rw [htarget] at h
    cases found with
    | none => exact nomatch h
    | some target =>
      obtain ⟨p, name⟩ := target
      obtain ⟨hrefused, hlast, hfind, hfolder⟩ := target?_eq_ok htarget
      replace h : (if steps.getLast? = some [] ∨ name = ['.'] ∨ name = ['.', '.'] then
          .error .isAFolder
        else if maxName < size name then .error .nameTooLong
        else if d.isFolder (p ++ [name]) then .error .isAFolder
        else .ok (d.put (p ++ [name]) (.file content)) : Except DiskFault Disk) = .ok d' := h
      split at h
      · exact nomatch h
      · rename_i hname
        obtain ⟨hslash, hdot, hup⟩ := not_or.mp hname |>.imp_right not_or.mp
        split at h
        · exact nomatch h
        · rename_i hsize
          split at h
          · exact nomatch h
          · rename_i hnot
            rw [Bool.not_eq_true] at hnot
            rw [dropSlash, if_neg hslash] at hlast hfind
            have hne : name ≠ [] := by
              rintro rfl
              exact hslash hlast
            have hplain : isPlainName name = true := by
              rw [isPlainName_iff, isIdle, Bool.or_eq_false_iff, List.isEmpty_eq_false_iff,
                beq_eq_false_iff_ne]
              exact ⟨⟨hne, hdot⟩, hup⟩
            obtain ⟨front, rfl⟩ := List.getLast?_eq_some_iff.mp hlast
            rw [List.dropLast_concat] at hfind
            exact ⟨front, p, name, rfl, hplain, hrefused, hsize, hfind, hfolder, hnot,
              (Except.ok.inj h).symm⟩

/-- a file that is written is found -/
theorem find_writeFile (h : d.writeFile steps content = .ok d') :
    d.Extends d' ∧ ∃ p, d'.find steps = .ok p ∧ d'.isFile p = true := by
  obtain ⟨front, p, name, rfl, hplain, hrefused, hsize, hfind, hfolder, hnot, rfl⟩ :=
    writeFile_eq_ok h
  have hextends : d.Extends (d.put (p ++ [name]) (.file content)) :=
    .put_file (List.concat_ne_nil _ _) hnot content
  refine ⟨hextends, p ++ [name], find_concat hrefused (hextends.find hfind)
    (findStep_put hfolder hplain hsize hextends), ?_⟩
  rw [isFile, get?_put (List.concat_ne_nil _ _), if_pos rfl]

/-- everything in the folder is removed -/
theorem emptyFolder_eq_ok (h : d.emptyFolder steps = .ok d') : ∃ p, d.find steps = .ok p ∧
    d.isFolder p = true ∧
      d' = { d with entries := d.entries.filter fun x => !(x.1.within p && x.1 != p) } := by
  unfold emptyFolder at h
  cases hfind : d.find steps with
  | error fault =>
    rw [hfind] at h
    exact nomatch h
  | ok p =>
    rw [hfind] at h
    replace h : (if !d.isFolder p then .error .notAFolder
      else .ok { d with entries := d.entries.filter fun x => !(x.1.within p && x.1 != p) } :
        Except DiskFault Disk) = .ok d' := h
    split at h
    · exact nomatch h
    · rename_i hfolder
      rw [Bool.not_eq_true, Bool.not_eq_false'] at hfolder
      exact ⟨p, rfl, hfolder, (Except.ok.inj h).symm⟩

/-- the folder is removed, unless it is not there any more -/
theorem removeFolder_eq_ok (h : d.removeFolder steps = .ok d') : d' = d ∨ ∃ p,
    d.find steps = .ok p ∧ d' = { d with entries := d.entries.filter fun x => x.1 != p } := by
  unfold removeFolder at h
  split at h
  · exact .inl (Except.ok.inj h).symm
  · rename_i p hfind
    split at h
    · exact nomatch h
    · exact .inr ⟨p, hfind, (Except.ok.inj h).symm⟩

/-- a copy is written with the content of a file, or with none if it is that file -/
theorem copyFile_eq_ok {source : List Text} (h : d.copyFile source steps = .ok d') :
    ∃ p content, d.find source = .ok p ∧ d.get? p = some (.file content) ∧
      d.writeFile steps (if (d.find steps).toOption == some p then [] else content) = .ok d' := by
  unfold copyFile at h
  cases hfind : d.find source with
  | error fault =>
    rw [hfind] at h
    cases h
  | ok p =>
    rw [hfind] at h
    dsimp only [Bind.bind, Except.bind] at h
    split at h
    · rename_i content hcontent
      exact ⟨p, content, rfl, hcontent, h⟩
    · cases h

theorem find_copyFile {source : List Text} (h : d.copyFile source steps = .ok d') :
    d.Extends d' ∧ ∃ p, d'.find steps = .ok p ∧ d'.isFile p = true := by
  obtain ⟨p, content, -, -, h⟩ := copyFile_eq_ok h
  exact find_writeFile h

end Disk

/-! ## writing -/

theorem Writing.get_bind {β : Type} (k : Disk → Writing β) (d : Disk) : (get >>= k) d = k d d := rfl

theorem Writing.change_of_ok {activity : String} {f : Disk → Except DiskFault Disk} {d e : Disk}
    (h : f d = .ok e) : Writing.change activity f d = (.ok ⟨⟩, e) := by
  unfold Writing.change
  rw [Writing.get_bind, h]
  rfl

theorem Writing.change_of_error {activity : String} {f : Disk → Except DiskFault Disk} {d : Disk}
    {fault : DiskFault} (h : f d = .error fault) :
    Writing.change activity f d =
      (.error ((Failure.of (.disk fault)).within activity), d) := by
  unfold Writing.change
  rw [Writing.get_bind, h]
  rfl

/-- making folders leaves the disk with those that could be made, also where it fails -/
theorem Writing.createFolders_snd (activity : String) (path : Text) (d : Disk) :
    (Writing.createFolders activity path d).2 = (d.createFolders (d.steps path)).1 := by
  unfold Writing.createFolders
  rw [Writing.get_bind]
  cases d.createFolders (d.steps path) with
  | mk made result => cases result <;> rfl

/-- the work succeeds: what it gives, and the disk that it leaves -/
def Wrote {α : Type} (w : Writing α) (d : Disk) (a : α) (d' : Disk) : Prop := w d = (.ok a, d')

section
variable {α β : Type} {d d' : Disk}

theorem wrote_bind {w : Writing α} {k : α → Writing β} {b : β} :
    Wrote (w >>= k) d b d' ↔ ∃ a e, Wrote w d a e ∧ Wrote (k a) e b d' := by
  have hrun : (w >>= k) d = match w d with
      | (r, e) => (ExceptT.bindCont k r e : Except Failure β × Disk) := rfl
  constructor
  · intro h
    cases hw : w d with
    | mk r e =>
      have hk : (ExceptT.bindCont k r e : Except Failure β × Disk) = (.ok b, d') := by
        rw [Wrote, hrun, hw] at h
        exact h
      cases r with
      | ok a => exact ⟨a, e, hw, hk⟩
      | error f => exact nomatch hk
  · rintro ⟨a, e, hw, hk⟩
    rw [Wrote, hrun, show w d = _ from hw]
    exact hk

theorem wrote_get_bind {k : Disk → Writing β} {b : β} :
    Wrote (get >>= k) d b d' ↔ Wrote (k d) d b d' := Iff.rfl

theorem wrote_set_bind {e : Disk} {k : PUnit → Writing β} {b : β} :
    Wrote (set e >>= k) d b d' ↔ Wrote (k ⟨⟩) e b d' := Iff.rfl

theorem wrote_change {activity : String} {f : Disk → Except DiskFault Disk} {a : Unit} :
    Wrote (Writing.change activity f) d a d' ↔ f d = .ok d' := by
  cases hf : f d with
  | ok e =>
    rw [Wrote, Writing.change_of_ok hf]
    constructor
    · intro h
      exact congrArg Except.ok (Prod.mk.inj h).2
    · rintro ⟨⟩
      rfl
  | error fault =>
    rw [Wrote, Writing.change_of_error hf]
    constructor <;> intro h <;> cases h

theorem extends_of_wrote {activity : String} {path : Text} {a : Unit}
    (h : Wrote (Writing.createFolders activity path) d a d') : d.Extends d' := by
  have hmade := Disk.extends_createFolders d (d.steps path)
  unfold Writing.createFolders at h
  rw [wrote_get_bind] at h
  cases hresult : d.createFolders (d.steps path) with
  | mk made result =>
    rw [hresult] at h hmade
    dsimp only at h
    rw [wrote_set_bind] at h
    cases result with
    | ok u =>
      obtain rfl : made = d' := (Prod.mk.inj h).2
      exact hmade
    | error fault => exact nomatch h

theorem find_entry {dist : Text} {e : OutputEntry} {a : Unit}
    (h : Wrote (Writing.entry dist e) d a d') :
    d.Extends d' ∧ (e.isFolder = false → d'.HasFile (joinPath dist e.path)) := by
  have hsteps : ∀ {path : Text}, d.Extends d' → d'.steps path = d.steps path := fun hextends => by
    unfold Disk.steps
    rw [hextends.cwd]
  cases e with
  | folder path => exact ⟨extends_of_wrote h, nofun⟩
  | write path content =>
    obtain ⟨hextends, hfound⟩ := Disk.find_writeFile (wrote_change.mp h)
    refine ⟨hextends, fun _ => ?_⟩
    rw [Disk.HasFile, hsteps hextends]
    exact hfound
  | copy path source =>
    obtain ⟨hextends, hfound⟩ := Disk.find_copyFile (wrote_change.mp h)
    refine ⟨hextends, fun _ => ?_⟩
    rw [Disk.HasFile, hsteps hextends]
    exact hfound

/-- all files that are written are there in the end -/
theorem hasFile_entries {dist : Text} {entries : List OutputEntry} {a : Unit}
    (h : Wrote (entries.forM (Writing.entry dist)) d a d') :
    d.Extends d' ∧ ∀ e ∈ entries, e.isFolder = false → d'.HasFile (joinPath dist e.path) := by
  induction entries generalizing d with
  | nil =>
    obtain rfl : d = d' := (Prod.mk.inj h).2
    exact ⟨.refl d, nofun⟩
  | cons e entries ih =>
    obtain ⟨_, u, he, hrest⟩ := wrote_bind.mp h
    obtain ⟨hextends, hfile⟩ := find_entry he
    obtain ⟨hextends', hfiles⟩ := ih hrest
    refine ⟨hextends.trans hextends', List.forall_mem_cons.mpr ⟨fun hnot => ?_, hfiles⟩⟩
    exact hextends'.hasFile (hfile hnot)

/-- **Every file that is planned is in the output.** -/
theorem hasFile_of_replaceOutput {dist protect : Text} {entries : List OutputEntry} {a : Unit}
    (h : Wrote (replaceOutput dist protect entries) d a d') {e : OutputEntry} (he : e ∈ entries)
    (hfile : e.isFolder = false) : d'.HasFile (joinPath dist e.path) := by
  unfold replaceOutput at h
  rw [wrote_get_bind] at h
  split at h
  · exact nomatch h
  · obtain ⟨_, u, -, hentries⟩ := wrote_bind.mp h
    exact (hasFile_entries hentries).2 e he hfile

end
end SiteBundle
