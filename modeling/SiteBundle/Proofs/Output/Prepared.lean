import SiteBundle.Proofs.Bundle.Handled
import SiteBundle.Proofs.Bundle.Proper
import SiteBundle.Proofs.Disk.Confined
import SiteBundle.Proofs.Output.Selected

/-!
# A run up to its writing

A run first finds out everything that is to be written, and then replaces the output directory.

* `Site.planned`     the bundling part of a run: its report and the entries to be written;
* `prepareRun`       everything that a run does before it clears the output directory, both checks
  of that directory included;
* `bundleSite_eq`    a run is its preparation and then `fillOutput`.

Preparing never changes the disk, and filling changes it at the output directory only.  So a run that
fails before it clears the output directory leaves the disk as it is, and every run leaves alone what
is not in the output directory (`bundleSite_confined`).
-/

namespace SiteBundle

open Site Text

/-! ## preparing -/

/-- bundles and handles everything: the report, and the entries to be written -/
def Site.planned : Work (Report × List OutputEntry) := do
  let o := (← get).options
  let ignore ← lift (onPatterns (PathFilter.read (o.get .ignore)))
  let keep ← lift (onPatterns (PathFilter.read (o.get .keep)))
  let overrides ← lift (onPatterns (Overrides.read (o.overrides .markup)))
  let documents := (← get).documents ignore
  documents.forM fun id => processMarkup id overrides
  let handledFiles ← processHandled ignore
  let s ← get
  let entries := s.plan ignore keep
  return (
    { documents := documents.map s.tree.relativePath
      bundles := s.bundles.map s.summary
      handledFiles
      filesWritten := OutputEntry.fileCount entries
      output := o.get .dist }, entries)

/-- what a run knows before it clears the output directory -/
structure Prepared where
  site : Site
  report : Report
  entries : List OutputEntry

/-- everything that a run does before it clears the output directory -/
def prepareRun (o : Options) (disk : Disk) (dice : Nat → Nat) : Except Failure Prepared :=
  match ensureSeparate disk (o.get .dist) (o.get .src) with
  | .error f => .error f
  | .ok () =>
    match Site.ofDisk o disk dice with
    | .error f => .error f
    | .ok s =>
      match Site.planned s with
      | (.error f, _) => .error f
      | (.ok (report, entries), t) =>
        match ensureSeparate disk (o.get .dist) (Place.text t.tree.top) with
        | .error f => .error (f.within ("failed to write " ++ shown (o.get .dist)))
        | .ok () => .ok ⟨t, report, entries⟩

theorem Site.run_eq : Site.run = (do
    let p ← planned
    write p.2
    return p.1) := by
  unfold Site.run planned
  simp only [bind_assoc, pure_bind]

section
variable {s t : Site} {o : Options} {disk : Disk} {dice : Nat → Nat}

theorem stepwise_processHandled (ignore : PathFilter) :
    Stepwise (fun _ => True) (fun _ => True) (processHandled ignore) := by
  unfold processHandled
  refine stepwise_get_bind fun s => stepwise_bind (stepwise_lift _) fun rules => ?_
  refine stepwise_bind (stepwise_forM fun x _ => stepwise_inActivity ?_ _) fun _ => stepwise_pure _
  exact (stepwise_handleFile x.2 _).mono (fun _ _ => trivial) fun _ _ => trivial

theorem stepwise_planned : Stepwise (fun _ => True) (fun _ => True) planned := by
  unfold planned
  refine stepwise_get_bind fun s => stepwise_bind (stepwise_lift _) fun ignore => ?_
  refine stepwise_bind (stepwise_lift _) fun keep => stepwise_bind (stepwise_lift _) fun overrides => ?_
  refine stepwise_get_bind fun s => stepwise_bind (stepwise_forM fun id _ => ?_) fun _ => ?_
  · exact (stepwise_processMarkup id overrides).mono (fun _ _ => trivial) fun _ h => h.elim
  · exact stepwise_bind (stepwise_processHandled ignore) fun _ => stepwise_get_bind fun _ =>
      stepwise_pure _

/-! ## a run in two parts -/

theorem bind_apply {α β : Type} (w : Work α) (k : α → Work β) (s : Site) :
    (w >>= k) s = match w s with
      | (.ok a, t) => k a t
      | (.error f, t) => (.error f, t) := by
  have hrun : (w >>= k) s = match w s with
      | (r, t) => (ExceptT.bindCont k r t : Except Failure β × Site) := rfl
  rw [hrun]
  cases w s with
  | mk r t => cases r <;> rfl

theorem replaceOutput_eq {dist protect : Text} {entries : List OutputEntry} {d : Disk} :
    replaceOutput dist protect entries d = match ensureSeparate d dist protect with
      | .error f => (.error f, d)
      | .ok () => fillOutput dist entries d := by
  have hrun : replaceOutput dist protect entries d = (match ensureSeparate d dist protect with
      | .error f => throw f
      | .ok () => fillOutput dist entries : Writing Unit) d := rfl
  rw [hrun]
  cases ensureSeparate d dist protect <;> rfl

theorem write_eq (entries : List OutputEntry) (s : Site) :
    write entries s = match replaceOutput (s.options.get .dist) (Place.text s.tree.top) entries
        s.disk with
      | (result, d) => (during ("failed to write " ++ shown (s.options.get .dist)) result,
        { s with disk := d }) := by
  have hget : ∀ k : Site → Work Unit, (get >>= k) s = k s s := fun _ => rfl
  unfold write
  rw [hget]
  dsimp only [ExceptT.run, StateT.run]
  generalize "failed to write " ++ shown (s.options.get .dist) = activity
  cases replaceOutput (s.options.get .dist) (Place.text s.tree.top) entries s.disk with
  | mk result d => cases result <;> rfl

theorem bundleSite_eq (o : Options) (disk : Disk) (dice : Nat → Nat) :
    bundleSite o disk dice = match prepareRun o disk dice with
      | .error f => (disk, .error f)
      | .ok p =>
        match fillOutput (o.get .dist) p.entries disk with
        | (.ok _, d) => (d, .ok p.report)
        | (.error f, d) => (d, .error (f.within ("failed to write " ++ shown (o.get .dist)))) := by
  unfold bundleSite prepareRun
  cases ensureSeparate disk (o.get .dist) (o.get .src) with
  | error f => rfl
  | ok _ =>
    dsimp only
    cases hsite : Site.ofDisk o disk dice with
    | error f => rfl
    | ok s =>
      obtain ⟨tree, -, hs⟩ := ofDisk_eq_ok hsite
      have hdisk : s.disk = disk := by rw [hs]; rfl
      have hoptions : s.options = o := by rw [hs]; rfl
      have hrun : Site.run.run.run s = match planned s with
          | (.error f, t) => (.error f, t)
          | (.ok p, t) => match write p.2 t with
            | (.error f, u) => (.error f, u)
            | (.ok _, u) => (.ok p.1, u) := by
        show Site.run s = _
        rw [run_eq, bind_apply]
        cases planned s with
        | mk r t =>
          cases r with
          | error f => rfl
          | ok p =>
            show ((do write p.2; return p.1 : Work Report) t) = _
            rw [bind_apply]
            dsimp only
            cases write p.2 t with
            | mk r u => cases r <;> rfl
      dsimp only
      rw [hrun]
      cases hplanned : planned s with
      | mk r t =>
        obtain ⟨htdisk, htoptions, -⟩ : t.disk = s.disk ∧ t.options = s.options ∧
            t.tree.top = s.tree.top := by
          have h := (stepwise_planned.steps s).base
          rw [hplanned] at h
          exact h
        rw [hdisk] at htdisk
        rw [hoptions] at htoptions
        cases r with
        | error f => rw [← htdisk]
        | ok p =>
          dsimp only
          rw [write_eq, replaceOutput_eq, htdisk, htoptions]
          cases ensureSeparate disk (o.get .dist) (Place.text t.tree.top) with
          | error f => rfl
          | ok _ =>
            dsimp only
            cases fillOutput (o.get .dist) p.2 disk with
            | mk result d => cases result <;> rfl

/-! ## what is written -/

theorem Site.Proper.outputEntry (h : s.Proper) {id : NodeId} (hid : id < s.tree.nodes.size)
    (hroot : id ≠ Tree.root) : (s.outputEntry id).Proper :=
  ⟨s.tree.names id, Tree.names_ne_nil h.rooted hid hroot, h.names id,
    (isEntry_outputEntry hid).path⟩

theorem Site.Proper.plan (h : s.Proper) {patterns : List Text} {ignore : PathFilter}
    (hignore : PathFilter.read patterns = .ok ignore) (keep : PathFilter) :
    ∀ e ∈ s.plan ignore keep, e.Proper := by
  intro e he
  rw [plan_eq_map h.rooted hignore] at he
  obtain ⟨id, hid, rfl⟩ := List.mem_map.mp he
  obtain ⟨⟨hlt, hroot⟩, -⟩ := (mem_selected h.rooted).mp hid
  exact h.outputEntry hlt hroot

/-- what a run is prepared to write, and where it comes from -/
theorem prepareRun_eq_ok_iff {p : Prepared} : prepareRun o disk dice = .ok p ↔ ∃ s,
    ensureSeparate disk (o.get .dist) (o.get .src) = .ok () ∧ ofDisk o disk dice = .ok s ∧
      Yields planned s (p.report, p.entries) p.site ∧
      ensureSeparate disk (o.get .dist) (Place.text p.site.tree.top) = .ok () := by
  constructor
  · intro h
    unfold prepareRun at h
    split at h
    · exact nomatch h
    · rename_i hseparate
      split at h
      · exact nomatch h
      · rename_i s hsite
        split at h
        · exact nomatch h
        · rename_i report entries t hplanned
          split at h
          · exact nomatch h
          · rename_i hseparate'
            obtain rfl := Except.ok.inj h
            exact ⟨s, hseparate, hsite, hplanned, hseparate'⟩
  · rintro ⟨s, hseparate, hsite, hplanned, hseparate'⟩
    unfold prepareRun
    rw [hseparate]
    dsimp only
    rw [hsite]
    dsimp only
    rw [show planned s = _ from hplanned]
    dsimp only
    rw [hseparate']

/-- the bundling part of a run, taken apart: the documents, the files handled on their own, the plan -/
theorem yields_planned {report : Report} {entries : List OutputEntry} :
    Yields planned s (report, entries) t ↔ ∃ ignore keep overrides,
      PathFilter.read (s.options.get .ignore) = .ok ignore ∧
      PathFilter.read (s.options.get .keep) = .ok keep ∧
      Overrides.read (s.options.overrides .markup) = .ok overrides ∧ ∃ u n,
      Yields ((s.documents ignore).forM fun id => processMarkup id overrides) s ⟨⟩ u ∧
      Yields (processHandled ignore) u n t ∧ entries = t.plan ignore keep ∧
      report = ⟨(s.documents ignore).map t.tree.relativePath, t.bundles.map t.summary, n,
        OutputEntry.fileCount entries, s.options.get .dist⟩ := by
  unfold planned
  rw [yields_get_bind]
  constructor
  · intro h
    obtain ⟨ignore, _, hread, h⟩ := yields_bind.mp h
    obtain ⟨hignore, rfl⟩ := yields_lift.mp hread
    obtain ⟨keep, _, hread, h⟩ := yields_bind.mp h
    obtain ⟨hkeep, rfl⟩ := yields_lift.mp hread
    obtain ⟨overrides, _, hread, h⟩ := yields_bind.mp h
    obtain ⟨hoverrides, rfl⟩ := yields_lift.mp hread
    rw [yields_get_bind] at h
    obtain ⟨_, u, hdocuments, h⟩ := yields_bind.mp h
    obtain ⟨n, v, hhandled, h⟩ := yields_bind.mp h
    rw [yields_get_bind] at h
    obtain ⟨hresult, rfl⟩ := yields_pure.mp h
    obtain ⟨rfl, rfl⟩ := Prod.mk.inj hresult
    exact ⟨ignore, keep, overrides, onPatterns_eq_ok hignore, onPatterns_eq_ok hkeep,
      onPatterns_eq_ok hoverrides, u, n, hdocuments, hhandled, rfl, rfl⟩
  · rintro ⟨ignore, keep, overrides, hignore, hkeep, hoverrides, u, n, hdocuments, hhandled, rfl, rfl⟩
    rw [yields_lift_bind (congrArg onPatterns hignore), yields_lift_bind (congrArg onPatterns hkeep),
      yields_lift_bind (congrArg onPatterns hoverrides), yields_get_bind]
    exact yields_bind.mpr ⟨_, u, hdocuments, yields_bind.mpr ⟨n, t, hhandled, rfl⟩⟩

theorem bundleSite_eq_ok {p : Prepared} {d : Disk} (hprepared : prepareRun o disk dice = .ok p)
    (hfill : fillOutput (o.get .dist) p.entries disk = (.ok ⟨⟩, d)) :
    bundleSite o disk dice = (d, .ok p.report) := by
  rw [bundleSite_eq, hprepared]
  dsimp only
  rw [hfill]

/-- **A run changes nothing outside of the output directory, and nothing at all before it clears
it.** -/
theorem bundleSite_confined (hdisk : disk.Proper) (hname : IsEntryName (o.get .bundleDirectory))
    (dice : Nat → Nat) :
    Disk.Confined (disk.route (o.get .dist)) disk (bundleSite o disk dice).1 ∧
      (∀ f, prepareRun o disk dice = .error f → bundleSite o disk dice = (disk, .error f)) ∧
      ∀ p, prepareRun o disk dice = .ok p → (bundleSite o disk dice).1 =
        (fillOutput (o.get .dist) p.entries disk).2 := by
  have hfail : ∀ f, prepareRun o disk dice = .error f → bundleSite o disk dice = (disk, .error f) := by
    intro f h
    rw [bundleSite_eq, h]
  have hfill : ∀ p, prepareRun o disk dice = .ok p → (bundleSite o disk dice).1 =
      (fillOutput (o.get .dist) p.entries disk).2 := by
    intro p h
    rw [bundleSite_eq, h]
    dsimp only
    cases fillOutput (o.get .dist) p.entries disk with
    | mk result d => cases result <;> rfl
  refine ⟨?_, hfail, hfill⟩
  cases hprepared : prepareRun o disk dice with
  | error f =>
    rw [hfail f hprepared]
    exact .refl _ disk
  | ok p =>
    rw [hfill p hprepared]
    obtain ⟨s, -, hsite, hplanned, -⟩ := prepareRun_eq_ok_iff.mp hprepared
    have hproper : p.site.Proper :=
      (stepwise_planned.of_yields hplanned).proper (proper_ofDisk hdisk hname hsite)
    obtain ⟨ignore, keep, overrides, hignore, -, -, _, _, -, -, hentries, -⟩ :=
      yields_planned.mp hplanned
    refine confined_fillOutput hdisk.cwd ?_
    rw [hentries]
    exact hproper.plan hignore keep

end

/-! ## a module that imports a missing file -/

namespace MissingImport

/-- a module, and an output directory that an earlier run left -/
def disk : Disk where
  entries := [(["dist".toList], .folder), (["dist".toList, "old.txt".toList], .file [65]),
    (["src".toList], .folder),
    (["src".toList, "m.js".toList], .file (Utf8.bytes "import './gone.js';".toList))]
  cwd := []

/-- the module is handled on its own -/
def options : Options := Options.defaults.overlay
  (Layer.empty.setField .handledModuleFiles (.matching ["m.js".toList]))

def site : Site := .ofTree options disk
  ⟨["src".toList], #[⟨[], none, .folder⟩, ⟨"m.js".toList, some 0, .file ⟨none, false, [], false⟩⟩]⟩
  fun _ => 0

theorem proper_disk : disk.Proper where
  sound := ⟨by decide, by decide⟩
  names := by
    unfold IsEntryName
    decide
  cwd := nofun

theorem locate_disk : disk.locate "src".toList = .ok ["src".toList] ∧
    disk.locate "dist".toList = .ok ["dist".toList] := by decide +kernel

theorem ofDisk_disk : Site.ofDisk options disk (fun _ => 0) = .ok site := by
  have hsorted : (disk.inside ["src".toList]).Pairwise fun a b => !Place.lt b.1 a.1 := by
    decide +kernel
  exact ofDisk_of_pairwise locate_disk.1 hsorted rfl rfl

/-- the import is not resolved -/
theorem prepareRun_disk : ∃ f, prepareRun options disk (fun _ => 0) = .error f := by
  obtain ⟨htop, hdist⟩ := locate_disk
  have hseparate : ensureSeparate disk (options.get .dist) (options.get .src) = .ok () := by
    show ensureSeparate disk "dist".toList "src".toList = _
    unfold ensureSeparate
    rw [htop, hdist]
    rfl
  have hplanned : (planned site).1.toOption.isSome = false := by decide +kernel
  unfold prepareRun
  rw [hseparate]
  dsimp only
  rw [ofDisk_disk]
  dsimp only
  cases h : planned site with
  | mk r t =>
    cases r with
    | error f => exact ⟨f, rfl⟩
    | ok p =>
      rw [h] at hplanned
      exact nomatch hplanned

end MissingImport

open MissingImport in
/-- the output of the earlier run is still there -/
theorem bundleSite_confined_missingImport : disk.Proper ∧
    IsEntryName (options.get .bundleDirectory) ∧
    (∃ f, bundleSite options disk (fun _ => 0) = (MissingImport.disk, .error f)) ∧
    disk.get? ["dist".toList, "old.txt".toList] = some (.file [65]) := by
  have hname : IsEntryName (options.get .bundleDirectory) := ⟨by decide, by decide⟩
  obtain ⟨f, hf⟩ := prepareRun_disk
  obtain ⟨-, hfail, -⟩ := bundleSite_confined proper_disk hname fun _ => 0
  exact ⟨proper_disk, hname, ⟨f, hfail f hf⟩, by decide⟩

end SiteBundle
