import SiteBundle.Proofs.Bundle.Pass
import SiteBundle.Proofs.Disk.Filled
import SiteBundle.Proofs.Output.Overlap

/-!
# What a run writes

When no two planned nodes overlap, a run that succeeds leaves every planned file in the output directory,
under its own path and with its own content, and no other file (`Site.Delivers`, `bundleSite_delivers`).

The output directory must be cleared or new: a path with `..` behind a folder that is not there yet
leads nowhere before that folder is made, so what it leads to then is not cleared
(`Disk.Fresh`).  With such a directory, what is copied is not what is cleared or written
(`outside_destination`).
-/

namespace SiteBundle

open Site Text

section
variable {o : Options} {disk d : Disk} {dice : Nat → Nat} {s t : Site} {p : Prepared}
  {ignore keep : PathFilter} {report : Report}

/-! ## source files -/

/-- the path of a place leads there -/
theorem Disk.destination_text {q : Place} (hq : ∀ name ∈ q, IsEntryName name) :
    disk.destination q.text = q := by
  have hpieces : pathPieces q.text = q := by
    have hsplit := pathPieces_append_slash [] (join ['/'] q)
    rw [List.nil_append, pathPieces_join hq] at hsplit
    exact hsplit
  have hroute : disk.route q.text = q := by
    rw [Disk.route, hpieces]
    rfl
  rw [Disk.destination, hroute, Place.normalised_plain fun name hname => (hq name hname).1]
  rfl

/-- source files are not in the output directory -/
theorem outside_destination {tree : Tree} {src dist : Text} {filter : TreeFilter}
    (hdisk : disk.Sound) (hscan : Tree.scan disk src filter = .ok tree)
    (hexclude : filter.exclude = some dist)
    (hseparate : ensureSeparate disk dist src = .ok ()) (hfresh : disk.Fresh dist) {id : NodeId}
    {st : FileState} (hst : tree.file id = .ok st) :
    (tree.top ++ tree.names id).within (disk.destination dist) = false := by
  obtain ⟨hsrc, -, hmirror⟩ := Tree.mirrors_scan hdisk hscan
  obtain ⟨⟨content, hfile⟩, hkept⟩ := hmirror id st hst
  rw [← Bool.not_eq_true]
  intro hwithin
  rcases hfresh with hleads | hnone
  · obtain ⟨top, htop⟩ : ∃ top, disk.locate dist = .ok top := by
      unfold Disk.leadsTo at hleads
      split at hleads
      · rename_i top htop
        exact ⟨top, htop⟩
      · cases hleads
    have hdestination : top = disk.destination dist := by
      unfold Disk.locate at htop
      split at htop
      · cases htop
      · exact (Disk.find_eq_normalised htop).trans (disk.normalised_steps dist)
    rw [← hdestination] at hwithin
    -- the output directory does not hold the source, so it is below it and was left out
    have hnot : tree.top.within top = false := by
      rw [← Bool.not_eq_true]
      intro hholds
      unfold ensureSeparate at hseparate
      rw [htop, hsrc] at hseparate
      dsimp only at hseparate
      rw [if_pos hholds] at hseparate
      cases hseparate
    have hbelow : top.within tree.top = true := by
      rw [Place.within, List.isPrefixOf_iff_prefix] at hwithin ⊢
      rcases List.prefix_or_prefix_of_prefix hwithin (List.prefix_append _ _) with hle | hle
      · rw [Place.within, List.isPrefixOf_iff_prefix.mpr hle] at hnot
        cases hnot
      · exact hle
    have hne : (top != tree.top) = true := by
      rw [bne_iff_ne]
      rintro rfl
      cases hnot.symm.trans hbelow
    rw [hexclude, Option.bind_some, htop] at hkept
    unfold TreeFilter.refuses at hkept
    rw [Bool.or_eq_false_iff] at hkept
    replace hkept : (top != tree.top && (tree.top ++ tree.names id : Place).within top &&
      top.within tree.top) = false := hkept.2
    rw [hne, hwithin, hbelow] at hkept
    cases hkept
  · obtain ⟨rest, hrest⟩ := Place.within_iff.mp hwithin
    rw [hrest, hdisk.get?_append hnone rest] at hfile
    cases hfile

/-- a file that is copied is a source file -/
theorem Site.From.source_of_copied {s₀ : Site} (h : From s₀ s) {id : NodeId} {st : FileState}
    (hst : s.tree.file id = .ok st) (hcontent : st.override = none) :
    id < s₀.tree.nodes.size ∧ ∃ st₀, s₀.tree.file id = .ok st₀ := by
  have hlt : id < s₀.tree.nodes.size := by
    refine Nat.lt_of_not_le fun hle => ?_
    obtain ⟨b, hb, hm, hnode⟩ := h.filing.generated id st hst (h.generated_of_le hle hst)
    obtain ⟨dir, st', -, hn, hcode, -⟩ := h.filing.file b hb hm id hnode
    rw [Tree.file_eq_ok_iff.mpr ⟨_, _, hn⟩] at hst
    rw [Except.ok.inj hst, hcontent] at hcode
    exact nomatch hcode
  obtain ⟨st₀, hst₀, -⟩ := h.file_of_lt hlt hst
  exact ⟨hlt, st₀, hst₀⟩

/-- a file that is copied is read from its place in the source directory, and that is not in the output
directory -/
theorem Site.From.destination_of_copied {tree : Tree} {filter : TreeFilter}
    (h : From (.ofTree o disk tree dice) s) (hdisk : disk.Proper) (hs : s.Proper)
    (hscan : Tree.scan disk (o.get .src) filter = .ok tree)
    (hexclude : filter.exclude = some (o.get .dist))
    (hseparate : ensureSeparate disk (o.get .dist) (o.get .src) = .ok ())
    (hfresh : disk.Fresh (o.get .dist)) {id : NodeId} {st : FileState}
    (hst : s.tree.file id = .ok st) (hcontent : st.override = none) :
    disk.destination (Place.text (s.tree.place id)) = s.tree.top ++ s.tree.names id ∧
      (s.tree.top ++ s.tree.names id).within (disk.destination (o.get .dist)) = false := by
  obtain ⟨hlt, st₀, hst₀⟩ := h.source_of_copied hst hcontent
  have hrooted : (Site.ofTree o disk tree dice).tree.Rooted := (Tree.folders_scan hdisk.sound hscan).1
  have hplace : s.tree.top ++ s.tree.names id = tree.top ++ tree.names id := by
    rw [h.source.top, Tree.names_of_grown h.source hlt]
    rfl
  obtain ⟨-, -, hmirror⟩ := Tree.mirrors_scan hdisk.sound hscan
  obtain ⟨⟨content, hfile⟩, -⟩ := hmirror id st₀ hst₀
  have hnames : ∀ name ∈ tree.top ++ tree.names id, IsEntryName name := by
    have hne := Tree.names_ne_nil hrooted hlt (ne_root_of_file hrooted hst₀)
    exact hdisk.names _ (Disk.mem_of_get? (List.append_ne_nil_of_right_ne_nil _ hne) hfile)
  rw [Tree.place_eq (hs.names id), hplace]
  exact ⟨Disk.destination_text hnames,
    outside_destination hdisk.sound hscan hexclude hseparate hfresh hst₀⟩

/-! ## bundles -/

/-- the file of a bundle that was made for documents has its code, and is kept -/
theorem Site.From.survives_of_markup {s₀ : Site} (h : From s₀ s) {b : Bundle} (hb : b ∈ s.bundles)
    (hm : b.provenance = .markup) {id : NodeId} (hnode : b.node = some id) :
    ∃ st, s.tree.file id = .ok st ∧ st.override = some b.code ∧ s.survives id st = true := by
  obtain ⟨dir, st, -, hn, hcode, hmade⟩ := h.filing.file b hb hm id hnode
  refine ⟨st, Tree.file_eq_ok_iff.mpr ⟨_, _, hn⟩, hcode, ?_⟩
  rw [survives, hmade]
  rfl

/-- a file that is kept is in the output if no ignore pattern matches it -/
theorem Site.selected_of_survives (hs : s.tree.Rooted) {id : NodeId} {st : FileState}
    (hst : s.tree.file id = .ok st) (hsurvives : s.survives id st = true)
    (hignored : ignore.accepts (s.tree.relativePath id) = false) : id ∈ s.selected ignore keep :=
  (mem_selected hs).mpr ⟨⟨Tree.lt_of_isFile (Tree.isFile_iff.mpr ⟨st, hst⟩), ne_root_of_file hs hst⟩,
    (isPruned_file_iff hst).mpr ⟨hignored, .inr hsurvives⟩⟩

/-- a bundle with a node: the node gets its code, and is in the output if no ignore pattern matches
it -/
theorem Site.From.selected_of_bundle {s₀ : Site} {done : List NodeId} (h : From s₀ s)
    (hs : s.tree.Rooted) (hplaced : s.InPlace done) {b : Bundle} (hb : b ∈ s.bundles) {id : NodeId}
    (hnode : b.node = some id) (hignored : ignore.accepts (s.tree.relativePath id) = false) :
    id ∈ s.selected ignore keep ∧ s.tree.Holds id b.code := by
  obtain ⟨st, hst, hcode, hsurvives⟩ : ∃ st, s.tree.file id = .ok st ∧ st.override = some b.code ∧
      s.survives id st = true := by
    cases hm : b.provenance with
    | markup => exact h.survives_of_markup hb hm hnode
    | individual =>
      obtain ⟨k, -, hk, st, hst, hcode⟩ := hplaced b hb hm
      obtain rfl := Option.some.inj (hnode.symm.trans hk)
      have hhandled : s.isHandled id = true := by
        refine List.any_eq_true.mpr ⟨b, hb, ?_⟩
        rw [hm, hnode, beq_self_eq_true, beq_self_eq_true, Bool.and_self]
      refine ⟨st, hst, hcode, ?_⟩
      rw [survives, hhandled, Bool.or_true]
      rfl
  exact ⟨selected_of_survives hs hst hsurvives hignored, st, hst, hcode⟩

/-! ## the output directory -/

/-- the output directory of a run holds what was planned: the nodes that are not pruned -/
structure Site.Delivers (s : Site) (ignore keep : PathFilter) (before after : Disk) (dist : Text)
    (report : Report) : Prop where
  /-- a file with new content -/
  changed : ∀ id ∈ s.selected ignore keep, ∀ content, s.tree.Holds id content →
    after.get? (before.destination dist ++ s.tree.names id) = some (.file (Utf8.bytes content))
  /-- a file that is in the output as it is in the source directory -/
  copied : ∀ id ∈ s.selected ignore keep, ∀ st, s.tree.file id = .ok st → st.override = none →
    ∃ content, before.get? (s.tree.top ++ s.tree.names id) = some (.file content) ∧
      after.get? (before.destination dist ++ s.tree.names id) = some (.file content)
  /-- a bundle that is not only written into documents; one of a document has a file of its own -/
  bundle : ∀ b ∈ s.bundles, ∀ id, b.node = some id →
    (b.provenance = .markup → s.tree.names id = [s.options.get .bundleDirectory, b.fileName]) ∧
      (ignore.accepts (s.tree.relativePath id) = false →
        after.get? (before.destination dist ++ s.tree.names id) = some (.file (Utf8.bytes b.code)))
  /-- there are no other files -/
  files : (after.filesBelow (before.destination dist)).Perm
    (((s.selected ignore keep).filter s.tree.isFile).map s.tree.names)
  count : report.filesWritten = (after.filesBelow (before.destination dist)).length

/-- a filled directory holds what was planned -/
theorem delivers_of_filled (hs : s.Proper) {patterns : List Text}
    (hignore : PathFilter.read patterns = .ok ignore) {done : List NodeId} {s₀ : Site}
    (hfrom : From s₀ s) (hplaced : s.InPlace done) {dist : Text}
    (hcopied : ∀ {id st}, s.tree.file id = .ok st → st.override = none →
      disk.destination (Place.text (s.tree.place id)) = s.tree.top ++ s.tree.names id)
    (hfilled : disk.Filled dist (s.plan ignore keep) d) (honce : d.Once)
    (hpaths : ((s.plan ignore keep).map fun x => pathPieces x.path).Nodup)
    (hcount : report.filesWritten = OutputEntry.fileCount (s.plan ignore keep)) :
    s.Delivers ignore keep disk d dist report := by
  have hplan : s.plan ignore keep = _ := plan_eq_map hs.rooted hignore
  have hentry : ∀ {k}, k ∈ s.selected ignore keep → s.IsEntry k (s.outputEntry k) :=
    fun hk => isEntry_outputEntry ((mem_selected hs.rooted).mp hk).1.1
  -- the content that an entry asks for is there
  have hget : ∀ {k}, k ∈ s.selected ignore keep → ∀ {content},
      (s.outputEntry k).Holds disk content →
        d.get? (disk.destination dist ++ s.tree.names k) = some (.file content) := by
    intro k hk content hholds
    rw [← pathPieces_outputEntry hs hk]
    exact hfilled.get? (hplan ▸ List.mem_map_of_mem hk) hholds
  have hchanged : ∀ {k}, k ∈ s.selected ignore keep → ∀ {content}, s.tree.Holds k content →
      d.get? (disk.destination dist ++ s.tree.names k) = some (.file (Utf8.bytes content)) := by
    rintro k hk content ⟨st, hst, hcontent⟩
    exact hget hk (outputEntry_of_some hst hcontent ▸ rfl)
  have hfiles : (d.filesBelow (disk.destination dist)).Perm
      (((s.selected ignore keep).filter s.tree.isFile).map s.tree.names) := by
    refine (hfilled.filesBelow honce (hs.plan hignore keep) hpaths).trans (List.Perm.of_eq ?_)
    have hfilter : ∀ k ∈ s.selected ignore keep,
        ((fun x => !x.isFolder) ∘ s.outputEntry) k = s.tree.isFile k := by
      intro k hk
      rw [Function.comp_apply, (hentry hk).isFolder, Bool.not_not]
    rw [hplan, List.filter_map, List.map_map, List.filter_congr hfilter]
    exact List.map_congr_left fun k hk => pathPieces_outputEntry hs (List.mem_of_mem_filter hk)
  refine ⟨fun k hk content => hchanged hk, fun k hk st hst hnone => ?_,
    fun b hb k hnode => ⟨fun hm => hfrom.names_file hs.rooted hb hm hnode, fun hignored => ?_⟩,
    hfiles, ?_⟩
  · obtain ⟨content, hholds⟩ := hfilled.held _ (hplan ▸ List.mem_map_of_mem hk) (by
      rw [(hentry hk).isFolder, Tree.isFile_iff.mpr ⟨st, hst⟩]
      rfl)
    refine ⟨content, ?_, hget hk hholds⟩
    rw [outputEntry_of_none hst hnone] at hholds
    exact hcopied hst hnone ▸ hholds
  · obtain ⟨hk, hholds⟩ := hfrom.selected_of_bundle hs.rooted hplaced hb hnode hignored
    exact hchanged hk hholds
  · rw [hcount, (hfilled.filesBelow honce (hs.plan hignore keep) hpaths).length_eq, List.length_map]
    rfl

/-- **Without an overlap, planned entries are apart, and every planned file is in the output.** -/
theorem bundleSite_delivers (hdisk : disk.Proper) (hname : IsEntryName (o.get .bundleDirectory))
    (hsite : ofDisk o disk dice = .ok s) (hprepared : prepareRun o disk dice = .ok p)
    (hignore : PathFilter.read (o.get .ignore) = .ok ignore)
    (hkeep : PathFilter.read (o.get .keep) = .ok keep)
    (hnames : o.get .randomBundleNames = true → p.site.bundles.length ≤ nameCount) :
    (p.entries.Pairwise OutputEntry.Apart ↔
      ¬ p.site.Overlap s.tree.nodes.size (p.site.selected ignore keep)) ∧
    ∀ d report, ¬ p.site.Overlap s.tree.nodes.size (p.site.selected ignore keep) →
      disk.Fresh (o.get .dist) → bundleSite o disk dice = (d, .ok report) →
        p.site.Delivers ignore keep disk d (o.get .dist) report := by
  obtain ⟨s', hseparate, hsite', hplanned, -⟩ := prepareRun_eq_ok_iff.mp hprepared
  obtain rfl : s = s' := Except.ok.inj (hsite.symm.trans hsite')
  have hs : s.Proper := proper_ofDisk hdisk hname hsite
  have ht : p.site.Proper := (stepwise_planned.of_yields hplanned).proper hs
  have hfrom := from_planned hsite hplanned hnames
  obtain ⟨done, hplaced⟩ := inPlace_planned hs hsite hplanned
  obtain ⟨tree, hscan, rfl⟩ := ofDisk_eq_ok hsite
  obtain ⟨-, hsource, -⟩ := Tree.mirrors_scan hdisk.sound hscan
  obtain ⟨ignore', keep', -, hignore', hkeep', -, -, n, -, -, hentries, hreport⟩ :=
    yields_planned.mp hplanned
  obtain rfl : ignore = ignore' := Except.ok.inj (hignore.symm.trans hignore')
  obtain rfl : keep = keep' := Except.ok.inj (hkeep.symm.trans hkeep')
  refine ⟨hentries ▸ pairwise_apart_plan hfrom ht hsource hignore, ?_⟩
  intro d report hover hfresh hrun
  have hcopied : ∀ {id st}, p.site.tree.file id = .ok st → st.override = none →
      disk.destination (Place.text (p.site.tree.place id)) =
          p.site.tree.top ++ p.site.tree.names id ∧
        (p.site.tree.top ++ p.site.tree.names id).within (disk.destination (o.get .dist)) = false :=
    fun hst hnone => hfrom.destination_of_copied hdisk ht hscan rfl hseparate hfresh hst hnone
  have hproper : ∀ x ∈ p.entries, x.Proper := hentries ▸ ht.plan hignore keep
  have honce : (p.entries.map fun x => pathPieces x.path).Nodup :=
    hentries ▸ nodup_plan hfrom ht hsource hignore hover
  have hsources : ∀ path source, .copy path source ∈ p.entries →
      (disk.destination source).within (disk.destination (o.get .dist)) = false := by
    intro path source hmem
    rw [hentries, plan_eq_map ht.rooted hignore] at hmem
    obtain ⟨k, hk, hentry⟩ := List.mem_map.mp hmem
    have hkind := isEntry_outputEntry ((mem_selected ht.rooted).mp hk).1.1
    rw [hentry] at hkind
    cases hkind with
    | copy hst hnone =>
      obtain ⟨hdestination, houtside⟩ := hcopied hst hnone
      rw [hdestination]
      exact houtside
  -- the run succeeds, so the output directory was filled
  rw [bundleSite_eq, hprepared] at hrun
  dsimp only at hrun
  cases hfill : fillOutput (o.get .dist) p.entries disk with
  | mk result d' =>
    rw [hfill] at hrun
    cases result with
    | error f => exact nomatch (Prod.mk.inj hrun).2
    | ok a =>
      obtain ⟨rfl, hreport'⟩ := Prod.mk.inj hrun
      obtain rfl := Except.ok.inj hreport'
      have hfilled := filled_fillOutput hdisk.sound hdisk.cwd hfresh hproper honce hsources hfill
      have honce' : (fillOutput (o.get .dist) p.entries disk).2.Once :=
        Disk.Once.fillOutput hdisk.sound.once p.entries
      rw [hfill] at honce'
      rw [hentries] at hfilled honce
      refine delivers_of_filled ht hignore hfrom hplaced (fun hst hnone => (hcopied hst hnone).1)
        hfilled honce' honce ?_
      rw [hreport, hentries]

end

/-! ## a module that is handled on its own -/

namespace HandledModule

/-- a text, a module, and an output directory that an earlier run left -/
def disk : Disk where
  entries := [(["dist".toList], .folder), (["dist".toList, "old.txt".toList], .file [65]),
    (["src".toList], .folder), (["src".toList, "a.txt".toList], .file [66]),
    (["src".toList, "m.js".toList], .file (Utf8.bytes "a();".toList))]
  cwd := []

def options : Options := Options.defaults.overlay
  ((Layer.empty.setField .handledModuleFiles (.matching ["m.js".toList])).setField .minifyScript
    false)

def tree : Tree where
  top := ["src".toList]
  nodes := #[⟨[], none, .folder⟩, ⟨"a.txt".toList, some 0, .file Tree.freshFile⟩,
    ⟨"m.js".toList, some 0, .file Tree.freshFile⟩]

def site : Site := .ofTree options disk tree fun _ => 0

theorem proper_disk : disk.Proper where
  sound := ⟨by decide, by decide⟩
  names := by
    unfold IsEntryName
    decide
  cwd := nofun

theorem locate_disk : disk.locate "src".toList = .ok ["src".toList] ∧
    disk.locate "dist".toList = .ok ["dist".toList] := ⟨rfl, rfl⟩

theorem ofDisk_disk : Site.ofDisk options disk (fun _ => 0) = .ok site := by
  have hsorted : (disk.inside ["src".toList]).Pairwise fun a b => !Place.lt b.1 a.1 := by decide
  exact ofDisk_of_pairwise locate_disk.1 hsorted rfl rfl

/-- the site behind the bundling part of the run -/
def handled : Site := (Site.planned site).2

/-- the module rolled up -/
def code : Text := ("(function()\x7b\nvar __mod_0 = (function () \x7b\n\"use strict\";\na();\n" ++
  "return \x7b\x7d;\n\x7d)();\n\x7d)();").toList

def entries : List OutputEntry :=
  [.copy "a.txt".toList "/src/a.txt".toList, .write "m.js".toList code]

def filled : Disk := (fillOutput "dist".toList entries disk).2

/-- what evaluation says about the run -/
theorem evaluated_run : (Site.planned site).1.toOption.map (·.2) = some entries ∧
    handled.selected .nothing .nothing = [1, 2] ∧ handled.tree.top = ["src".toList] ∧
    handled.bundles.length = 1 ∧
    (fillOutput "dist".toList entries disk).1.toOption = some ⟨⟩ := by
  decide +kernel

theorem prepareRun_disk : ∃ report, prepareRun options disk (fun _ => 0) =
    .ok ⟨handled, report, entries⟩ := by
  obtain ⟨hplan, -, htop, -⟩ := evaluated_run
  obtain ⟨hsrc, hdist⟩ := locate_disk
  have hseparate : ensureSeparate disk "dist".toList "src".toList = .ok () := by
    unfold ensureSeparate
    rw [hsrc, hdist]
    rfl
  have hseparate' : ensureSeparate disk "dist".toList (Place.text handled.tree.top) = .ok () := by
    have hsame : disk.locate (Place.text ["src".toList]) = .ok ["src".toList] := rfl
    unfold ensureSeparate
    rw [htop, hsame, hdist]
    rfl
  obtain ⟨⟨report, entries'⟩, hresult, hentries⟩ := Option.map_eq_some_iff.mp hplan
  obtain rfl : entries' = entries := hentries
  exact ⟨report, prepareRun_eq_ok_iff.mpr ⟨site, hseparate, ofDisk_disk,
    yields_of_toOption hresult, hseparate'⟩⟩

end HandledModule

open HandledModule in
/-- both files are in the output: the text as it was, and the module rolled up -/
theorem bundleSite_delivers_handledModule : disk.Proper ∧
    IsEntryName (options.get .bundleDirectory) ∧ Site.ofDisk options disk (fun _ => 0) = .ok site ∧
    disk.Fresh (options.get .dist) ∧ ∃ report d,
      prepareRun options disk (fun _ => 0) = .ok ⟨handled, report, entries⟩ ∧
      handled.bundles.length = 1 ∧ entries.Pairwise OutputEntry.Apart ∧
      bundleSite options disk (fun _ => 0) = (d, .ok report) ∧
      handled.Delivers .nothing .nothing HandledModule.disk d (options.get .dist) report := by
  obtain ⟨report, hprepared⟩ := prepareRun_disk
  obtain ⟨-, hselected, -, hone, hfill⟩ := evaluated_run
  have hname : IsEntryName (options.get .bundleDirectory) := by
    unfold IsEntryName
    decide
  have hfresh : disk.Fresh (options.get .dist) := .inl (by decide +kernel)
  have hnames : handled.bundles.length ≤ nameCount := by
    rw [hone]
    decide
  have hover : ¬ handled.Overlap site.tree.nodes.size (handled.selected .nothing .nothing) := by
    rintro ⟨a, -, b, hb, -, hle, -⟩
    rw [hselected] at hb
    obtain rfl | rfl : b = 1 ∨ b = 2 := by simpa using hb
    · exact absurd hle (by decide)
    · exact absurd hle (by decide)
  have hrun : bundleSite options disk (fun _ => 0) = (filled, .ok report) :=
    bundleSite_eq_ok hprepared (Prod.ext (eq_ok_of_toOption hfill) rfl)
  have hpatterns : PathFilter.read [] = .ok .nothing := rfl
  obtain ⟨hapart, hdelivers⟩ := bundleSite_delivers proper_disk hname ofDisk_disk hprepared
    hpatterns hpatterns fun _ => hnames
  exact ⟨proper_disk, hname, ofDisk_disk, hfresh, report, filled, hprepared, hone, hapart.mpr hover,
    hrun, hdelivers filled report hover hfresh hrun⟩

/-! ## a file where the bundler puts its first bundle -/

namespace OwnBundle

def markup : Text := "<script>a();</script>".toList

/-- a page with a script, and a file with the name of the first bundle -/
def disk : Disk where
  entries := [(["src".toList], .folder), (["src".toList, "bundles".toList], .folder),
    (["src".toList, "bundles".toList, "0.js".toList], .file (Utf8.bytes "own();".toList)),
    (["src".toList, "index.html".toList], .file (Utf8.bytes markup))]
  cwd := []

def options : Options := Options.defaults.overlay
  ((((Layer.empty.setField .minifyScript false).setField .iifeScript false).setField
    .minifyMarkup false).setField .randomBundleNames false)

def tree : Tree where
  top := ["src".toList]
  nodes := #[⟨[], none, .folder⟩, ⟨"bundles".toList, some 0, .folder⟩,
    ⟨"0.js".toList, some 1, .file Tree.freshFile⟩, ⟨"index.html".toList, some 0, .file Tree.freshFile⟩]

def site : Site := .ofTree options disk tree fun _ => 0

theorem proper_disk : disk.Proper where
  sound := ⟨by decide, by decide⟩
  names := by
    unfold IsEntryName
    decide
  cwd := nofun

theorem ofDisk_disk : Site.ofDisk options disk (fun _ => 0) = .ok site := by
  have htop : disk.locate "src".toList = .ok ["src".toList] := rfl
  have hsorted : (disk.inside ["src".toList]).Pairwise fun a b => !Place.lt b.1 a.1 := by decide
  exact ofDisk_of_pairwise htop hsorted rfl rfl

/-! ### the page -/

def page : Page := ⟨"index.html".toList, 3, Tree.root, options, .ofText markup false⟩

def scriptPage : Page := { page with document := { page.document with stage := .styleElementsBundled } }

def script : Asset :=
  ⟨⟨.script, 0, ⟨"<script>".toList, "a();".toList, "</script>".toList⟩⟩, .inline, false, false, false⟩

def request : Request :=
  ⟨.script, [], script.element.body, options.recipe .script false, .bundleDirectory⟩

/-- the site with the bundle that the script becomes -/
def bundled : Site := (Site.createOrReuse request site).2

def reference : Text := "<script src=\"./bundles/0.js\"></script>".toList

/-- what evaluation says about the page -/
theorem evaluated_page : (site.tree.readText site.disk 3).toOption = some markup ∧
    site.tree.relativePath 3 = "index.html".toList ∧ site.documents .nothing = [3] ∧
    bundled.tree.pathBetween? 3 4 = some "./bundles/0.js".toList := by
  decide +kernel

theorem yields_page : Yields (openPage 3 .nothing) site page site := by
  obtain ⟨htext, hpath, -⟩ := evaluated_page
  have hopen := yields_openPage_of_readText rfl (eq_ok_of_toOption htext) .nothing
  rw [hpath] at hopen
  exact hopen

theorem yields_replacement : Yields (scriptPage.replacement (options.policy .script)
    ⟨.merged false false, [script]⟩) site reference bundled := by
  have hprepare : Yields (Site.prepare (scriptPage.options.recipe (options.policy .script).family false)
      (options.policy .script).family script.element.body) site script.element.body site := rfl
  have hcreate : Yields (Site.createOrReuse request) site 0 bundled := rfl
  have hfiled : bundled.bundle 0 = .ok ⟨0, "0".toList, .script, script.element.body, [],
      options.recipe .script false, .markup, false, some 4⟩ := rfl
  have hemit : Yields (scriptPage.emit (options.policy .script) script.element.body [] false false) site
      reference bundled :=
    yields_emit false false rfl hprepare hcreate rfl hfiled rfl evaluated_page.2.2.2
  exact hemit

theorem bundleFamily_scriptPage :
    Yields (scriptPage.bundleFamily .script) site (scriptPage.withText reference) bundled := by
  have hassets : scriptPage.assets (scriptPage.options.policy .script) site.tree = [script] := rfl
  have hmarks : (scriptPage.classified (scriptPage.options.policy .script) site.tree).filterMap
      (·.untouchedFile?) = [] := rfl
  have hanchor : scriptPage.document.anchorOffset ⟨.body, .stop⟩ = 21 := rfl
  have hcuts : (replacing scriptPage.document.text [(⟨[script], 21, false⟩, reference)]).cuts =
      [(0, 21)] := rfl
  exact bundleFamily_of_single rfl rfl hmarks hassets rfl rfl hanchor rfl yields_replacement hcuts
    rfl

/-! ### the run -/

/-- what is done to the page behind the pass over its scripts -/
def finish (p : Page) : Work Unit := do
  let p ← p.advance .scriptElementsBundled
  let p ← p.withPolyfill
  let p ← p.minified
  let p ← p.advance .finalized
  changeTree fun t => t.setContent 3 p.document.text

/-- the sites from one pass to the next -/
def processed : Site := (finish (scriptPage.withText reference) bundled).2

def handled : Site := (processHandled .nothing processed).2

/-- the source file is copied to where the bundle is written -/
def entries : List OutputEntry := [.folder "bundles".toList,
  .copy "bundles/0.js".toList "/src/bundles/0.js".toList,
  .write "bundles/0.js".toList "a();".toList, .write "index.html".toList reference]

def filled : Disk := (fillOutput "dist".toList entries disk).2

/-- what evaluation says about the run -/
theorem evaluated_run : (finish (scriptPage.withText reference) bundled).1.toOption = some ⟨⟩ ∧
    (processHandled .nothing processed).1.toOption = some 0 ∧
    handled.plan .nothing .nothing = entries ∧
    (fillOutput "dist".toList entries disk).1.toOption = some ⟨⟩ ∧
    filled.entries = disk.entries ++ [(["dist".toList], .folder),
      (["dist".toList, "bundles".toList], .folder),
      (["dist".toList, "bundles".toList, "0.js".toList], .file (Utf8.bytes "a();".toList)),
      (["dist".toList, "index.html".toList], .file (Utf8.bytes reference))] := by
  decide +kernel

theorem yields_processMarkup : Yields (processMarkup 3 .nothing) site ⟨⟩ processed := by
  have hstyles : Family.style.elements page.document = [] :=
    elements_style_of_nil rfl rfl
  have hfinish : Yields (finish (scriptPage.withText reference)) bundled ⟨⟩ processed :=
    yields_of_toOption evaluated_run.1
  obtain ⟨p, t, hadvance, hfinish⟩ := yields_bind.mp hfinish
  refine yields_bind.mpr ⟨page, site, yields_page, yields_bind.mpr ⟨p, t, ?_, hfinish⟩⟩
  refine yields_bind.mpr ⟨page, site, (yields_bundleFamily hstyles).inActivity _, ?_⟩
  refine yields_bind.mpr ⟨scriptPage, site, rfl, ?_⟩
  exact yields_bind.mpr ⟨_, bundled, bundleFamily_scriptPage.inActivity _, hadvance⟩

def report : Report := ⟨(site.documents .nothing).map handled.tree.relativePath,
  handled.bundles.map handled.summary, 0, OutputEntry.fileCount entries, options.get .dist⟩

theorem prepareRun_disk : prepareRun options disk (fun _ => 0) = .ok ⟨handled, report, entries⟩ := by
  obtain ⟨-, -, hdocuments, -⟩ := evaluated_page
  obtain ⟨-, hhandled, hplan, -⟩ := evaluated_run
  have hseparate : ∀ src : Text, ensureSeparate disk "dist".toList src = .ok () := by
    intro src
    have hdist : (disk.locate "dist".toList).toOption = none := rfl
    unfold ensureSeparate
    cases h : disk.locate "dist".toList with
    | error f => rfl
    | ok top =>
      rw [h] at hdist
      exact nomatch hdist
  refine prepareRun_eq_ok_iff.mpr ⟨site, hseparate _, ofDisk_disk, yields_planned.mpr ⟨.nothing,
    .nothing, .nothing, rfl, rfl, rfl, processed, 0, ?_, yields_of_toOption hhandled, hplan.symm,
    rfl⟩, hseparate _⟩
  rw [hdocuments]
  exact yields_bind.mpr ⟨_, processed, yields_processMarkup, yields_pure.mpr ⟨rfl, rfl⟩⟩

theorem bundleSite_disk : bundleSite options disk (fun _ => 0) = (filled, .ok report) :=
  bundleSite_eq_ok prepareRun_disk (Prod.ext (eq_ok_of_toOption evaluated_run.2.2.2.1) rfl)

end OwnBundle

open OwnBundle in
/-- the file of the bundle replaces the source file, which is lost; both are counted -/
theorem bundleSite_overwrites_ownBundle : ∃ p d report, disk.Proper ∧
    IsEntryName (options.get .bundleDirectory) ∧ disk.Fresh (options.get .dist) ∧
    prepareRun options disk (fun _ => 0) = .ok p ∧ ¬ p.entries.Pairwise OutputEntry.Apart ∧
    bundleSite options disk (fun _ => 0) = (d, .ok report) ∧
    disk.get? ["src".toList, "bundles".toList, "0.js".toList] =
      some (.file (Utf8.bytes "own();".toList)) ∧
    d.get? ["dist".toList, "bundles".toList, "0.js".toList] =
      some (.file (Utf8.bytes "a();".toList)) ∧
    report.filesWritten = 3 ∧ (d.filesBelow ["dist".toList]).length = 2 := by
  obtain ⟨-, -, -, -, hfilled⟩ := evaluated_run
  have hname : IsEntryName (options.get .bundleDirectory) := by
    unfold IsEntryName
    decide
  have htwice : ¬ entries.Pairwise OutputEntry.Apart := by
    intro hapart
    obtain ⟨-, hbelow⟩ := List.pairwise_cons.mp hapart
    exact (List.rel_of_pairwise_cons hbelow List.mem_cons_self).1 rfl
  have hfiles : (filled.filesBelow ["dist".toList]).length = 2 := by
    rw [Disk.filesBelow, List.length_map, ((Disk.listing_perm _ _).filter _).length_eq]
    decide +kernel
  have hfresh : disk.get? (disk.destination "dist".toList) = none := by decide +kernel
  refine ⟨_, filled, report, proper_disk, hname, .inr hfresh, prepareRun_disk, htwice,
    bundleSite_disk, by decide +kernel, ?_, rfl, hfiles⟩
  decide +kernel

end SiteBundle
