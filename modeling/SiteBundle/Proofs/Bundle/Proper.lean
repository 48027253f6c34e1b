import SiteBundle.Proofs.Bundle.Steps
import SiteBundle.Proofs.Disk.Paths
import SiteBundle.Proofs.Tree.Scanned

/-!
# Names that entries of folders can have

Every node of a site has a name that an entry of a folder can have, whatever was bundled
(`Site.Proper`): names of the disk are such names, the bundle directory is asked for under one, and
the bundler counts or draws the names of its files from digits (`not_mem_names`).  A step keeps this
(`Site.Step.proper`), and it leaves disk, options and source directory as they are (`Site.Step.base`).
-/

namespace SiteBundle

open Site Text

variable {written placed : NodeId → Prop} {s t : Site} {id : NodeId}

/-! ## names that are counted or drawn -/

theorem slash_not_mem_hexName (n : Nat) : '/' ∉ hexName n := by
  intro h
  obtain ⟨i, -, hi⟩ := List.mem_map.mp h
  have hall : ∀ d < 16, Nat.digitChar d ≠ '/' := by decide
  exact hall _ (Nat.mod_lt _ (by decide)) hi

theorem slash_not_mem_freshName (bundles : List Bundle) (n : Nat) : '/' ∉ freshName bundles n := by
  rw [freshName_eq]
  cases hfind : (Site.candidates bundles n).find? (isFree bundles) with
  | none => exact slash_not_mem_hexName n
  | some name =>
    obtain ⟨i, -, rfl⟩ := List.mem_map.mp (List.mem_of_find?_eq_some hfind)
    exact slash_not_mem_hexName _

/-- the name of a bundle that may get a file has no slash -/
theorem slash_not_mem_name {r : Request} {name : Text} {i : BundleId} (hname : r.Names s name)
    (hnode : (r.entry i name).node = none) : '/' ∉ (r.entry i name).name := by
  have hmarkup : (if s.options.get .randomBundleNames then ∃ n, name = freshName s.bundles n
      else name = (toString (markupOf s.bundles r.family).length).toList) → '/' ∉ name := by
    intro h
    split at h
    · obtain ⟨n, rfl⟩ := h
      exact slash_not_mem_freshName _ n
    · rw [h]
      exact not_mem_toString rfl _
  unfold Request.Names at hname
  unfold Request.entry at hnode ⊢
  cases hp : r.placement with
  | inPlace file =>
    rw [hp] at hnode
    exact nomatch hnode
  | inline =>
    rw [hp] at hname
    exact hmarkup hname
  | bundleDirectory =>
    rw [hp] at hname
    exact hmarkup hname

theorem isEntryName_fileName {b : Bundle} (h : '/' ∉ b.name) : IsEntryName b.fileName := by
  have hfamily : ∃ c extension, b.family.extension = '.' :: c :: extension ∧ c ≠ '.' ∧
      '/' ∉ b.family.extension := by
    cases b.family with
    | script => exact ⟨'j', ['s'], rfl, by decide, by decide⟩
    | style => exact ⟨'c', ['s', 's'], rfl, by decide, by decide⟩
  obtain ⟨c, extension, hextension, hc, hslash⟩ := hfamily
  refine ⟨?_, fun hmem => (List.mem_append.mp hmem).elim h hslash⟩
  rw [Bundle.fileName, hextension]
  exact isPlainName_extension hc extension

/-! ## sites -/

/-- the tree has one root, and every name is one that an entry of a folder can have -/
structure Site.Proper (s : Site) : Prop where
  rooted : s.tree.Rooted
  directory : ∀ dir, s.bundleDir = some dir → s.tree.isFolder dir = true
  node : ∀ {k n}, s.tree.node? k = some n → n.parent ≠ none → IsEntryName n.name
  option : IsEntryName (s.options.get .bundleDirectory)
  /-- a bundle that may get a file -/
  named : ∀ b ∈ s.bundles, b.node = none → '/' ∉ b.name

namespace Site.Proper

theorem names (h : s.Proper) (id : NodeId) : ∀ name ∈ s.tree.names id, IsEntryName name := by
  induction id using Nat.strongRecOn with
  | _ id ih =>
    cases hn : s.tree.node? id with
    | none =>
      rw [Tree.names, hn]
      exact fun _ hname => absurd hname List.not_mem_nil
    | some n =>
      obtain ⟨name, parent, kind⟩ := n
      cases parent with
      | none =>
        rw [Tree.names, hn]
        exact fun _ hname => absurd hname List.not_mem_nil
      | some p =>
        rw [Tree.names_child h.rooted hn]
        intro name' hname'
        rcases List.mem_append.mp hname' with hname' | hname'
        · exact ih p (h.rooted.parent (Tree.parent?_of_node? hn)) name' hname'
        · rw [List.mem_singleton.mp hname']
          exact h.node hn (Option.some_ne_none p)

theorem of_modifyFile (h : s.Proper) {f : FileState → FileState} {tree : Tree}
    (htree : s.tree.modifyFile id f = .ok tree) : { s with tree }.Proper := by
  have hgrown : s.tree.Grown (fun _ _ => True) tree :=
    .modifyFile (fun _ => trivial) (fun _ => trivial) htree
  refine ⟨h.rooted.modifyFile htree, fun dir hdir => ?_, fun {k n} hn hparent => ?_, h.option, h.named⟩
  · obtain ⟨name, parent, hn⟩ := Tree.isFolder_iff.mp (h.directory dir hdir)
    exact Tree.isFolder_iff.mpr ⟨name, parent, hgrown.folder hn⟩
  · obtain ⟨name, parent, st, hfile, -, -, hnode⟩ := Tree.exists_modifyFile htree
    have hname := h.node hfile
    replace hn : tree.node? k = some n := hn
    rw [hnode] at hn
    split at hn
    · obtain rfl := Option.some.inj hn
      exact hname hparent
    · exact h.node hn hparent

/-- a node is added under a name that an entry can have -/
theorem of_add (h : s.Proper) {parent : NodeId} {name : Text} {kind : NodeKind}
    (hparent : s.tree.isFolder parent = true) (hname : IsEntryName name)
    {bundleDir : Option NodeId} {bundles : List Bundle}
    (hdir : ∀ dir, bundleDir = some dir →
      (s.tree.add parent name kind).1.isFolder dir = true)
    (hnamed : ∀ b ∈ bundles, b.node = none → '/' ∉ b.name) :
    { s with tree := (s.tree.add parent name kind).1, bundleDir, bundles }.Proper := by
  refine ⟨h.rooted.add hparent, hdir, fun {k n} hn hn' => ?_, h.option, hnamed⟩
  replace hn : (s.tree.add parent name kind).1.node? k = some n := hn
  rw [Tree.node?_add] at hn
  split at hn
  · rw [← Option.some.inj hn]
    exact hname
  · exact h.node hn hn'

end Site.Proper

theorem Site.Step.proper (hst : Step written placed s t) (h : s.Proper) : t.Proper := by
  cases hst with
  | note events => exact ⟨h.rooted, h.directory, h.node, h.option, h.named⟩
  | keep entry hr => exact ⟨h.rooted, h.directory, h.node, h.option, h.named⟩
  | mark hf htree => exact h.of_modifyFile htree
  | write hid htree => exact h.of_modifyFile htree
  | draw thrown => exact ⟨h.rooted, h.directory, h.node, h.option, h.named⟩
  | enter hnone hname hplaced =>
    refine ⟨h.rooted, h.directory, h.node, h.option, fun b hb hnode => ?_⟩
    rcases List.mem_append.mp hb with hb | hb
    · exact h.named b hb hnode
    · rw [List.mem_singleton.mp hb] at hnode ⊢
      exact slash_not_mem_name hname hnode
  | find hnone hn =>
    refine ⟨h.rooted, fun dir hdir => ?_, h.node, h.option, h.named⟩
    obtain rfl := Option.some.inj hdir
    exact Tree.isFolder_iff.mpr ⟨_, _, hn⟩
  | make hnone hfile =>
    refine h.of_add h.rooted.isFolder_root h.option (fun dir hdir => ?_) h.named
    obtain rfl := Option.some.inj hdir
    exact Tree.isFolder_iff.mpr ⟨_, _, Tree.node?_add_self⟩
  | file hdir hb hnode =>
    have hb' := List.mem_of_getElem? hb
    refine h.of_add (h.directory _ hdir) (isEntryName_fileName (h.named _ hb' hnode))
      (fun dir hdir => Tree.isFolder_add (h.directory dir hdir)) fun c hc hnone => ?_
    rcases exists_of_mem_set hc with rfl | ⟨j, -, hj⟩
    · exact nomatch hnone
    · exact h.named c (List.mem_of_getElem? hj) hnone

/-- disk, options and source directory stay as they are -/
theorem Site.Step.base (hst : Step written placed s t) :
    t.disk = s.disk ∧ t.options = s.options ∧ t.tree.top = s.tree.top := by
  cases hst with
  | mark hf htree =>
    obtain ⟨-, -, -, -, htop, -, -⟩ := Tree.exists_modifyFile htree
    exact ⟨rfl, rfl, htop⟩
  | write hid htree =>
    obtain ⟨-, -, -, -, htop, -, -⟩ := Tree.exists_modifyFile htree
    exact ⟨rfl, rfl, htop⟩
  | _ => exact ⟨rfl, rfl, rfl⟩

theorem Site.Steps.proper (hst : Steps written placed s t) (h : s.Proper) : t.Proper :=
  hst.keeps (fun _ _ hstep => hstep.proper) h

/-- bundles that were made for documents have names without slashes -/
def Site.Unslashed (s : Site) : Prop := ∀ b ∈ s.bundles, b.provenance = .markup → '/' ∉ b.name

theorem Site.Step.unslashed (hst : Step written placed s t) (h : s.Unslashed) : t.Unslashed := by
  cases hst with
  | @enter r name hnone hname hplaced =>
    intro b hb hm
    rcases List.mem_append.mp hb with hb | hb
    · exact h b hb hm
    · rw [List.mem_singleton.mp hb] at hm ⊢
      exact slash_not_mem_name hname (Request.node_entry hm)
  | @file dir i b hdir hb hnode =>
    intro c hc hm
    rcases exists_of_mem_set hc with rfl | ⟨j, -, hj⟩
    · exact h b (List.mem_of_getElem? hb) hm
    · exact h c (List.mem_of_getElem? hj) hm
  | _ => exact h

theorem Site.Steps.unslashed (hst : Steps written placed s t) (h : s.Unslashed) : t.Unslashed :=
  hst.keeps (fun _ _ hstep => hstep.unslashed) h

theorem Site.Steps.base (hst : Steps written placed s t) :
    t.disk = s.disk ∧ t.options = s.options ∧ t.tree.top = s.tree.top := by
  refine hst.keeps (I := fun u => u.disk = s.disk ∧ u.options = s.options ∧ u.tree.top = s.tree.top)
    (fun u v huv hu => ?_) ⟨rfl, rfl, rfl⟩
  obtain ⟨hdisk, hoptions, htop⟩ := huv.base
  exact ⟨hdisk.trans hu.1, hoptions.trans hu.2.1, htop.trans hu.2.2⟩

/-! ## reading the source directory -/

/-- a sound disk whose names are those of entries, with a place to start from -/
structure Disk.Proper (d : Disk) : Prop where
  sound : d.Sound
  names : ∀ x ∈ d.entries, ∀ name ∈ x.1, IsEntryName name
  cwd : d.cwd.Plain

theorem Scan.names_fold {P : Text → Prop} {entries : List (Place × Entry)} {scan : Scan}
    (hentries : ∀ e ∈ entries, e.1 ≠ [] ∧ ∀ name ∈ e.1, P name)
    (h : ∀ {k n}, scan.tree.node? k = some n → n.parent ≠ none → P n.name) :
    ∀ {k n}, (entries.foldl Scan.add scan).tree.node? k = some n → n.parent ≠ none → P n.name := by
  induction entries generalizing scan with
  | nil => exact h
  | cons e entries ih =>
    obtain ⟨⟨hne, he⟩, hrest⟩ := List.forall_mem_cons.mp hentries
    have hlast : P (e.1.getLast?.getD []) := by
      rw [List.getLast?_eq_some_getLast hne]
      exact he _ (List.getLast_mem hne)
    have hadd : ∀ {parent kind k n},
        (scan.tree.add parent (e.1.getLast?.getD []) kind).1.node? k = some n →
          n.parent ≠ none → P n.name := by
      intro parent kind k n hn hparent
      rw [Tree.node?_add] at hn
      split at hn
      · rw [← Option.some.inj hn]
        exact hlast
      · exact h hn hparent
    have hstep : ∀ {k n}, (scan.add e).tree.node? k = some n → n.parent ≠ none → P n.name := by
      intro k n hn
      unfold Scan.add at hn
      cases hkind : e.2 with
      | folder =>
        rw [hkind] at hn
        exact hadd hn
      | file content =>
        rw [hkind] at hn
        exact hadd hn
    intro k n
    exact ih hrest hstep

theorem Site.proper_ofDisk {o : Options} {disk : Disk} {dice : Nat → Nat} (hdisk : disk.Proper)
    (hname : IsEntryName (o.get .bundleDirectory)) (h : ofDisk o disk dice = .ok s) : s.Proper := by
  obtain ⟨tree, hscan, rfl⟩ := ofDisk_eq_ok h
  refine ⟨(Tree.folders_scan hdisk.sound hscan).1, nofun, ?_, hname,
    fun _ hb => absurd hb List.not_mem_nil⟩
  show ∀ {k n}, tree.node? k = some n → n.parent ≠ none → IsEntryName n.name
  obtain ⟨top, -, rfl⟩ := Tree.scan_eq_ok hscan
  refine Scan.names_fold (fun e he => ?_) fun {k n} hn hparent => ?_
  · obtain ⟨hentry, hne⟩ := Disk.mem_listing.mp (List.mem_filter.mp he).1
    exact ⟨hne, fun name hmem => hdisk.names _ hentry name (List.mem_append_right _ hmem)⟩
  · rw [(Tree.node?_empty hn).2] at hparent
    exact absurd rfl hparent

end SiteBundle
