import SiteBundle.Proofs.Disk.Listing
import SiteBundle.Proofs.Tree.Pristine
import SiteBundle.Proofs.Tree.Rooted
import SiteBundle.Run

/-!
# What a scan finds

The tree of a source directory has one root, and its folders are folders of the disk
(`folders_scan`).  A folder is listed before what is in it, so it has a node when that is added; and
what is left out of a tree is left out with everything below it.
-/

namespace SiteBundle

open Text

/-- what has been read so far: `done` of the listing of `top` -/
structure Scan.Sound (disk : Disk) (top : Place) (done : List (Place × Entry)) (s : Scan) : Prop where
  rooted : s.tree.Rooted
  top_eq : s.tree.top = top
  start : ([], Tree.root) ∈ s.folders
  found : ∀ x ∈ s.folders, s.tree.isFolder x.2 = true ∧ s.tree.names x.2 = x.1
  read : ∀ e ∈ done, e.2 = .folder → ∃ id, (e.1, id) ∈ s.folders
  folder : ∀ id, s.tree.isFolder id = true → disk.isFolder (top ++ s.tree.names id) = true

namespace Scan.Sound
variable {disk : Disk} {top : Place} {done : List (Place × Entry)} {s : Scan}

theorem init (htop : disk.isFolder top = true) :
    Scan.Sound disk top [] ⟨.empty top, [([], Tree.root)]⟩ := by
  have hrooted := Tree.rooted_empty top
  refine ⟨hrooted, rfl, List.mem_singleton_self _, fun x hx => ?_,
    fun _ he => absurd he List.not_mem_nil, fun id hf => ?_⟩
  · rw [List.mem_singleton.mp hx]
    exact ⟨rfl, Tree.names_root hrooted⟩
  · obtain ⟨name, parent, hn⟩ := Tree.isFolder_iff.mp hf
    rw [(Tree.node?_empty hn).1, Tree.names_root hrooted, List.append_nil]
    exact htop

/-- the folder that an entry is in -/
theorem exists_folder (h : Scan.Sound disk top done s) {e : Place × Entry}
    (habove : e.1.dropLast = [] ∨ (e.1.dropLast, .folder) ∈ done) :
    ∃ x, s.folders.find? (·.1 == e.1.dropLast) = some x ∧ s.tree.isFolder x.2 = true ∧
      s.tree.names x.2 = e.1.dropLast := by
  obtain ⟨parent, hparent⟩ : ∃ id, (e.1.dropLast, id) ∈ s.folders := by
    rcases habove with hnil | hmem
    · exact ⟨_, hnil ▸ h.start⟩
    · exact h.read _ hmem rfl
  obtain ⟨x, hx⟩ : ∃ x, s.folders.find? (·.1 == e.1.dropLast) = some x :=
    Option.isSome_iff_exists.mp (List.find?_isSome.mpr ⟨_, hparent, beq_self_eq_true _⟩)
  have hplace := List.find?_some hx
  rw [beq_iff_eq] at hplace
  obtain ⟨hxfolder, hnames⟩ := h.found x (List.mem_of_find?_eq_some hx)
  exact ⟨x, hx, hxfolder, hnames.trans hplace⟩

/-- the tree with a node for an entry -/
theorem names_add (h : Scan.Sound disk top done s) {e : Place × Entry} (hne : e.1 ≠ [])
    {parent : NodeId} (hparent : s.tree.isFolder parent = true)
    (hnames : s.tree.names parent = e.1.dropLast) (kind : NodeKind) :
    (s.tree.add parent (e.1.getLast?.getD []) kind).1.Rooted ∧
      (∀ k < s.tree.nodes.size, (s.tree.add parent (e.1.getLast?.getD []) kind).1.names k =
        s.tree.names k) ∧
      (s.tree.add parent (e.1.getLast?.getD []) kind).1.names s.tree.nodes.size = e.1 := by
  have hrooted : (s.tree.add parent (e.1.getLast?.getD []) kind).1.Rooted := h.rooted.add hparent
  have hgrown : s.tree.Grown (fun _ _ => True) (s.tree.add parent (e.1.getLast?.getD []) kind).1 :=
    .add (fun _ => trivial) _ _ _
  have hold : ∀ k < s.tree.nodes.size, (s.tree.add parent (e.1.getLast?.getD []) kind).1.names k =
      s.tree.names k := fun k hk => Tree.names_of_grown hgrown hk
  refine ⟨hrooted, hold, ?_⟩
  rw [Tree.names_child hrooted Tree.node?_add_self, hold parent (Tree.lt_of_isFolder hparent),
    hnames, List.getLast?_eq_some_getLast hne, Option.getD_some, List.dropLast_concat_getLast]

/-- an entry is added to the folder that it is in -/
theorem add (h : Scan.Sound disk top done s) {e : Place × Entry} (hne : e.1 ≠ [])
    (habove : e.1.dropLast = [] ∨ (e.1.dropLast, .folder) ∈ done)
    (hfolder : e.2 = .folder → disk.isFolder (top ++ e.1) = true) :
    Scan.Sound disk top (done ++ [e]) (s.add e) := by
  obtain ⟨x, hx, hxfolder, hnames⟩ := h.exists_folder habove
  have hnode := h.names_add hne hxfolder hnames
  have hfolders : ∀ kind k, (s.tree.add x.2 (e.1.getLast?.getD []) kind).1.isFolder k = true →
      k = s.tree.nodes.size ∧ kind = .folder ∨ k < s.tree.nodes.size ∧ s.tree.isFolder k = true := by
    intro kind k hk
    obtain ⟨name, parent, hn⟩ := Tree.isFolder_iff.mp hk
    rw [Tree.node?_add] at hn
    split at hn
    · rename_i hks
      exact .inl ⟨hks, (Node.mk.inj (Option.some.inj hn)).2.2⟩
    · exact .inr ⟨Tree.lt_of_node? hn, Tree.isFolder_iff.mpr ⟨_, _, hn⟩⟩
  unfold Scan.add
  rw [hx, Option.map_some, Option.getD_some]
  cases he : e.2 with
  | folder =>
    obtain ⟨hrooted, hold, hnew⟩ := hnode .folder
    refine ⟨hrooted, h.top_eq, List.mem_append_left _ h.start, fun y hy => ?_, fun y hy hyf => ?_,
      fun k hk => ?_⟩
    · rcases List.mem_append.mp hy with hy | hy
      · obtain ⟨hyfolder, hynames⟩ := h.found y hy
        exact ⟨Tree.isFolder_add hyfolder, (hold _ (Tree.lt_of_isFolder hyfolder)).trans hynames⟩
      · rw [List.mem_singleton.mp hy]
        exact ⟨Tree.isFolder_iff.mpr ⟨_, _, Tree.node?_add_self⟩, hnew⟩
    · rcases List.mem_append.mp hy with hy | hy
      · obtain ⟨id, hid⟩ := h.read y hy hyf
        exact ⟨id, List.mem_append_left _ hid⟩
      · rw [List.mem_singleton.mp hy]
        exact ⟨_, List.mem_append_right _ (List.mem_singleton_self _)⟩
    · show disk.isFolder (top ++ (s.tree.add _ _ _).1.names k) = true
      rcases hfolders .folder k hk with ⟨rfl, -⟩ | ⟨hlt, hk⟩
      · rw [hnew]
        exact hfolder he
      · rw [hold k hlt]
        exact h.folder k hk
  | file content =>
    obtain ⟨hrooted, hold, -⟩ := hnode (.file ⟨none, false, [], false⟩)
    refine ⟨hrooted, h.top_eq, h.start, fun y hy => ?_, fun y hy hyf => ?_, fun k hk => ?_⟩
    · obtain ⟨hyfolder, hynames⟩ := h.found y hy
      exact ⟨Tree.isFolder_add hyfolder, (hold _ (Tree.lt_of_isFolder hyfolder)).trans hynames⟩
    · rcases List.mem_append.mp hy with hy | hy
      · exact h.read y hy hyf
      · rw [List.mem_singleton.mp hy, he] at hyf
        exact nomatch hyf
    · show disk.isFolder (top ++ (s.tree.add _ _ _).1.names k) = true
      rcases hfolders _ k hk with ⟨-, hkind⟩ | ⟨hlt, hk⟩
      · exact nomatch hkind
      · rw [hold k hlt]
        exact h.folder k hk

/-- a listing in which every folder comes before what is in it -/
theorem fold (h : Scan.Sound disk top done s) {entries : List (Place × Entry)}
    (hentries : ∀ before e after, entries = before ++ e :: after → e.1 ≠ [] ∧
      (e.1.dropLast = [] ∨ (e.1.dropLast, .folder) ∈ done ++ before) ∧
      (e.2 = .folder → disk.isFolder (top ++ e.1) = true)) :
    Scan.Sound disk top (done ++ entries) (entries.foldl Scan.add s) := by
  induction entries generalizing done s with
  | nil =>
    rw [List.append_nil]
    exact h
  | cons e entries ih =>
    obtain ⟨hne, habove, hfolder⟩ := hentries [] e entries rfl
    rw [List.append_nil] at habove
    have hrest := ih (h.add hne habove hfolder) fun before e' after heq => by
      have := hentries (e :: before) e' after (by rw [heq]; rfl)
      rwa [List.append_assoc]
    rwa [List.append_assoc] at hrest

end Scan.Sound

/-! ## what is left out -/

theorem TreeFilter.refuses_of_dropLast {f : TreeFilter} {top names : Place} {excluded : Option Place}
    (h : f.refuses top excluded names.dropLast = true) : f.refuses top excluded names = true := by
  unfold refuses at h ⊢
  rw [Bool.or_eq_true] at h ⊢
  refine h.imp (fun hany => ?_) fun hplace => ?_
  · obtain ⟨name, hname, hf⟩ := List.any_eq_true.mp hany
    exact List.any_eq_true.mpr ⟨name, (List.dropLast_sublist names).subset hname, hf⟩
  · cases excluded with
    | none => exact nomatch hplace
    | some e =>
      simp only [Bool.and_eq_true, Place.within, List.isPrefixOf_iff_prefix] at hplace ⊢
      refine ⟨⟨hplace.1.1, hplace.1.2.trans ?_⟩, hplace.2⟩
      rw [List.prefix_append_right_inj]
      exact List.dropLast_prefix names

/-- a folder is listed before what is in it, and what is in it is left out with it -/
theorem listed_above {disk : Disk} {top : Place} {filter : TreeFilter} {excluded : Option Place}
    (hdisk : disk.Sound) {before after : List (Place × Entry)} {e : Place × Entry}
    (h : ((disk.listing top).filter fun e => !filter.refuses top excluded e.1) =
      before ++ e :: after) :
    e.1 ≠ [] ∧ (e.1.dropLast = [] ∨ (e.1.dropLast, .folder) ∈ before) ∧
      (top ++ e.1, e.2) ∈ disk.entries ∧ filter.refuses top excluded e.1 = false := by
  have hmem : e ∈ (disk.listing top).filter fun e => !filter.refuses top excluded e.1 :=
    h ▸ List.mem_append_right _ List.mem_cons_self
  obtain ⟨hlisted, hkept⟩ := List.mem_filter.mp hmem
  obtain ⟨hentry, hne⟩ := Disk.mem_listing.mp hlisted
  rw [Bool.not_eq_true', ← Bool.not_eq_true] at hkept
  refine ⟨hne, ?_, hentry, Bool.not_eq_true _ ▸ hkept⟩
  by_cases hnil : e.1.dropLast = []
  · exact .inl hnil
  · -- the folder above is listed, and it cannot come behind
    refine .inr ?_
    have habove := (hdisk.above _ hentry).2
    rw [List.dropLast_append_of_ne_nil hne] at habove
    have hparent : (e.1.dropLast, Entry.folder) ∈
        (disk.listing top).filter fun e => !filter.refuses top excluded e.1 := by
      refine List.mem_filter.mpr ⟨Disk.mem_listing.mpr ⟨Disk.mem_of_get?
        (List.append_ne_nil_of_right_ne_nil _ hnil) (Disk.isFolder_iff.mp habove), hnil⟩, ?_⟩
      rw [Bool.not_eq_true', ← Bool.not_eq_true]
      exact fun hrefused => hkept (TreeFilter.refuses_of_dropLast hrefused)
    have hlt : e.1.dropLast < e.1 := by
      have := Place.lt_concat e.1.dropLast (e.1.getLast hne)
      rwa [List.dropLast_concat_getLast] at this
    have hsorted : ((disk.listing top).filter fun e => !filter.refuses top excluded e.1).Pairwise
        fun x y => ¬ y.1 < x.1 := (Disk.pairwise_listing disk top).filter _
    rw [h] at hsorted hparent
    obtain ⟨-, hsorted, -⟩ := List.pairwise_append.mp hsorted
    rcases List.mem_append.mp hparent with hparent | hparent
    · exact hparent
    · rcases List.mem_cons.mp hparent with hself | hparent
      · have hsame : e.1.dropLast = e.1 := congrArg Prod.fst hself
        rw [hsame] at hlt
        exact absurd hlt (List.lt_irrefl _)
      · exact absurd hlt ((List.pairwise_cons.mp hsorted).1 _ hparent)

theorem scan_fold {disk : Disk} {top : Place} {filter : TreeFilter} {excluded : Option Place}
    (hdisk : disk.Sound) (htop : disk.isFolder top = true) :
    let entries := (disk.listing top).filter fun e => !filter.refuses top excluded e.1
    Scan.Sound disk top entries (entries.foldl Scan.add ⟨.empty top, [([], Tree.root)]⟩) := by
  refine (Scan.Sound.init htop).fold fun before e after heq => ?_
  obtain ⟨hne, habove, hentry, -⟩ := listed_above hdisk heq
  rw [List.nil_append]
  exact ⟨hne, habove, fun he => Disk.isFolder_iff.mpr (he ▸ hdisk.get? hentry)⟩

/-- the tree has one root, and in a tree with files every folder is a folder of the disk -/
theorem Tree.folders_scan {disk : Disk} {src : Text} {filter : TreeFilter} {t : Tree}
    (hdisk : disk.Sound) (h : Tree.scan disk src filter = .ok t) :
    t.Rooted ∧ ∀ file id, t.isFile file = true → t.isFolder id = true →
      disk.isFolder (t.top ++ t.names id) = true := by
  obtain ⟨top, -, rfl⟩ := scan_eq_ok h
  by_cases hfolder : disk.isFolder top = true
  · have hscan := @scan_fold disk top filter
      (filter.exclude.bind fun e => (disk.locate e).toOption) hdisk hfolder
    refine ⟨hscan.rooted, fun _ id _ hid => ?_⟩
    rw [hscan.top_eq]
    exact hscan.folder id hid
  · -- below a file there is nothing
    have hnil : disk.listing top = [] := by
      refine List.eq_nil_iff_forall_not_mem.mpr fun e he => hfolder ?_
      obtain ⟨hentry, hne⟩ := Disk.mem_listing.mp he
      exact hdisk.isFolder_of_below hne hentry
    rw [hnil]
    refine ⟨Tree.rooted_empty top, fun file id hfile _ => ?_⟩
    obtain ⟨st, hst⟩ := Tree.isFile_iff.mp hfile
    obtain ⟨name, parent, hn⟩ := Tree.file_eq_ok_iff.mp hst
    exact nomatch (Node.mk.inj (Tree.node?_empty hn).2).2.2

/-! ## the site of a source directory -/

section
variable {o : Options} {disk : Disk} {dice : Nat → Nat}

/-- a site begins with the tree of its source directory -/
theorem Site.ofDisk_eq_ok {s : Site} (h : ofDisk o disk dice = .ok s) : ∃ tree,
    Tree.scan disk (o.get .src) ⟨o.get .ignoreGit, o.get .ignoreDsStore, some (o.get .dist)⟩ =
      .ok tree ∧ s = .ofTree o disk tree dice := by
  unfold ofDisk at h
  dsimp only at h
  cases hscan : Tree.scan disk (o.get .src)
      ⟨o.get .ignoreGit, o.get .ignoreDsStore, some (o.get .dist)⟩ with
  | error f =>
    rw [hscan] at h
    exact nomatch h
  | ok tree =>
    rw [hscan] at h
    exact ⟨tree, rfl, (Except.ok.inj h).symm⟩

/-- the site of a source directory whose files the disk has in order -/
theorem Site.ofDisk_of_pairwise {top : Place} {kept : List (Place × Entry)} {tree : Tree}
    (htop : disk.locate (o.get .src) = .ok top)
    (hsorted : (disk.inside top).Pairwise fun a b => !Place.lt b.1 a.1)
    (hkept : ((disk.inside top).filter fun e => !TreeFilter.refuses ⟨o.get .ignoreGit,
      o.get .ignoreDsStore, some (o.get .dist)⟩ top (disk.locate (o.get .dist)).toOption e.1) = kept)
    (htree : (kept.foldl Scan.add ⟨.empty top, [([], Tree.root)]⟩).tree = tree) :
    ofDisk o disk dice = .ok (.ofTree o disk tree dice) := by
  have hscan : Tree.scan disk (o.get .src)
      ⟨o.get .ignoreGit, o.get .ignoreDsStore, some (o.get .dist)⟩ = .ok tree := by
    unfold Tree.scan
    rw [htop, ← htree, ← hkept, ← Disk.listing_of_pairwise hsorted]
    rfl
  show during _ (Tree.scan disk (o.get .src) _) >>= _ = _
  rw [hscan]
  rfl

end

end SiteBundle
