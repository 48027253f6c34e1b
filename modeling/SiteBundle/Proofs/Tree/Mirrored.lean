import SiteBundle.Proofs.Tree.Scanned

/-!
# What a tree says of the disk

The tree of a source directory mirrors a part of the listing: one node for each entry that is not left
out, with the names of the entry and of its kind (`Scan.Mirrors`).  So no two nodes have the same
names, and a file of the tree is a file of the disk (`Tree.mirrors_scan`).
-/

namespace SiteBundle

open Text

/-- what an entry is in a tree -/
def Entry.kind : Entry → NodeKind
  | .folder => .folder
  | .file _ => .file Tree.freshFile

/-- a node for each entry that was read -/
structure Scan.Mirrors (done : List (Place × Entry)) (s : Scan) : Prop where
  size : s.tree.nodes.size = done.length + 1
  node : ∀ {i : Nat} {e : Place × Entry}, done[i]? = some e → s.tree.names (i + 1) = e.1 ∧
    ∃ name parent, s.tree.node? (i + 1) = some ⟨name, parent, e.2.kind⟩

namespace Scan.Mirrors
variable {disk : Disk} {top : Place} {done : List (Place × Entry)} {s : Scan}

theorem init (top : Place) : Mirrors [] ⟨.empty top, [([], Tree.root)]⟩ :=
  ⟨rfl, fun h => absurd (List.mem_of_getElem? h) List.not_mem_nil⟩

theorem add (h : Mirrors done s) (hs : Scan.Sound disk top done s) {e : Place × Entry}
    (hne : e.1 ≠ []) (habove : e.1.dropLast = [] ∨ (e.1.dropLast, .folder) ∈ done) :
    Mirrors (done ++ [e]) (s.add e) := by
  obtain ⟨x, hx, hxfolder, hnames⟩ := hs.exists_folder habove
  obtain ⟨-, hold, hnew⟩ := hs.names_add hne hxfolder hnames e.2.kind
  have htree : (s.add e).tree = (s.tree.add x.2 (e.1.getLast?.getD []) e.2.kind).1 := by
    unfold Scan.add
    rw [hx, Option.map_some, Option.getD_some]
    cases e.2 <;> rfl
  refine ⟨?_, fun {i e'} hi => ?_⟩
  · rw [htree, List.length_append, List.length_singleton, ← h.size]
    exact Array.size_push _
  · rw [htree]
    rcases Nat.lt_or_ge i done.length with hlt | hge
    · rw [List.getElem?_append_left hlt] at hi
      obtain ⟨hnames', name, parent, hn⟩ := h.node hi
      exact ⟨(hold _ (Tree.lt_of_node? hn)).trans hnames', name, parent, Tree.node?_add_of_some hn⟩
    · have hlast : i = done.length := by
        have hi := (List.getElem?_eq_some_iff.mp hi).1
        rw [List.length_append, List.length_singleton] at hi
        omega
      subst hlast
      rw [List.getElem?_concat_length] at hi
      obtain rfl := Option.some.inj hi
      rw [← h.size]
      exact ⟨hnew, _, _, Tree.node?_add_self⟩

/-- a listing in which every folder comes before what is in it -/
theorem fold (h : Mirrors done s) (hs : Scan.Sound disk top done s)
    {entries : List (Place × Entry)}
    (hentries : ∀ before e after, entries = before ++ e :: after → e.1 ≠ [] ∧
      (e.1.dropLast = [] ∨ (e.1.dropLast, .folder) ∈ done ++ before) ∧
      (e.2 = .folder → disk.isFolder (top ++ e.1) = true)) :
    Mirrors (done ++ entries) (entries.foldl Scan.add s) := by
  induction entries generalizing done s with
  | nil =>
    rw [List.append_nil]
    exact h
  | cons e entries ih =>
    obtain ⟨hne, habove, hfolder⟩ := hentries [] e entries rfl
    rw [List.append_nil] at habove
    have hrest := ih (h.add hs hne habove) (hs.add hne habove hfolder) fun before e' after heq => by
      have := hentries (e :: before) e' after (by rw [heq]; rfl)
      rwa [List.append_assoc]
    rwa [List.append_assoc] at hrest

/-- nodes with the same names are one node -/
theorem names_inj (h : Mirrors done s) (hs : s.tree.Rooted) (hdone : (done.map (·.1)).Nodup)
    (hne : ∀ e ∈ done, e.1 ≠ []) {a b : NodeId} (ha : a < s.tree.nodes.size)
    (hb : b < s.tree.nodes.size) (hab : s.tree.names a = s.tree.names b) : a = b := by
  have hentry : ∀ {i}, i + 1 < s.tree.nodes.size → ∃ e, done[i]? = some e ∧
      s.tree.names (i + 1) = e.1 := by
    intro i hi
    rw [h.size] at hi
    have he := List.getElem?_eq_getElem (Nat.lt_of_succ_lt_succ hi)
    exact ⟨_, he, (h.node he).1⟩
  have hroot : ∀ {i}, i + 1 < s.tree.nodes.size → s.tree.names (i + 1) ≠ s.tree.names 0 := by
    intro i hi heq
    obtain ⟨e, he, hnames⟩ := hentry hi
    rw [hnames, show s.tree.names 0 = [] from Tree.names_root hs] at heq
    exact hne e (List.mem_of_getElem? he) heq
  cases a with
  | zero =>
    cases b with
    | zero => rfl
    | succ b => exact absurd hab.symm (hroot hb)
  | succ a =>
    cases b with
    | zero => exact absurd hab (hroot ha)
    | succ b =>
      obtain ⟨e, he, hnames⟩ := hentry ha
      obtain ⟨e', he', hnames'⟩ := hentry hb
      have hplace : ∀ {i : Nat} {e : Place × Entry}, done[i]? = some e → (done.map (·.1))[i]? = some e.1 := by
        intro i e hi
        rw [List.getElem?_map, hi]
        rfl
      have hlt : a < (done.map (·.1)).length := (List.getElem?_eq_some_iff.mp (hplace he)).1
      rw [hnames, hnames'] at hab
      have hsame := (hplace he).trans (hab ▸ (hplace he').symm)
      rw [(List.getElem?_inj hlt hdone).mp hsame]

/-- a file has an entry -/
theorem exists_entry (h : Mirrors done s) (hs : s.tree.Rooted) {id : NodeId} {name : Text}
    {parent : Option NodeId} {st : FileState}
    (hn : s.tree.node? id = some ⟨name, parent, .file st⟩) :
    ∃ e ∈ done, e.2.kind = .file st ∧ s.tree.names id = e.1 := by
  cases id with
  | zero =>
    obtain ⟨_, hroot⟩ := hs.root
    exact nomatch (Node.mk.inj (Option.some.inj (hn.symm.trans hroot))).2.2
  | succ i =>
    have hi := Tree.lt_of_node? hn
    rw [h.size] at hi
    have he := List.getElem?_eq_getElem (Nat.lt_of_succ_lt_succ hi)
    obtain ⟨hnames, name', parent', hn'⟩ := h.node he
    refine ⟨_, List.mem_of_getElem? he, ?_, hnames⟩
    exact (Node.mk.inj (Option.some.inj (hn'.symm.trans hn))).2.2

end Scan.Mirrors

/-- the tree of a listing mirrors it -/
theorem mirrors_listing {disk : Disk} (hdisk : disk.Sound) (top : Place) (filter : TreeFilter)
    (excluded : Option Place) :
    let entries := (disk.listing top).filter fun e => !filter.refuses top excluded e.1
    let s := entries.foldl Scan.add ⟨.empty top, [([], Tree.root)]⟩
    s.tree.top = top ∧ Scan.Mirrors entries s := by
  intro entries s
  by_cases hfolder : disk.isFolder top = true
  · have hmirrors : Scan.Mirrors ([] ++ entries) s :=
      (Scan.Mirrors.init top).fold (Scan.Sound.init hfolder) fun before e after heq => by
        obtain ⟨hne, habove, hentry, -⟩ := listed_above hdisk heq
        rw [List.nil_append]
        exact ⟨hne, habove, fun he => Disk.isFolder_iff.mpr (he ▸ hdisk.get? hentry)⟩
    exact ⟨(scan_fold hdisk hfolder).top_eq, hmirrors⟩
  · -- below a file there is nothing
    have hnil : entries = [] := by
      refine List.eq_nil_iff_forall_not_mem.mpr fun e he => hfolder ?_
      obtain ⟨hentry, hne⟩ := Disk.mem_listing.mp (List.mem_filter.mp he).1
      exact hdisk.isFolder_of_below hne hentry
    have hs : s = ⟨.empty top, [([], Tree.root)]⟩ := by
      show entries.foldl Scan.add _ = _
      rw [hnil]
      rfl
    rw [hs, hnil]
    exact ⟨rfl, Scan.Mirrors.init top⟩

/-- **The tree of a source directory has a node for each entry at most, and its files are files of the
disk that are not left out.** -/
theorem Tree.mirrors_scan {disk : Disk} {src : Text} {filter : TreeFilter} {t : Tree}
    (hdisk : disk.Sound) (h : Tree.scan disk src filter = .ok t) :
    disk.locate src = .ok t.top ∧
      (∀ a b, a < t.nodes.size → b < t.nodes.size → t.names a = t.names b → a = b) ∧
      ∀ id st, t.file id = .ok st →
        (∃ content, disk.get? (t.top ++ t.names id) = some (.file content)) ∧
        filter.refuses t.top (filter.exclude.bind fun e => (disk.locate e).toOption)
          (t.names id) = false := by
  have hrooted := (folders_scan hdisk h).1
  obtain ⟨top, htop, rfl⟩ := scan_eq_ok h
  obtain ⟨htop', hmirrors⟩ : _ ∧ Scan.Mirrors _ _ := mirrors_listing hdisk top filter
    (filter.exclude.bind fun e => (disk.locate e).toOption)
  have hlisted : ∀ e ∈ (disk.listing top).filter fun e => !filter.refuses top
      (filter.exclude.bind fun e => (disk.locate e).toOption) e.1, e.1 ≠ [] ∧
        (top ++ e.1, e.2) ∈ disk.entries ∧ filter.refuses top
          (filter.exclude.bind fun e => (disk.locate e).toOption) e.1 = false := by
    intro e he
    obtain ⟨before, after, heq⟩ := List.append_of_mem he
    obtain ⟨hne, -, hentry, hkept⟩ := listed_above hdisk heq
    exact ⟨hne, hentry, hkept⟩
  rw [htop']
  refine ⟨htop, fun a b ha hb => hmirrors.names_inj hrooted ?_ (fun e he => (hlisted e he).1) ha hb,
    fun id st hst => ?_⟩
  · exact (List.filter_sublist.map _).nodup (Disk.nodup_listing hdisk.once top)
  · obtain ⟨name, parent, hn⟩ := file_eq_ok_iff.mp hst
    obtain ⟨e, he, hkind, hnames⟩ := hmirrors.exists_entry hrooted hn
    obtain ⟨-, hentry, hkept⟩ := hlisted e he
    rw [hnames]
    refine ⟨?_, hkept⟩
    cases hfile : e.2 with
    | folder =>
      rw [hfile] at hkind
      exact nomatch hkind
    | file content => exact ⟨content, hfile ▸ hdisk.get? hentry⟩

end SiteBundle
