import SiteBundle.Proofs.Bundle.Proper

/-!
# Where nodes come from

A site begins with the nodes of the source directory.  Behind them the bundler adds the bundle directory
and files of bundles, and nothing else (`Site.Built`).  So a node that was added has one or two names
(`Site.Built.names_added`).  This is kept by every step that writes to source nodes only
(`Site.Step.built`).

As long as there is a name for every bundle, no two bundles share one (`Site.From`), so no two nodes that
were added have the same names (`Site.From.eq_of_names`).
-/

namespace SiteBundle

open Site Text

variable {written placed : NodeId → Prop} {s₀ s t : Site} {id k : NodeId}

/-- bookkeeping of a file that is still made by whom it was made by -/
def FileState.SameOrigin (st st' : FileState) : Prop := st'.generated = st.generated

theorem FileState.SameOrigin.refl (st : FileState) : st.SameOrigin st := rfl

theorem FileState.SameOrigin.trans {a b c : FileState} (h : a.SameOrigin b) (h' : b.SameOrigin c) :
    a.SameOrigin c := Eq.trans h' h

/-- the site began with the nodes of `s₀`, and what was added since is the bundler's -/
structure Site.Built (s₀ s : Site) : Prop where
  source : s₀.tree.Grown FileState.SameOrigin s.tree
  added : ∀ {k n}, s.tree.node? k = some n → s₀.tree.nodes.size ≤ k →
    (n.kind = .folder ∧ s.bundleDir = some k) ∨ ∃ st, n.kind = .file st ∧ st.generated = true
  filing : Filing s

/-- and its bundles have names of their own -/
structure Site.From (s₀ s : Site) : Prop extends Built s₀ s where
  catalogue : Catalogue (s.options.get .randomBundleNames) s.bundles

namespace Site.Built

/-- nothing was bundled yet, and the bundler made none of the files -/
theorem start {options : Options} {disk : Disk} {tree : Tree} {dice : Nat → Nat}
    (h : tree.Pristine) : Built (.ofTree options disk tree dice) (.ofTree options disk tree dice) where
  source := .refl .refl _
  added := fun hn hk => absurd (Tree.lt_of_node? hn) (Nat.not_lt_of_le hk)
  filing := (registry_ofTree fun id st hst => by rw [h id st hst]; rfl).filing

theorem modifyFile (h : Built s₀ s) {f : FileState → FileState} {tree : Tree}
    (htree : s.tree.modifyFile id f = .ok tree) (hmade : ∀ st, (f st).generated = st.generated)
    (hcontent : ∀ st, s.tree.file id = .ok st → st.generated = true →
      (f st).override = st.override) : Built s₀ { s with tree } where
  source := h.source.trans (fun _ _ _ => .trans)
    (.modifyFile .refl hmade htree)
  added := fun {k n} hn hk => by
    obtain ⟨name, parent, st, hfile, -, -, hnode⟩ := Tree.exists_modifyFile htree
    replace hn := (hnode k).symm.trans hn
    split at hn
    · rename_i heq
      subst heq
      obtain rfl := Option.some.inj hn
      obtain ⟨hkind, -⟩ | ⟨st', hst', hg⟩ := h.added hfile hk
      · exact nomatch hkind
      · obtain rfl := NodeKind.file.inj hst'
        exact .inr ⟨f st, rfl, (hmade st).trans hg⟩
    · exact h.added hn hk
  filing := h.filing.modifyFile htree hmade hcontent

/-- files among the source nodes were files from the beginning -/
theorem file_of_lt (h : Built s₀ s) (hlt : id < s₀.tree.nodes.size) {st : FileState}
    (hst : s.tree.file id = .ok st) : ∃ st₀, s₀.tree.file id = .ok st₀ ∧ st₀.SameOrigin st := by
  obtain ⟨⟨name, parent, kind⟩, hn⟩ : ∃ n, s₀.tree.node? id = some n :=
    ⟨_, Tree.node?_eq_some_iff.mpr ⟨hlt, rfl⟩⟩
  obtain ⟨name', parent', hn'⟩ := Tree.file_eq_ok_iff.mp hst
  cases kind with
  | folder => exact nomatch (Node.mk.inj (Option.some.inj ((h.source.folder hn).symm.trans hn'))).2.2
  | file st₀ =>
    obtain ⟨st', hn'', hsame⟩ := h.source.file hn
    obtain ⟨-, -, hkind⟩ := Node.mk.inj (Option.some.inj (hn''.symm.trans hn'))
    obtain rfl := NodeKind.file.inj hkind
    exact ⟨st₀, Tree.file_eq_ok_iff.mpr ⟨name, parent, hn⟩, hsame⟩

/-- files of the bundler are behind the source nodes -/
theorem le_of_generated (h : Built s₀ s) (hnew : s₀.tree.Pristine) {st : FileState}
    (hst : s.tree.file id = .ok st) (hg : st.generated = true) : s₀.tree.nodes.size ≤ id := by
  refine Nat.le_of_not_lt fun hlt => ?_
  obtain ⟨st₀, hst₀, hsame⟩ := h.file_of_lt hlt hst
  rw [hnew id st₀ hst₀] at hsame
  exact nomatch hsame.symm.trans hg

/-- files behind the source nodes are the bundler's -/
theorem generated_of_le (h : Built s₀ s) (hle : s₀.tree.nodes.size ≤ id) {st : FileState}
    (hst : s.tree.file id = .ok st) : st.generated = true := by
  obtain ⟨name, parent, hn⟩ := Tree.file_eq_ok_iff.mp hst
  obtain ⟨hkind, -⟩ | ⟨st', hkind, hg⟩ := h.added hn hle
  · exact nomatch hkind
  · obtain rfl := NodeKind.file.inj hkind
    exact hg

end Site.Built

/-- a step that writes to source nodes only keeps what is known of the others -/
theorem Site.Step.built (hst : Step written placed s t) (hnew : s₀.tree.Pristine)
    (hwritten : ∀ id, written id → id < s₀.tree.nodes.size) (h : Built s₀ s) : Built s₀ t := by
  cases hst with
  | note events =>
    exact ⟨h.source, h.added, h.filing.directory, h.filing.file, h.filing.apart, h.filing.generated,
      h.filing.inPlace⟩
  | keep entry hr =>
    exact ⟨h.source, h.added, h.filing.directory, h.filing.file, h.filing.apart, h.filing.generated,
      h.filing.inPlace⟩
  | draw thrown =>
    exact ⟨h.source, h.added, h.filing.directory, h.filing.file, h.filing.apart, h.filing.generated,
      h.filing.inPlace⟩
  | mark hf htree => exact h.modifyFile htree (fun st => (hf st).2) fun st _ _ => (hf st).1
  | @write id content tree hid htree =>
    refine h.modifyFile htree (fun _ => rfl) fun st hst hg => ?_
    exact absurd (hwritten id hid) (Nat.not_lt_of_le (h.le_of_generated hnew hst hg))
  | @enter r name hnone hname hplaced => exact ⟨h.source, h.added, h.filing.enter r name s.thrown⟩
  | find hnone hn =>
    refine ⟨h.source, fun {k n} hn' hk => (h.added hn' hk).imp_left fun hold => ?_,
      h.filing.find hnone hn⟩
    exact nomatch hnone.symm.trans hold.2
  | make hnone hfile =>
    refine ⟨h.source.trans (fun _ _ _ => .trans) (.add .refl _ _ _),
      fun {k n} hn hk => ?_, h.filing.make hnone⟩
    replace hn := Tree.node?_add.symm.trans hn
    split at hn
    · rename_i heq
      rw [← Option.some.inj hn, heq]
      exact .inl ⟨rfl, rfl⟩
    · refine (h.added hn hk).imp_left fun hold => ?_
      exact nomatch hnone.symm.trans hold.2
  | @file dir i b hdir hb hnode =>
    have hm : b.provenance = .markup := by
      cases hp : b.provenance with
      | markup => rfl
      | individual => exact absurd hnode (h.filing.inPlace b (List.mem_of_getElem? hb) hp).2
    refine ⟨h.source.trans (fun _ _ _ => .trans) (.add .refl _ _ _),
      fun {k n} hn hk => ?_, h.filing.putFile hdir hb hm hnode⟩
    replace hn := Tree.node?_add.symm.trans hn
    split at hn
    · rw [← Option.some.inj hn]
      exact .inr ⟨_, rfl, rfl⟩
    · exact h.added hn hk

/-- a step keeps the list of bundles in order, as long as there are names -/
theorem Site.Step.catalogue (hst : Step written placed s t)
    (hnames : s.options.get .randomBundleNames = true → t.bundles.length ≤ nameCount)
    (h : Catalogue (s.options.get .randomBundleNames) s.bundles) :
    Catalogue (t.options.get .randomBundleNames) t.bundles := by
  cases hst with
  | @enter r name hnone hname hplaced =>
    have hreturns : s.ReturnsTo r := by
      intro hrandom _
      have hlen := hnames hrandom
      rw [List.length_append, List.length_singleton] at hlen
      exact exists_isFree hlen
    exact h.enter hnone hreturns hname
  | @file dir i b hdir hb hnode =>
    refine h.of_keeps List.length_set fun {j c} hc => ?_
    by_cases hij : i = j
    · subst hij
      obtain rfl := Option.some.inj (hb.symm.trans hc)
      refine ⟨{ b with isVirtual := false, node := some s.tree.nodes.size }, ?_, rfl,
        fun n hn => absurd (hnode.symm.trans hn) nofun, fun _ => rfl⟩
      rw [List.getElem?_set, if_pos rfl, if_pos (List.getElem?_eq_some_iff.mp hb).1]
    · exact ⟨c, by rw [List.getElem?_set, if_neg hij, hc], .refl c⟩
  | _ => exact h

/-- bundles are only added -/
theorem Site.Step.length_le (hst : Step written placed s t) :
    s.bundles.length ≤ t.bundles.length := by
  cases hst with
  | enter hnone hname hplaced =>
    rw [List.length_append]
    exact Nat.le_add_right _ _
  | file hdir hb hnode => exact Nat.le_of_eq List.length_set.symm
  | _ => exact Nat.le_refl _

theorem Site.Steps.length_le (hst : Steps written placed s t) :
    s.bundles.length ≤ t.bundles.length :=
  hst.keeps (I := fun u => s.bundles.length ≤ u.bundles.length)
    (fun _ _ hstep hle => Nat.le_trans hle hstep.length_le) (Nat.le_refl _)

/-- what comes behind the source nodes is the bundler's, all along -/
theorem Site.Steps.built (hst : Steps written placed s t) (hnew : s₀.tree.Pristine)
    (hwritten : ∀ id, written id → id < s₀.tree.nodes.size) (h : Built s₀ s) : Built s₀ t :=
  hst.keeps (I := Built s₀) (fun _ _ hstep => hstep.built hnew hwritten) h

theorem Site.Steps.catalogue (hst : Steps written placed s t)
    (hnames : s.options.get .randomBundleNames = true → t.bundles.length ≤ nameCount)
    (h : Catalogue (s.options.get .randomBundleNames) s.bundles) :
    Catalogue (t.options.get .randomBundleNames) t.bundles := by
  have hkept := hst.keeps (I := fun u => u.options = s.options ∧
    ((s.options.get .randomBundleNames = true → u.bundles.length ≤ nameCount) →
      Catalogue (u.options.get .randomBundleNames) u.bundles))
    (fun u v huv ⟨hoptions, hu⟩ => ⟨huv.base.2.1.trans hoptions, fun hcount => ?_⟩)
    ⟨rfl, fun _ => h⟩
  · exact hkept.2 hnames
  · refine huv.catalogue (by rwa [hoptions]) (hu fun hrandom => ?_)
    exact Nat.le_trans huv.length_le (hcount hrandom)

/-! ## names of nodes that were added -/

theorem Bundle.fileName_inj {b c : Bundle} (h : b.fileName = c.fileName) :
    b.family = c.family ∧ b.name = c.name := by
  have hends : ∀ {u v : Text}, u ++ ".js".toList ≠ v ++ ".css".toList := by
    intro u v huv
    have hrev := congrArg List.reverse huv
    rw [List.reverse_append, List.reverse_append] at hrev
    exact absurd (List.cons.inj (List.cons.inj hrev).2).1 (by decide)
  unfold Bundle.fileName at h
  cases hb : b.family <;> cases hc : c.family <;> rw [hb, hc] at h
  · exact ⟨rfl, List.append_cancel_right h⟩
  · exact absurd h hends
  · exact absurd h.symm hends
  · exact ⟨rfl, List.append_cancel_right h⟩

namespace Site.Built

theorem names_directory (h : Built s₀ s) (hs : s.tree.Rooted) (hdir : s.bundleDir = some id) :
    s.tree.names id = [s.options.get .bundleDirectory] := by
  rw [Tree.names_child hs (h.filing.directory id hdir), Tree.names_root hs]
  rfl

/-- the file of a bundle is in the bundle directory, under the name of the bundle -/
theorem names_file (h : Built s₀ s) (hs : s.tree.Rooted) {b : Bundle} (hb : b ∈ s.bundles)
    (hm : b.provenance = .markup) (hnode : b.node = some k) :
    s.tree.names k = [s.options.get .bundleDirectory, b.fileName] := by
  obtain ⟨dir, st, hdir, hn, -, -⟩ := h.filing.file b hb hm k hnode
  rw [Tree.names_child hs hn, h.names_directory hs hdir]
  rfl

/-- a node that was added is the bundle directory, or the file of a bundle -/
theorem names_added (h : Built s₀ s) (hs : s.tree.Rooted) (hk : k < s.tree.nodes.size)
    (hadded : s₀.tree.nodes.size ≤ k) :
    (s.bundleDir = some k ∧ s.tree.names k = [s.options.get .bundleDirectory]) ∨
      ∃ b ∈ s.bundles, b.provenance = .markup ∧ b.node = some k ∧
        s.tree.names k = [s.options.get .bundleDirectory, b.fileName] := by
  obtain ⟨⟨name, parent, kind⟩, hn⟩ : ∃ n, s.tree.node? k = some n :=
    ⟨_, Tree.node?_eq_some_iff.mpr ⟨hk, rfl⟩⟩
  rcases h.added hn hadded with ⟨-, hdir⟩ | ⟨st, hkind, hg⟩
  · exact .inl ⟨hdir, h.names_directory hs hdir⟩
  · obtain rfl : kind = .file st := hkind
    obtain ⟨b, hb, hm, hnode⟩ :=
      h.filing.generated k st (Tree.file_eq_ok_iff.mpr ⟨name, parent, hn⟩) hg
    exact .inr ⟨b, hb, hm, hnode, h.names_file hs hb hm hnode⟩

end Site.Built

/-- nodes that were added differ in their names -/
theorem Site.From.eq_of_names (h : From s₀ s) (hs : s.tree.Rooted) {a b : NodeId}
    (ha : a < s.tree.nodes.size) (hb : b < s.tree.nodes.size) (ha' : s₀.tree.nodes.size ≤ a)
    (hb' : s₀.tree.nodes.size ≤ b) (hab : s.tree.names a = s.tree.names b) : a = b := by
  obtain ⟨hdir, hnames⟩ | ⟨x, hx, hxm, hxnode, hnames⟩ := h.names_added hs ha ha' <;>
    obtain ⟨hdir', hnames'⟩ | ⟨y, hy, hym, hynode, hnames'⟩ := h.names_added hs hb hb' <;>
    rw [hnames, hnames'] at hab
  · exact Option.some.inj (hdir.symm.trans hdir')
  · exact nomatch (List.cons.inj hab).2
  · exact nomatch (List.cons.inj hab).2
  · obtain ⟨hfamily, hname⟩ := Bundle.fileName_inj (List.cons.inj (List.cons.inj hab).2).1
    have hid := h.catalogue.named x hx y hy hxm hym hfamily hname
    have hsame : some x = some y := by
      rw [← h.catalogue.getElem?_id hx, ← h.catalogue.getElem?_id hy, hid]
    obtain rfl := Option.some.inj hsame
    exact Option.some.inj (hxnode.symm.trans hynode)

end SiteBundle
