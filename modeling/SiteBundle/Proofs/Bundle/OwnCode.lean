import SiteBundle.Proofs.Bundle.Graphs
import SiteBundle.Proofs.Bundle.Placed

/-!
# Handled files get their own code

A file that is handled on its own gets a bundle of its own.  The sources of such a bundle end with the
file that it is in the place of, and files are handled once, so no bundle is found that was made for
another file.

* `Graph.OwnOf`    what a file is handled with: its text, or what rolling it up gives;
* `Bundle.OwnOf`   the bundle in the place of a file, made of that;
* `Tree.Took`      what is noted of all files when bundles are made in the place of some of them;
* `ends_handleFile_own`, `exists_own_of_forM`   one file, and files one after the other.
-/

namespace SiteBundle

open Site

variable {written placed : NodeId → Prop} {s₀ s t u : Site} {id k : NodeId} {handling : Handling}
  {g : Graph} {o : Options}

/-! ## what is noted of files -/

theorem Tree.file_modifyFile {tree tree' : Tree} {f : FileState → FileState} {st : FileState}
    (htree : tree.modifyFile id f = .ok tree') (hk : tree.file k = .ok st) :
    tree'.file k = .ok (if k = id then f st else st) := by
  obtain ⟨name, parent, hn⟩ := file_eq_ok_iff.mp hk
  obtain ⟨name', parent', st', hn', -, -, hnode⟩ := exists_modifyFile htree
  by_cases hkid : k = id
  · subst hkid
    obtain ⟨rfl, rfl, hkind⟩ := Node.mk.inj (Option.some.inj (hn.symm.trans hn'))
    obtain rfl := NodeKind.file.inj hkind
    rw [if_pos rfl]
    exact file_eq_ok_iff.mpr ⟨name, parent, (hnode k).trans (if_pos rfl)⟩
  · rw [if_neg hkid]
    exact file_eq_ok_iff.mpr ⟨name, parent, (hnode k).trans ((if_neg hkid).trans hn)⟩

theorem Tree.size_modifyFile {tree tree' : Tree} {f : FileState → FileState}
    (htree : tree.modifyFile id f = .ok tree') : tree'.nodes.size = tree.nodes.size := by
  obtain ⟨-, -, -, -, -, hsize, -⟩ := exists_modifyFile htree
  exact hsize

theorem Tree.mem_insertId {i j : BundleId} {l : List BundleId} :
    j ∈ insertId i l ↔ j ∈ l ∨ j = i := by
  induction l with
  | nil => simp [insertId]
  | cons a l ih =>
    rw [insertId]
    split
    · rw [List.mem_cons, or_comm]
    · split
      · rename_i hia
        subst hia
        exact ⟨.inl, fun h => h.elim (fun h => h) fun h => h ▸ List.mem_cons_self⟩
      · rw [List.mem_cons, ih, List.mem_cons, or_assoc]

/-- the bookkeeping of a file when bundles were made in the place of some files -/
structure FileState.Took (made : List Bundle) (id : NodeId) (st st' : FileState) : Prop where
  /-- a bundle in its place is its content -/
  content : ∀ b ∈ made, b.node = some id → st'.override = some b.code
  /-- other files keep theirs -/
  kept : (∀ b ∈ made, b.node ≠ some id) → st'.override = st.override
  /-- it is in the bundles of the other files that are made of it, and in none that it was not in -/
  bundles : ∀ i, i ∈ st'.bundles ↔
    i ∈ st.bundles ∨ ∃ b ∈ made, b.id = i ∧ id ∈ b.sources ∧ b.node ≠ some id

def Tree.Took (t : Tree) (made : List Bundle) (t' : Tree) : Prop :=
  ∀ id st, t.file id = .ok st → ∃ st', t'.file id = .ok st' ∧ st.Took made id st'

namespace Tree.Took
variable {t t' t'' : Tree} {b : Bundle} {made : List Bundle}

theorem refl (t : Tree) : t.Took [] t := fun _ st hst =>
  ⟨st, hst, fun _ hb => absurd hb List.not_mem_nil, fun _ => rfl, fun i => by simp⟩

theorem cons (h : t.Took [b] t') (h' : t'.Took made t'') (hapart : ∀ c ∈ made, c.node ≠ b.node) :
    t.Took (b :: made) t'' := by
  intro id st hst
  obtain ⟨st', hst', hfirst⟩ := h id st hst
  obtain ⟨st'', hst'', hrest⟩ := h' id st' hst'
  refine ⟨st'', hst'', fun c hc hnode => ?_, fun hnone => ?_, fun i => ?_⟩
  · rcases List.mem_cons.mp hc with rfl | hc
    · rw [hrest.kept fun d hd hd' => hapart d hd (hd'.trans hnode.symm)]
      exact hfirst.content c (List.mem_singleton.mpr rfl) hnode
    · exact hrest.content c hc hnode
  · obtain ⟨hb, hmade⟩ := List.forall_mem_cons.mp hnone
    rw [hrest.kept hmade, hfirst.kept (List.forall_mem_singleton.mpr hb)]
  · rw [hrest.bundles, hfirst.bundles, or_assoc]
    simp only [List.mem_cons, List.not_mem_nil, or_false, exists_eq_or_imp, exists_eq_left]

end Tree.Took

/-- a note about sources, as it is read afterwards -/
theorem ends_addMembership_joins (i : BundleId) (sources : List NodeId) (s : Site) :
    Ends (Site.addMembership i sources) s (fun _ t => t.bundles = s.bundles ∧
      t.tree.nodes.size = s.tree.nodes.size ∧ ∀ k st, s.tree.file k = .ok st →
        ∃ st', t.tree.file k = .ok st' ∧ st'.override = st.override ∧
          ∀ j, j ∈ st'.bundles ↔ j ∈ st.bundles ∨ j = i ∧ k ∈ sources) fun _ _ => True := by
  induction sources generalizing s with
  | nil => exact ⟨rfl, rfl, fun k st hst => ⟨st, hst, rfl, fun j => by simp⟩⟩
  | cons a sources ih =>
    show Ends (changeTree (fun t => t.addMembership a i) >>= fun _ => Site.addMembership i sources) s _ _
    rw [ends_bind, ends_changeTree]
    cases htree : s.tree.addMembership a i with
    | error e => trivial
    | ok tree =>
      refine (ih { s with tree }).mono (fun _ t ⟨hbundles, hsize, hfiles⟩ => ?_) fun _ _ he => he
      refine ⟨hbundles, hsize.trans (Tree.size_modifyFile htree), fun k st hst => ?_⟩
      obtain ⟨st', hst', hcontent, hjoined⟩ := hfiles k _ (Tree.file_modifyFile htree hst)
      refine ⟨st', hst', ?_, fun j => ?_⟩
      · rw [hcontent]
        split <;> rfl
      · rw [hjoined, List.mem_cons]
        split
        · rename_i hka
          rw [Tree.mem_insertId, or_assoc]
          refine or_congr_right ⟨fun h => ?_, fun h => .inl h.1⟩
          exact ⟨h.elim (fun h => h) And.left, .inl hka⟩
        · rename_i hka
          simp [hka]

/-- the last part of handling a file: the bundle in its place is noted, and is its content -/
theorem ends_replaceFile_took {b : Bundle} (hb : s.bundles[b.id]? = some b)
    (hnode : b.node = some id) :
    Ends (do
      Site.addMembership b.id (b.sources.filter (· != id))
      let c ← lift ((← get).bundle b.id)
      changeTree fun t => t.setContent id c.code : Work Unit) s
      (fun _ t => t.bundles = s.bundles ∧ t.tree.nodes.size = s.tree.nodes.size ∧
        s.tree.Took [b] t.tree) fun _ _ => True := by
  rw [ends_bind]
  refine (ends_addMembership_joins b.id _ s).mono (fun _ t ⟨hbundles, hsize, hfiles⟩ => ?_)
    fun _ _ he => he
  rw [ends_bind, ends_get, ends_bind, ends_lift, bundle_eq_ok_iff.mpr (hbundles ▸ hb)]
  dsimp only
  rw [ends_changeTree]
  cases htree : t.tree.setContent id b.code with
  | error e => trivial
  | ok tree =>
    refine ⟨hbundles, (Tree.size_modifyFile htree).trans hsize, fun k st hst => ?_⟩
    obtain ⟨st', hst', hcontent, hjoined⟩ := hfiles k st hst
    refine ⟨_, Tree.file_modifyFile htree hst', fun c hc hck => ?_, fun hnone => ?_, fun j => ?_⟩
    · rw [List.mem_singleton.mp hc] at hck ⊢
      rw [if_pos (Option.some.inj (hck.symm.trans hnode))]
    · have hk : k ≠ id := fun hk => hnone b (List.mem_singleton.mpr rfl) (hk ▸ hnode)
      rw [if_neg hk]
      exact hcontent
    · have hsame : (if k = id then { st' with override := some b.code } else st').bundles =
          st'.bundles := by
        split <;> rfl
      have hother : b.node ≠ some k ↔ k ≠ id := by
        rw [hnode]
        exact ⟨fun h heq => h (congrArg some heq.symm), fun h heq => h (Option.some.inj heq).symm⟩
      rw [hsame, hjoined, List.mem_filter, bne_iff_ne]
      simp only [List.mem_singleton, exists_eq_left, hother, eq_comm (a := j)]

/-! ## own code -/

/-- what a file is handled with: its text, or for a module what rolling it up gives -/
def Graph.OwnOf (s : Site) (id : NodeId) (g : Graph) : Handling → Prop
  | .module => ∃ r, rollUpFile s.disk (s.tree.place id) = .ok r ∧ g.Of s id r
  | _ => s.tree.readText s.disk id = .ok g.code ∧ g.files = [id]

/-- the bundle in the place of a file, made of what the file is handled with -/
structure Bundle.OwnOf (s : Site) (id : NodeId) (handling : Handling) (o : Options) (b : Bundle) :
    Prop where
  node : b.node = some id
  provenance : b.provenance = .individual
  family : b.family = handling.family
  recipe : b.recipe = o.recipe handling.family false
  code : ∃ g : Graph, g.OwnOf s id handling ∧ b.sources = g.files ∧
    b.recipe.prepare b.family g.code = .ok b.code

theorem Graph.OwnOf.last (h : g.OwnOf s id handling) (hid : s.tree.IsSource id) :
    g.files.getLast? = some id := by
  cases handling with
  | module =>
    obtain ⟨r, -, hg⟩ := h
    exact hg.last hid
  | script => rw [h.2, List.getLast?_singleton]
  | style => rw [h.2, List.getLast?_singleton]

theorem Bundle.OwnOf.last {b : Bundle} (h : b.OwnOf s id handling o) (hid : s.tree.IsSource id) :
    b.sources.getLast? = some id := by
  obtain ⟨g, hg, hsources, -⟩ := h.code
  rw [hsources]
  exact hg.last hid

/-- a source file keeps its text -/
theorem readText_of_isSource (hst : Steps written placed s t) (hid : s.tree.IsSource id) :
    t.tree.readText t.disk id = s.tree.readText s.disk id := by
  obtain ⟨st', hst', hsource'⟩ := hst.sourced.isSource_iff.mpr hid
  have hplace := hst.kept.place hid.lt
  obtain ⟨st, hst₀, hsource⟩ := hid
  unfold Tree.readText
  rw [hst₀, hst', hst.kept.disk, hplace]
  show (if st'.generated then _ else _) = if st.generated then _ else _
  rw [hsource, hsource']
  rfl

/-- what a file is handled with later on is its own from the beginning -/
theorem Graph.OwnOf.earlier (h : g.OwnOf t id handling) (hst : Steps written placed s t)
    (hsize : t.tree.nodes.size = s.tree.nodes.size) (hid : s.tree.IsSource id) :
    g.OwnOf s id handling := by
  cases handling with
  | module =>
    obtain ⟨r, hr, hg⟩ := h
    rw [hst.kept.disk, hst.kept.place hid.lt] at hr
    exact ⟨r, hr, hg.earlier hst hsize⟩
  | script => exact ⟨readText_of_isSource hst hid ▸ h.1, h.2⟩
  | style => exact ⟨readText_of_isSource hst hid ▸ h.1, h.2⟩

theorem Bundle.OwnOf.earlier {b : Bundle} (h : b.OwnOf t id handling o)
    (hst : Steps written placed s t) (hsize : t.tree.nodes.size = s.tree.nodes.size)
    (hid : s.tree.IsSource id) : b.OwnOf s id handling o := by
  obtain ⟨g, hg, hmade⟩ := h.code
  exact ⟨h.node, h.provenance, h.family, h.recipe, g, hg.earlier hst hsize hid, hmade⟩

/-! ## one file -/

/-- no bundle in the place of a file has sources that end with this one -/
def Site.Fresh (s : Site) (id : NodeId) : Prop :=
  ∀ b ∈ s.bundles, b.provenance = .individual → b.sources.getLast? ≠ some id

theorem Site.Fresh.findIndividual? (h : s.Fresh id) {f : Family} {sources : List NodeId}
    {recipe : Recipe} (hlast : sources.getLast? = some id) :
    s.findIndividual? f sources recipe = none := by
  refine Option.map_eq_none_iff.mpr (List.find?_eq_none.mpr fun b hb hfound => ?_)
  simp only [Bool.and_eq_true, beq_iff_eq] at hfound
  obtain ⟨⟨⟨hprovenance, -⟩, hsources⟩, -⟩ := hfound
  exact h b hb hprovenance (hsources ▸ hlast)

/-- code that can be prepared, with tree and bundles as they were -/
theorem ends_prepare_code (r : Recipe) (f : Family) (code : Text) (s : Site) :
    Ends (Site.prepare r f code) s (fun new t => t.tree = s.tree ∧ t.bundles = s.bundles ∧
      r.prepare f code = .ok new) fun _ _ => True := by
  unfold Site.prepare Recipe.prepare
  cases runTransforms (r.transforms f) code with
  | mk begun result =>
    rw [ends_bind, ends_note]
    cases result with
    | ok new => exact ⟨rfl, rfl, rfl⟩
    | error fault => trivial

section
variable {disk : Disk} {dice : Nat → Nat} {options : Options}
variable (hdisk : disk.Proper) (hstart : ofDisk options disk dice = .ok s₀)
include hdisk hstart

theorem ends_handledCode_own (hst : Steps written placed s₀ s) (hid : s.tree.IsSource id)
    (handling : Handling) : Ends (handledCode id handling) s (fun g t => t.tree = s.tree ∧
      t.bundles = s.bundles ∧ g.OwnOf s id handling) fun _ _ => True := by
  have hown : Ends (do
      let s ← get
      return ⟨← lift (s.tree.readText s.disk id), [id]⟩ : Work Graph) s
      (fun g t => t.tree = s.tree ∧ t.bundles = s.bundles ∧
        s.tree.readText s.disk id = .ok g.code ∧ g.files = [id]) fun _ _ => True := by
    rw [ends_bind, ends_get, ends_bind, ends_lift]
    cases hread : s.tree.readText s.disk id with
    | error f => trivial
    | ok code => exact ⟨rfl, rfl, rfl, rfl⟩
  cases handling with
  | module => exact ends_rollUpModule_graph hdisk hstart ((hst.isSource_iff hstart).mp hid) hst id
  | script => exact hown
  | style => exact hown

/-- a file that is handled gets a bundle of its own -/
theorem ends_handleFile_own (hst : Steps written placed s₀ s) (hid : s.tree.IsSource id)
    (hfresh : s.Fresh id) (handling : Handling) (o : Options) :
    Ends (handleFile id handling o) s (fun _ t => ∃ b : Bundle, b.OwnOf s id handling o ∧
      t.bundles = s.bundles ++ [b] ∧ t.tree.nodes.size = s.tree.nodes.size ∧
      s.tree.Took [b] t.tree) fun _ _ => True := by
  unfold handleFile
  dsimp only
  rw [ends_bind]
  refine (ends_handledCode_own hdisk hstart hst hid handling).mono
    (fun g t ⟨htree, hbundles, hown⟩ => ?_) fun _ _ he => he
  have hlast := hown.last hid
  have hfresh' : ∀ {u : Site}, u.bundles = s.bundles → u.Fresh id := fun hu b hb =>
    hfresh b (hu ▸ hb)
  rw [ends_bind, ends_get, (hfresh' hbundles).findIndividual? hlast]
  dsimp only
  rw [ends_bind]
  refine (ends_prepare_code _ _ _ t).mono (fun code u ⟨htu, hbundles', hcode⟩ => ?_) fun _ _ he => he
  rw [ends_bind]
  refine (ends_createOrReuse_inPlace rfl u).mono (fun i v hv => ?_) fun _ _ he => he.elim
  rcases hv with ⟨hfound, -⟩ | ⟨rfl, name, thrown, rfl⟩
  · replace hfound : u.findIndividual? handling.family g.files (o.recipe handling.family false) =
      some i := hfound
    rw [(hfresh' (hbundles'.trans hbundles)).findIndividual? hlast] at hfound
    exact nomatch hfound
  · let b : Bundle := ⟨u.bundles.length, name, handling.family, code, g.files,
      o.recipe handling.family false, .individual, false, some id⟩
    refine (ends_replaceFile_took (b := b) List.getElem?_concat_length rfl).mono
      (fun _ w ⟨hw, hsize, htook⟩ => ⟨b, ⟨rfl, rfl, rfl, rfl, g, hown, rfl, hcode⟩, ?_, ?_, ?_⟩)
      fun _ _ he => he
    · rw [hw, ← hbundles, ← hbundles']
      rfl
    · rw [hsize, ← htree, ← htu]
    · rw [← htree, ← htu]
      exact htook

/-! ## all files -/

omit hdisk hstart in
theorem exists_of_mem_forall₂ {α β : Type} {R : α → β → Prop} {l : List α} {m : List β} {b : β}
    (h : List.Forall₂ R l m) (hb : b ∈ m) : ∃ a ∈ l, R a b := by
  induction h with
  | nil => exact absurd hb List.not_mem_nil
  | cons hab _ ih =>
    rcases List.mem_cons.mp hb with rfl | hb
    · exact ⟨_, List.mem_cons_self, hab⟩
    · obtain ⟨a, ha, hab⟩ := ih hb
      exact ⟨a, List.mem_cons_of_mem _ ha, hab⟩

/-- files that are handled one after the other get bundles of their own, one behind the other -/
theorem exists_own_of_forM (activity : NodeId → String) (opts : NodeId → Options)
    {files : List (NodeId × Handling)} (honce : (files.map (·.1)).Nodup)
    (hst : Steps anyNode anyNode s₀ s)
    (hsource : ∀ x ∈ files, s.tree.IsSource x.1) (hfresh : ∀ x ∈ files, s.Fresh x.1)
    (hw : Yields (files.forM fun x => inActivity (activity x.1) (handleFile x.1 x.2 (opts x.1)))
      s ⟨⟩ t) :
    ∃ made, t.bundles = s.bundles ++ made ∧
      List.Forall₂ (fun x (b : Bundle) => b.OwnOf s x.1 x.2 (opts x.1)) files made ∧
      s.tree.Took made t.tree := by
  induction files generalizing s with
  | nil =>
    obtain ⟨-, rfl⟩ := yields_pure.mp hw
    exact ⟨[], (List.append_nil _).symm, .nil, .refl _⟩
  | cons x files ih =>
    obtain ⟨_, u, hx, hw⟩ := yields_bind.mp hw
    replace hx := yields_inActivity.mp hx
    rw [List.map_cons, List.nodup_cons] at honce
    obtain ⟨hxsource, hsource⟩ := List.forall_mem_cons.mp hsource
    obtain ⟨hxfresh, hfresh⟩ := List.forall_mem_cons.mp hfresh
    obtain ⟨b, hown, hbundles, hsize, htook⟩ :=
      (ends_handleFile_own hdisk hstart hst hxsource hxfresh x.2 _).of_yields hx
    have hsu : Steps anyNode anyNode s u := by
      refine Stepwise.of_yields ((stepwise_handleFile x.2 _).mono ?_ ?_) hx
      · exact fun _ _ => trivial
      · exact fun _ _ => trivial
    have hother : ∀ y ∈ files, y.1 ≠ x.1 := fun y hy heq =>
      honce.1 (heq ▸ List.mem_map_of_mem hy)
    have hfresh' : ∀ y ∈ files, u.Fresh y.1 := by
      intro y hy c hc hprovenance
      rw [hbundles] at hc
      rcases List.mem_append.mp hc with hc | hc
      · exact hfresh y hy c hc hprovenance
      · rw [List.mem_singleton.mp hc, hown.last hxsource]
        exact fun heq => hother y hy (Option.some.inj heq).symm
    obtain ⟨made, hmade, hpairs, hrest⟩ := ih honce.2 (hst.trans hsu)
      (fun y hy => hsu.sourced.isSource_iff.mpr (hsource y hy)) hfresh' hw
    refine ⟨b :: made, ?_, .cons hown ?_, htook.cons hrest ?_⟩
    · rw [hmade, hbundles, List.append_assoc, List.singleton_append]
    · exact ((List.forall₂_and_left files made).mpr ⟨hsource, hpairs⟩).imp
        fun y c ⟨hy, hc⟩ => hc.earlier hsu hsize hy
    · intro c hc
      obtain ⟨y, hy, hyc⟩ := exists_of_mem_forall₂ hpairs hc
      rw [hyc.node, hown.node]
      exact fun heq => hother y hy (Option.some.inj heq)

end

section
variable {disk : Disk} {dice : Nat → Nat} {options : Options} {ignore : PathFilter} {n : Nat}

theorem Site.Reached.exists_ofDisk (h : Reached options disk dice s) :
    ∃ s₀, ofDisk options disk dice = .ok s₀ := by
  induction h with
  | start h => exact ⟨_, h⟩
  | step _ _ _ ih => exact ih

/-- documents make no bundles in the place of files -/
theorem Site.Reached.inPlace (h : Reached options disk dice s) : s.InPlace [] := by
  induction h with
  | start h =>
    obtain ⟨tree, -, rfl⟩ := ofDisk_eq_ok h
    exact fun _ hb => absurd hb List.not_mem_nil
  | step overrides _ _ ih =>
    exact ((stepwise_processMarkup _ overrides).steps _).inPlace nofun (fun _ => not_false) ih

theorem Site.numbered_ofDisk (h : ofDisk options disk dice = .ok s) : s.Numbered := by
  obtain ⟨tree, -, rfl⟩ := ofDisk_eq_ok h
  exact fun hb => absurd (List.mem_of_getElem? hb) List.not_mem_nil

/-- **Every handled file gets its own code.**  One bundle is made for each of them, in the place of the
file and of what the file is handled with, under the options for its path; its code is the content of
this file alone, and of the files that it is made of, the others are noted as in it. -/
theorem processHandled_own (hdisk : disk.Proper) (hs : Reached options disk dice s)
    (hw : Yields (processHandled ignore) s n t) :
    ∃ rules made, HandlingRules.read s.options = .ok rules ∧
      n = (s.handledFiles rules ignore).length ∧
      t.bundles = s.bundles ++ made ∧
      (∀ b ∈ made, s.bundles.length ≤ b.id ∧ t.bundles[b.id]? = some b) ∧
      List.Forall₂ (fun x (b : Bundle) => b.OwnOf s x.1 x.2
        (rules.overrides.resolve s.options (s.tree.relativePath x.1)))
        (s.handledFiles rules ignore) made ∧
      s.tree.Took made t.tree := by
  obtain ⟨s₀, hstart⟩ := hs.exists_ofDisk
  have hst := hs.steps hstart
  have hst' : Steps anyNode anyNode s t :=
    (steps_processHandled hw).mono (fun _ _ => trivial) fun _ _ => trivial
  have hfresh : ∀ id, s.Fresh id := by
    intro id b hb hprovenance
    obtain ⟨k, hk, -⟩ := hs.inPlace b hb hprovenance
    exact absurd hk List.not_mem_nil
  obtain ⟨rules, hrules, hloop, rfl⟩ := yields_processHandled.mp hw
  obtain ⟨made, hbundles, hown, htook⟩ := exists_own_of_forM hdisk hstart
    (fun id => "failed to process " ++ shown (s.tree.relativePath id))
    (fun id => rules.overrides.resolve s.options (s.tree.relativePath id))
    (nodup_handledFiles (hst.planted_ofDisk hdisk hstart).rooted rules ignore) hst
    (fun _ => not_generated_of_handled) (fun x _ => hfresh x.1) hloop
  refine ⟨rules, made, hrules, rfl, hbundles, fun b hb => ?_, hown, htook⟩
  obtain ⟨j, hj⟩ := List.mem_iff_getElem?.mp hb
  have hplace : t.bundles[s.bundles.length + j]? = some b := by
    rw [hbundles, List.getElem?_append_right (Nat.le_add_right _ _), Nat.add_sub_cancel_left]
    exact hj
  rw [(hst.trans hst').numbered (numbered_ofDisk hstart) hplace]
  exact ⟨Nat.le_add_right _ _, hplace⟩

end

/-! ## a module, a script that it imports, and a stylesheet -/

namespace EachHandled

def disk : Disk where
  entries := [(["src".toList], .folder),
    (["src".toList, "main.js".toList], .file (Utf8.bytes
      "import \x7b one \x7d from './one.js';\nf(one);".toList)),
    (["src".toList, "one.js".toList], .file (Utf8.bytes "export const one = 1;".toList)),
    (["src".toList, "site.css".toList], .file (Utf8.bytes "a \x7b color: red; \x7d".toList))]
  cwd := []

/-- one script is handled as a module, the other one as a script -/
def options : Options := Options.defaults.overlay
  (((Layer.empty.setField .handledModuleFiles (.matching ["main.js".toList])).setField
    .handledScriptFiles .everything).setField .handledCssFiles .everything)

def tree : Tree where
  top := ["src".toList]
  nodes := #[⟨[], none, .folder⟩, ⟨"main.js".toList, some 0, .file ⟨none, false, [], false⟩⟩,
    ⟨"one.js".toList, some 0, .file ⟨none, false, [], false⟩⟩,
    ⟨"site.css".toList, some 0, .file ⟨none, false, [], false⟩⟩]

def site : Site := .ofTree options disk tree fun _ => 0

theorem proper_disk : disk.Proper where
  sound := ⟨by decide, by decide⟩
  names := by
    unfold IsEntryName
    decide
  cwd := nofun

theorem ofDisk_disk : Site.ofDisk options disk (fun _ => 0) = .ok site := by
  have htop : disk.locate "src".toList = .ok ["src".toList] := by decide +kernel
  have hsorted : (disk.inside ["src".toList]).Pairwise fun a b => !Place.lt b.1 a.1 := by
    decide +kernel
  exact ofDisk_of_pairwise htop hsorted rfl rfl

/-- what evaluation says: the module is not in its own bundle, and the script that it imports is -/
theorem exists_handled : ∃ t, Yields (processHandled .nothing) site 3 t ∧
    t.bundles.map (fun b => (b.node, b.sources)) =
      [(some 1, [2, 1]), (some 2, [2]), (some 3, [3])] ∧
    [1, 2, 3].map (fun id => (t.tree.file id).toOption.map (·.bundles)) =
      [some [], some [0], some []] := by
  have hevaluated : (processHandled .nothing site).1.toOption = some 3 ∧
      (processHandled .nothing site).2.bundles.map (fun b => (b.node, b.sources)) =
        [(some 1, [2, 1]), (some 2, [2]), (some 3, [3])] ∧
      [1, 2, 3].map (fun id =>
          ((processHandled .nothing site).2.tree.file id).toOption.map (·.bundles)) =
        [some [], some [0], some []] := by
    -- lists of characters are evaluated faster than literals
    unfold site disk
    repeat rw [String.toList_ofList]
    decide +kernel
  exact ⟨_, yields_of_toOption hevaluated.1, hevaluated.2⟩

end EachHandled

open EachHandled in
theorem processHandled_own_eachHandled : disk.Proper ∧
    Site.Reached options disk (fun _ => 0) site ∧
    ∃ t, Yields (processHandled .nothing) site 3 t ∧
      ∃ rules made, HandlingRules.read options = .ok rules ∧ t.bundles = made ∧
        made.map (fun b => (b.node, b.sources)) =
          [(some 1, [2, 1]), (some 2, [2]), (some 3, [3])] ∧
        List.Forall₂ (fun x (b : Bundle) => b.OwnOf site x.1 x.2
          (rules.overrides.resolve options (site.tree.relativePath x.1)))
          (site.handledFiles rules .nothing) made ∧
        site.tree.Took made t.tree ∧
        [1, 2, 3].map (fun id => (t.tree.file id).toOption.map (·.bundles)) =
          [some [], some [0], some []] := by
  obtain ⟨t, hyields, hbundles, hnoted⟩ := exists_handled
  have hreached : Site.Reached options disk (fun _ => 0) site := .start ofDisk_disk
  obtain ⟨rules, made, hrules, -, hmade, -, hown, htook⟩ :=
    processHandled_own proper_disk hreached hyields
  refine ⟨proper_disk, hreached, t, hyields, rules, made, hrules, hmade, ?_, hown, htook, hnoted⟩
  rw [← hbundles, hmade]
  rfl

end SiteBundle
