import SiteBundle.Proofs.Bundle.Registered
import SiteBundle.Proofs.Bundle.Sound

/-!
# What documents ask of a sound site

Whatever is asked of a sound site for a document is answered, or fails with an excuse: bundles and
their files (`safely_createOrReuse`), modules with everything they import (`safely_rollUpModule`,
`safely_rollUpBody`), transformed code (`safely_prepare`) and the bookkeeping of files
(`safely_addMembership`, `safely_markNecessary`).
-/

namespace SiteBundle

open Site

variable {s t : Site} {blame : Text → Prop} {id : BundleId}

/-! ## bundles -/

theorem safely_bundleDirectory (h : s.Sound) :
    Safely blame bundleDirectory s fun dir t => t.bundleDir = some dir ∧ t.bundles = s.bundles := by
  unfold bundleDirectory
  rw [safely_get_bind]
  cases hdir : s.bundleDir with
  | some dir => exact safely_pure h ⟨hdir, rfl⟩
  | none =>
    have hkept : ∀ {d : Option NodeId} dir, s.bundleDir = some dir → d = some dir := by
      rw [hdir]
      exact nofun
    cases hfound : (s.tree.childNamed? Tree.root (s.options.get .bundleDirectory)).filter
        fun id => !s.tree.isFile id with
    | some dir =>
      have hn := Tree.folder_of_childNamed? hfound
      have hgrown : s.tree.Grown FileState.Gains s.tree := .refl .refl _
      have hsound : { s with bundleDir := some dir }.Sound :=
        h.of_grown hgrown h.rooted (fun _ hid => .inr hid) hkept (by rintro _ ⟨⟩; exact hn)
      simp only [hfound]
      exact safely_set_bind hsound ⟨rfl, rfl, hgrown, hkept⟩ (safely_pure hsound ⟨rfl, rfl⟩)
    | none =>
      have hgrown : s.tree.Grown FileState.Gains
          (s.tree.addFolder Tree.root (s.options.get .bundleDirectory)).1 :=
        .add .refl _ _ _
      have hsound : { s with
          tree := (s.tree.addFolder Tree.root (s.options.get .bundleDirectory)).1
          bundleDir := some s.tree.nodes.size }.Sound := by
        refine h.of_grown hgrown (h.rooted.add h.rooted.isFolder_root) (fun id hid => ?_) hkept ?_
        · obtain ⟨name, parent, hn⟩ := Tree.isFolder_iff.mp hid
          rw [Tree.addFolder, Tree.node?_add] at hn
          split at hn
          · rename_i hk
            exact .inl (congrArg some hk.symm)
          · exact .inr (Tree.isFolder_iff.mpr ⟨name, parent, hn⟩)
        · rintro _ ⟨⟩
          exact Tree.node?_add_self
      simp only [hfound]
      exact safely_set_bind hsound ⟨rfl, rfl, hgrown, hkept⟩ (safely_pure hsound ⟨rfl, rfl⟩)

theorem safely_materialize (h : s.Sound) {b : Bundle} (hb : s.bundles[id]? = some b) :
    Safely blame (materialize id) s fun _ t => ∃ c, t.bundles[id]? = some c ∧ c.node ≠ none := by
  unfold materialize
  refine safely_bind (safely_bundleDirectory h) fun dir t ht _ hmade => ?_
  obtain ⟨hdir, hbundles⟩ := hmade
  have hbt : t.bundles[id]? = some b := hbundles ▸ hb
  have hlt : id < t.bundles.length := (List.getElem?_eq_some_iff.mp hbt).1
  rw [safely_get_bind]
  refine safely_lift_bind ht ?_
  rw [bundle_eq_ok_iff.mpr hbt]
  have hgrown : t.tree.Grown FileState.Gains (t.tree.addFile dir b.fileName b.code).1 :=
    .add .refl _ _ _
  have htree : { t with tree := (t.tree.addFile dir b.fileName b.code).1 }.Sound := by
    refine ht.of_grown hgrown (ht.rooted.add (Tree.isFolder_iff.mpr ⟨_, _, ht.directory dir hdir⟩))
      (fun id hid => .inr ?_) (fun _ hd => hd) fun d hd => hgrown.folder (ht.directory d hd)
    obtain ⟨name, parent, hn⟩ := Tree.isFolder_iff.mp hid
    rw [Tree.addFile, Tree.node?_add] at hn
    split at hn
    · cases hn
    · exact Tree.isFolder_iff.mpr ⟨name, parent, hn⟩
  have hsound : { t with
      tree := (t.tree.addFile dir b.fileName b.code).1
      bundles := t.bundles.set id { b with isVirtual := false, node := some t.tree.nodes.size }
      }.Sound := by
    have hid : b.id = id := ht.numbered hbt
    refine htree.of_bundles (fun hc => id_of_getElem?_set ht.numbered hc hid) fun c hc n hn => ?_
    rcases exists_of_mem_set hc with rfl | ⟨j, -, hj⟩
    · rw [← Option.some.inj hn]
      exact Tree.lt_of_node? Tree.node?_add_self
    · exact htree.filed c (List.mem_of_getElem? hj) n hn
  have hself : (t.bundles.set id { b with isVirtual := false, node := some t.tree.nodes.size })[id]? =
      some { b with isVirtual := false, node := some t.tree.nodes.size } := by
    rw [List.getElem?_set, if_pos rfl, if_pos hlt]
  exact safely_set_bind hsound ⟨rfl, rfl, hgrown, fun _ hd => hd⟩
    (safely_pure hsound ⟨_, hself, Option.some_ne_none _⟩)

theorem safely_ensureReal (h : s.Sound) {b : Bundle} (hb : s.bundles[id]? = some b) :
    Safely blame (Site.ensureReal id) s fun _ t =>
      ∃ c, t.bundles[id]? = some c ∧ c.node ≠ none := by
  unfold Site.ensureReal
  rw [safely_get_bind]
  refine safely_lift_bind h ?_
  rw [bundle_eq_ok_iff.mpr hb, results_ok]
  cases hnode : b.node with
  | some node => exact safely_pure h ⟨b, hb, hnode ▸ Option.some_ne_none _⟩
  | none => exact safely_materialize h hb

theorem safely_newName (h : s.Sound) (f : Family) :
    Safely blame (newName f) s fun _ t => t.bundles = s.bundles := by
  unfold newName
  rw [safely_get_bind]
  split
  · have hsound : { s with thrown := s.thrown + 1 }.Sound := h.of_bundles h.numbered h.filed
    exact safely_set_bind hsound ⟨rfl, rfl, .refl .refl _, fun _ hd => hd⟩
      (safely_pure hsound rfl)
  · exact safely_pure h rfl

/-- a new bundle; one that is written in the place of a file is given the file -/
theorem safely_addBundle (h : s.Sound) {r : Request}
    (hr : ∀ file, r.placement = .inPlace file → file < s.tree.nodes.size) :
    Safely blame (addBundle r) s fun id t => ∃ b, t.bundles[id]? = some b := by
  unfold addBundle
  cases hp : r.placement with
  | inPlace file =>
    simp only [pure_bind]
    rw [safely_get_bind, safely_get_bind]
    have hsound : { s with bundles := s.bundles ++ [(⟨s.bundles.length, s.tree.relativePath file,
        r.family, r.code, r.sources, r.recipe, .individual, false, some file⟩ : Bundle)] }.Sound :=
      h.append rfl fun n hn => Option.some.inj hn ▸ hr file hp
    refine safely_set_bind hsound ⟨rfl, rfl, .refl .refl _, fun _ hd => hd⟩ ?_
    exact safely_pure hsound ⟨_, List.getElem?_concat_length⟩
  | inline =>
    simp only [pure_bind]
    refine safely_bind (safely_newName h r.family) fun name t ht _ _ => ?_
    rw [safely_get_bind]
    have hsound : { t with bundles := t.bundles ++ [(⟨t.bundles.length, name, r.family, r.code,
        r.sources, r.recipe, .markup, true, none⟩ : Bundle)] }.Sound := ht.append rfl nofun
    refine safely_set_bind hsound ⟨rfl, rfl, .refl .refl _, fun _ hd => hd⟩ ?_
    exact safely_pure hsound ⟨_, List.getElem?_concat_length⟩
  | bundleDirectory =>
    simp only [pure_bind]
    refine safely_bind (safely_newName h r.family) fun name t ht _ _ => ?_
    rw [safely_get_bind]
    have hsound : { t with bundles := t.bundles ++ [(⟨t.bundles.length, name, r.family, r.code,
        r.sources, r.recipe, .markup, false, none⟩ : Bundle)] }.Sound := ht.append rfl nofun
    refine safely_set_bind hsound ⟨rfl, rfl, .refl .refl _, fun _ hd => hd⟩ ?_
    exact safely_pure hsound ⟨_, List.getElem?_concat_length⟩

theorem exists_of_existing? (h : s.Sound) {r : Request} (hid : s.existing? r = some id) :
    ∃ b, s.bundles[id]? = some b := by
  unfold existing? at hid
  cases hp : r.placement <;> rw [hp] at hid <;>
    exact (exists_of_find? h.numbered hid).imp fun _ hb => hb.1

/-- the bundle for a request, with a file if the request asks for one -/
theorem safely_createOrReuse (h : s.Sound) {r : Request}
    (hr : ∀ file, r.placement = .inPlace file → file < s.tree.nodes.size) :
    Safely blame (createOrReuse r) s fun id t => ∃ b, t.bundles[id]? = some b ∧
      (r.placement = .bundleDirectory → b.node ≠ none) := by
  unfold createOrReuse
  rw [safely_get_bind]
  cases hex : s.existing? r with
  | some id =>
    obtain ⟨b, hb⟩ := exists_of_existing? h hex
    dsimp only
    split
    · rename_i hp
      refine safely_bind (safely_ensureReal h hb) fun _ t ht _ ⟨c, hc, hnode⟩ => ?_
      exact safely_pure ht ⟨c, hc, fun _ => hnode⟩
    · rename_i hp
      exact safely_pure h ⟨b, hb, fun hdir => absurd hdir hp⟩
  | none =>
    refine safely_bind (safely_addBundle h hr) fun id t ht _ ⟨b, hb⟩ => ?_
    split
    · rename_i hp
      refine safely_bind (safely_materialize ht hb) fun _ u hu _ ⟨c, hc, hnode⟩ => ?_
      exact safely_pure hu ⟨c, hc, fun _ => hnode⟩
    · rename_i hp
      exact safely_pure ht ⟨b, hb, fun hdir => absurd hdir hp⟩

theorem safely_addMembership (h : s.Sound) {sources : List NodeId}
    (hsources : ∀ id ∈ sources, s.Stands id) :
    Safely blame (Site.addMembership id sources) s fun _ t => t.bundles = s.bundles :=
  safely_forM h rfl fun source hsource _ ht hst hbundles =>
    (safely_modifyFile (f := fun st => { st with bundles := Tree.insertId id st.bundles }) ht
      (hst.stands (hsources source hsource)) fun _ h => h).mono
      fun _ _ hu => hu.1.trans hbundles

/-! ## code -/

theorem safely_prepare (h : s.Sound) (r : Recipe) (f : Family) (code : Text) :
    Safely blame (prepare r f code) s fun _ _ => True := by
  unfold prepare
  dsimp only
  refine safely_bind (safely_note h (Q := fun _ _ => True) trivial) fun _ t ht _ _ => ?_
  split
  · exact safely_pure ht trivial
  · exact safely_throw ht (.inr (.inl rfl))

theorem safely_rollUpModule (h : s.Sound)
    (hmodules : ∀ path code, readModule s.disk path = .ok code → blame code) (entry : NodeId) :
    Safely blame (rollUpModule entry) s fun g t => ∀ id ∈ g.files, t.Stands id := by
  unfold rollUpModule
  rw [safely_get_bind]
  cases hfound : s.modules.find? (·.1 == entry) with
  | some m => exact safely_pure h (h.modules m (List.mem_of_find?_eq_some hfound))
  | none =>
    dsimp only
    refine safely_bind (safely_note h (Q := fun _ t => t.disk = s.disk ∧ t.tree = s.tree)
      ⟨rfl, rfl⟩) fun _ t ht hst ⟨hdisk, htree⟩ => ?_
    refine safely_lift_bind ht (results_during.mpr ?_)
    rw [← hdisk]
    refine (results_rollUpFile t.disk _).mono (fun r hr => ?_) fun f hf => ?_
    · have hg : ∀ id ∈ (graphOf s.tree r).files, t.Stands id := htree ▸ ht.stands_graphOf hr
      have hsound : { t with modules := t.modules ++ [(entry, graphOf s.tree r)] }.Sound := by
        refine ⟨ht.rooted, ht.directory, ht.folder, fun m hm => ?_, ht.numbered, ht.filed⟩
        rcases List.mem_append.mp hm with hm | hm
        · exact ht.modules m hm
        · rw [List.mem_singleton.mp hm]
          exact hg
      refine safely_modify_bind hsound ⟨rfl, rfl, .refl .refl _, fun _ hd => hd⟩ ?_
      exact safely_pure hsound hg
    · rcases hf with hf | ⟨hout, path, code, -, hread, hf⟩
      · exact .inr (.inl hf)
      · exact .inr (.inr (.inl ⟨hout, code, hmodules path code (hdisk ▸ hread), hf⟩))

theorem safely_rollUpBody (h : s.Sound) {code : Text} (hcode : blame code)
    (hmodules : ∀ path code, readModule s.disk path = .ok code → blame code) (dir : NodeId)
    (document : Text) :
    Safely blame (rollUpBody code dir document) s fun g t => ∀ id ∈ g.files, t.Stands id := by
  unfold rollUpBody
  rw [safely_get_bind]
  dsimp only
  refine safely_bind (safely_note h (Q := fun _ t => t.disk = s.disk ∧ t.tree = s.tree)
    ⟨rfl, rfl⟩) fun _ t ht hst ⟨hdisk, htree⟩ => ?_
  refine safely_lift_bind ht (results_during.mpr ?_)
  rw [← hdisk] at hmodules ⊢
  refine (results_rollUpInline t.disk _ code).mono (fun r hr => ?_) fun f hf => ?_
  · exact safely_pure ht (htree ▸ ht.stands_graphOf hr)
  · rcases hf with hf | ⟨hout, hf⟩
    · exact .inr (.inl hf)
    · refine .inr (.inr (.inl ⟨hout, ?_⟩))
      rcases hf with hf | ⟨path, code', -, hread, hf⟩
      · exact ⟨code, hcode, hf⟩
      · exact ⟨code', hmodules path code' hread, hf⟩

/-- an attempt fails only where the work steps out of bounds -/
theorem safely_attempt {α : Type} {w : Work α} {Q : α → Site → Prop} (h : Safely blame w s Q) :
    Safely blame (attempt w) s fun a t => ∀ b, a = some b → Q b t := by
  unfold attempt
  refine ends_tryCatch.mpr (ends_map.mpr (Ends.mono h ?_ ?_))
  · rintro a t ⟨ht, hst, hq⟩
    exact ⟨ht, hst, by rintro _ ⟨⟩; exact hq⟩
  · rintro f t ⟨ht, hst, hf⟩
    dsimp only
    split
    · exact ⟨ht, hst, hf⟩
    · exact ⟨ht, hst, nofun⟩

theorem safely_noteNecessary (h : s.Sound) {file : NodeId} (hfile : s.Stands file) :
    Safely blame (changeTree fun t => t.markNecessary file) s fun _ t => t.tree.IsNecessary file :=
  (safely_modifyFile h hfile fun _ _ => rfl).mono fun _ _ ⟨_, _, _, hst⟩ => ⟨_, hst, rfl⟩

theorem safely_markNecessary (h : s.Sound)
    (hmodules : ∀ path code, readModule s.disk path = .ok code → blame code) {file : NodeId}
    (hfile : s.tree.isFile file = true) (module_ : Bool) :
    Safely blame (Site.markNecessary file module_) s fun _ t => t.tree.IsNecessary file := by
  unfold Site.markNecessary
  refine safely_bind (safely_noteNecessary h (.inl hfile)) fun _ t ht hst hfile' => ?_
  split
  · rw [← hst.disk] at hmodules
    refine safely_bind (safely_attempt (safely_rollUpModule ht hmodules file)) fun g u hu htu hg => ?_
    cases g with
    | none => exact safely_pure hu (htu.isNecessary hfile')
    | some g =>
      refine (safely_forM_each (P := fun f v => v.tree.IsNecessary f) hu
        (fun _ _ _ hk hf => hk.isNecessary hf) fun f hf v hv huv =>
          safely_noteNecessary hv (huv.stands (hg g rfl f hf))).kept.mono fun _ v ⟨huv, _⟩ => ?_
      exact huv.isNecessary (htu.isNecessary hfile')
  · exact safely_pure ht hfile'

end SiteBundle
