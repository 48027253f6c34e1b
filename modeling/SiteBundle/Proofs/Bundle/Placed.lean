import SiteBundle.Proofs.Bundle.Handled
import SiteBundle.Proofs.Bundle.Origin
import SiteBundle.Proofs.Tree.Descendants

/-!
# Bundles in the place of files

A bundle that is made in the place of a file has that file for its node.  When all files have been
handled, each such bundle is what its file gets for its content (`inPlace_processHandled`): a file is
handled once, and is given the code of its bundle then.

* `Tree.Holds`      the new content of a file;
* `Site.InPlace`    the bundles in the place of some files, each with its file.
-/

namespace SiteBundle

open Site

/-- the file gets this content -/
def Tree.Holds (t : Tree) (id : NodeId) (content : Text) : Prop :=
  ∃ st, t.file id = .ok st ∧ st.override = some content

namespace Tree.Holds
variable {t t' : Tree} {id k : NodeId} {content : Text}

theorem modifyFile (h : t.Holds k content) {f : FileState → FileState}
    (htree : t.modifyFile id f = .ok t') (hsame : k = id → ∀ st, (f st).override = st.override) :
    t'.Holds k content := by
  obtain ⟨st, hst, hcontent⟩ := h
  obtain ⟨name, parent, hk⟩ := file_eq_ok_iff.mp hst
  obtain ⟨name', parent', st', hn, -, -, hnode⟩ := exists_modifyFile htree
  by_cases hkid : k = id
  · subst hkid
    obtain ⟨rfl, rfl, hkind⟩ := Node.mk.inj (Option.some.inj (hk.symm.trans hn))
    obtain rfl := NodeKind.file.inj hkind
    refine ⟨f st, file_eq_ok_iff.mpr ⟨name, parent, (hnode k).trans (if_pos rfl)⟩, ?_⟩
    exact (hsame rfl st).trans hcontent
  · exact ⟨st, file_eq_ok_iff.mpr ⟨name, parent, (hnode k).trans (if_neg hkid |>.trans hk)⟩, hcontent⟩

theorem add (h : t.Holds k content) {parent : NodeId} {name : Text} {kind : NodeKind} :
    (t.add parent name kind).1.Holds k content := by
  obtain ⟨st, hst, hcontent⟩ := h
  obtain ⟨name', parent', hk⟩ := file_eq_ok_iff.mp hst
  exact ⟨st, file_eq_ok_iff.mpr ⟨name', parent', node?_add_of_some hk⟩, hcontent⟩

theorem setContent (htree : t.setContent id content = .ok t') : t'.Holds id content := by
  obtain ⟨st, -, hst⟩ := file_of_modifyFile htree
  exact ⟨_, hst, rfl⟩

end Tree.Holds

/-- a bundle that was made in the place of a file has one of these files, which gets its code -/
def Site.InPlace (done : List NodeId) (s : Site) : Prop :=
  ∀ b ∈ s.bundles, b.provenance = .individual →
    ∃ id ∈ done, b.node = some id ∧ s.tree.Holds id b.code

variable {written placed : NodeId → Prop} {s t : Site} {id : NodeId} {done : List NodeId}

theorem Site.InPlace.mono {done' : List NodeId} (h : s.InPlace done) (hsub : done ⊆ done') :
    s.InPlace done' := fun b hb hi => by
  obtain ⟨id, hid, hnode⟩ := h b hb hi
  exact ⟨id, hsub hid, hnode⟩

/-- a step that neither places bundles nor writes to their files -/
theorem Site.Step.inPlace (hst : Step written placed s t) (hwritten : ∀ id ∈ done, ¬ written id)
    (hplaced : ∀ id, ¬ placed id) (h : s.InPlace done) : t.InPlace done := by
  have htree : ∀ {tree : Tree}, (∀ k ∈ done, ∀ c, s.tree.Holds k c → tree.Holds k c) →
      InPlace done { s with tree } := by
    intro tree hkept b hb hi
    obtain ⟨k, hk, hnode, hholds⟩ := h b hb hi
    exact ⟨k, hk, hnode, hkept k hk _ hholds⟩
  cases hst with
  | note events => exact h
  | keep entry hr => exact h
  | draw thrown => exact h
  | mark hf hmark => exact htree fun k _ c hholds => hholds.modifyFile hmark fun _ st => (hf st).1
  | @write id content tree hid hset =>
    refine htree fun k hk c hholds => hholds.modifyFile hset fun heq => ?_
    exact absurd (heq ▸ hid) (hwritten k hk)
  | @enter r name hnone hname hfile =>
    intro b hb hi
    rcases List.mem_append.mp hb with hb | hb
    · exact h b hb hi
    · rw [List.mem_singleton.mp hb, Request.entry] at hi
      cases hp : r.placement with
      | inPlace file => exact absurd (hfile file hp) (hplaced file)
      | inline =>
        rw [hp] at hi
        cases hi
      | bundleDirectory =>
        rw [hp] at hi
        cases hi
  | find hnone hn => exact h
  | make hnone hfile => exact htree fun k _ c hholds => hholds.add
  | @file dir i b hdir hb hnode =>
    intro c hc hi
    rcases exists_of_mem_set hc with rfl | ⟨j, -, hj⟩
    · -- the bundle had no file, so it was made for the markup
      obtain ⟨k, -, hk, -⟩ := h b (List.mem_of_getElem? hb) hi
      cases hnode.symm.trans hk
    · obtain ⟨k, hk, hkc, hholds⟩ := h c (List.mem_of_getElem? hj) hi
      exact ⟨k, hk, hkc, hholds.add⟩

theorem Site.Steps.inPlace (hst : Steps written placed s t) (hwritten : ∀ id ∈ done, ¬ written id)
    (hplaced : ∀ id, ¬ placed id) (h : s.InPlace done) : t.InPlace done :=
  hst.keeps (fun _ _ hstep => hstep.inPlace hwritten hplaced) h

/-! ## one file -/

/-- a request in the place of a file is answered by an equal bundle, or a new one is added -/
theorem ends_createOrReuse_inPlace {r : Request} (hr : r.placement = .inPlace id) (s : Site) :
    Ends (createOrReuse r) s (fun i t => s.existing? r = some i ∧ t = s ∨
      i = s.bundles.length ∧ ∃ name thrown,
        t = { s with bundles := s.bundles ++ [r.entry i name], thrown }) fun _ _ => False := by
  unfold createOrReuse
  rw [ends_bind, ends_get]
  cases hex : s.existing? r with
  | some i =>
    dsimp only
    rw [if_neg (by rw [hr]; exact nofun), ends_pure]
    exact .inl ⟨rfl, rfl⟩
  | none =>
    simp only [ends_bind]
    refine (ends_addBundle r s).mono (fun i t ht => ?_) fun _ _ he => he
    rw [if_neg (by rw [hr]; exact nofun), ends_pure]
    obtain ⟨hi, name, -, hsite⟩ := ht
    exact .inr ⟨hi, name, hsite⟩

/-- a note about sources leaves bundles and contents as they are -/
theorem ends_addMembership_holds (i : BundleId) (sources : List NodeId) (s : Site) :
    Ends (Site.addMembership i sources) s
      (fun _ t => t.bundles = s.bundles ∧ ∀ k c, s.tree.Holds k c → t.tree.Holds k c)
      fun _ _ => True := by
  refine ends_forM (I := fun t => t.bundles = s.bundles ∧ ∀ k c, s.tree.Holds k c → t.tree.Holds k c)
    ⟨rfl, fun _ _ h => h⟩ fun source _ t ⟨hbundles, hkept⟩ => ?_
  rw [ends_changeTree]
  cases htree : t.tree.addMembership source i with
  | error e => trivial
  | ok tree => exact ⟨hbundles, fun k c h => (hkept k c h).modifyFile htree fun _ _ => rfl⟩

/-- the last part of handling a file: it is given the code of a bundle, which is either in another
file, or was made in the place of this one -/
theorem ends_replaceFile_inPlace {i : BundleId} {sources : List NodeId} (hid : id ∉ done)
    (h : ∀ b ∈ s.bundles, b.provenance = .individual →
      (∃ k ∈ done, b.node = some k ∧ s.tree.Holds k b.code) ∨
        s.bundles[i]? = some b ∧ b.node = some id) :
    Ends (do
      Site.addMembership i sources
      let b ← lift ((← get).bundle i)
      changeTree fun t => t.setContent id b.code : Work Unit) s (fun _ t => t.InPlace (id :: done))
      fun _ _ => True := by
  rw [ends_bind]
  refine (ends_addMembership_holds i sources s).mono (fun _ t ⟨hbundles, hkept⟩ => ?_) fun _ _ he => he
  rw [ends_bind, ends_get, ends_bind, ends_lift]
  cases hbundle : t.bundle i with
  | error f => trivial
  | ok b =>
    have hb : s.bundles[i]? = some b := hbundles ▸ bundle_eq_ok_iff.mp hbundle
    dsimp only
    rw [ends_changeTree]
    cases htree : t.tree.setContent id b.code with
    | error e => trivial
    | ok tree =>
      intro c hc hi
      replace hc : c ∈ s.bundles := hbundles ▸ hc
      rcases h c hc hi with ⟨k, hk, hnode, hholds⟩ | ⟨hci, hnode⟩
      · refine ⟨k, List.mem_cons_of_mem id hk, hnode, ?_⟩
        exact (hkept k _ hholds).modifyFile htree fun heq => absurd (heq ▸ hk) hid
      · obtain rfl := Option.some.inj (hb.symm.trans hci)
        exact ⟨id, List.mem_cons_self, hnode, .setContent htree⟩

theorem ends_handleFile_inPlace (h : s.InPlace done) (hid : id ∉ done) (handling : Handling)
    (o : Options) :
    Ends (handleFile id handling o) s (fun _ t => t.InPlace (id :: done)) fun _ _ => True := by
  have hkept : ∀ {α : Type} {w : Work α} {u : Site}, Stepwise (fun _ => False) (fun _ => False) w →
      u.InPlace done → Ends w u (fun _ v => v.InPlace done) fun _ _ => True := fun hw hu =>
    (hw _).mono (fun _ _ hv => hv.inPlace (fun _ _ => not_false) (fun _ => not_false) hu)
      fun _ _ _ => trivial
  unfold handleFile
  dsimp only
  rw [ends_bind]
  refine (hkept (stepwise_handledCode handling) h).mono (fun g t ht => ?_) fun _ _ he => he
  rw [ends_bind, ends_get]
  split
  · exact ends_replaceFile_inPlace hid fun b hb hi => .inl (ht b hb hi)
  · rw [ends_bind]
    refine (hkept (stepwise_prepare _ _ _) ht).mono (fun code u hu => ?_) fun _ _ he => he
    rw [ends_bind]
    refine (ends_createOrReuse_inPlace rfl u).mono (fun i v hv => ?_) fun _ _ he => he.elim
    refine ends_replaceFile_inPlace hid fun b hb hi => ?_
    rcases hv with ⟨-, rfl⟩ | ⟨rfl, name, thrown, rfl⟩
    · exact .inl (hu b hb hi)
    · rcases List.mem_append.mp hb with hb | hb
      · exact .inl (hu b hb hi)
      · rw [List.mem_singleton.mp hb]
        exact .inr ⟨List.getElem?_concat_length, rfl⟩

/-! ## all files -/

/-- files of the bundler are not handled -/
theorem not_generated_of_handled {rules : HandlingRules} {ignore : PathFilter}
    {x : NodeId × Handling} (h : x ∈ s.handledFiles rules ignore) :
    ∃ st, s.tree.file x.1 = .ok st ∧ st.generated = false := by
  obtain ⟨id, -, hx⟩ := List.mem_filterMap.mp h
  obtain ⟨handling, hhandling, rfl⟩ := Option.map_eq_some_iff.mp hx
  unfold handlingOf? at hhandling
  dsimp only at hhandling
  split at hhandling
  · exact nomatch hhandling
  · rename_i st hst
    split at hhandling
    · exact nomatch hhandling
    · rename_i hneither
      rw [Bool.not_eq_true] at hneither
      exact ⟨st, hst, (Bool.or_eq_false_iff.mp hneither).1⟩

theorem steps_processHandled {ignore : PathFilter} {n : Nat}
    (hw : Yields (processHandled ignore) s n t) :
    Steps (fun id => ∃ st, s.tree.file id = .ok st ∧ st.generated = false) (fun _ => True) s t := by
  obtain ⟨rules, -, hloop, -⟩ := yields_processHandled.mp hw
  refine (stepwise_forM fun x hx => stepwise_inActivity ?_ _).of_yields hloop
  refine (stepwise_handleFile x.2 _).mono (fun k hk => ?_) fun _ _ => trivial
  rw [hk]
  exact not_generated_of_handled hx

/-- files that are handled one after the other, each of them once -/
theorem inPlace_forM {handle : NodeId × Handling → Work Unit} {files : List (NodeId × Handling)}
    {u : Unit} (hhandle : ∀ x s done, Site.InPlace done s → x.1 ∉ done →
      Ends (handle x) s (fun _ t => t.InPlace (x.1 :: done)) fun _ _ => True)
    (honce : (files.map (·.1)).Nodup) (hnew : ∀ x ∈ files, x.1 ∉ done) (h : s.InPlace done)
    (hw : Yields (files.forM handle) s u t) : ∃ done', t.InPlace done' := by
  induction files generalizing s done with
  | nil =>
    obtain ⟨-, rfl⟩ := yields_pure.mp hw
    exact ⟨done, h⟩
  | cons x files ih =>
    obtain ⟨_, v, hx, hw⟩ := yields_bind.mp hw
    rw [List.map_cons, List.nodup_cons] at honce
    obtain ⟨hxnew, hnew⟩ := List.forall_mem_cons.mp hnew
    refine ih honce.2 (fun y hy => ?_) ((hhandle x s done h hxnew).of_yields hx) hw
    refine fun hmem => (List.mem_cons.mp hmem).elim (fun heq => ?_) (hnew y hy)
    exact honce.1 (heq ▸ List.mem_map_of_mem hy)

theorem nodup_handledFiles (htree : s.tree.Rooted) (rules : HandlingRules) (ignore : PathFilter) :
    ((s.handledFiles rules ignore).map (·.1)).Nodup := by
  unfold handledFiles
  rw [List.map_filterMap]
  refine List.Nodup.filterMap (fun a a' b hb hb' => ?_)
    ((Tree.nodup_descendants htree Tree.root).filter _)
  have hsame : ∀ {c}, ((s.handlingOf? rules ignore c).map fun h => (c, h)).map (·.1) = some b →
      c = b := by
    intro c hc
    rw [Option.map_map] at hc
    exact (Option.map_eq_some_iff.mp hc).choose_spec.2
  exact (hsame hb).trans (hsame hb').symm

/-- **When all files have been handled, the bundles in the place of files are what these files get.** -/
theorem inPlace_processHandled {ignore : PathFilter} {n : Nat} (htree : s.tree.Rooted)
    (h : s.InPlace []) (hw : Yields (processHandled ignore) s n t) :
    ∃ done, t.InPlace done := by
  obtain ⟨rules, -, hloop, -⟩ := yields_processHandled.mp hw
  refine inPlace_forM (fun x u done hu hx => ?_) (nodup_handledFiles htree rules ignore)
    (fun _ _ => List.not_mem_nil) h hloop
  rw [ends_inActivity]
  exact ends_handleFile_inPlace hu hx x.2 _

end SiteBundle
