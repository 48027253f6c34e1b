import Mathlib.Logic.Relation
import SiteBundle.Bundle.Handled
import SiteBundle.Bundle.Page
import SiteBundle.Proofs.Bundle.Calls

/-!
# The steps of a run

However it goes on and wherever it fails, bundling changes a site in a few ways only, one after the
other (`Site.Step`):

* something is noted in the journal, a module is kept, a file is marked;
* a file gets other content;
* a name is drawn, a bundle is put into the list;
* the bundle directory is found or made, and a bundle gets its file.

So what every step keeps holds wherever work comes from there (`Site.Steps.keeps`); it keeps all the
bundles, with their numbers (`Site.Steps.grew`, `Site.Steps.numbered`).  `written` are the
nodes that get other content, and `placed` those that bundles are made in the place of; documents are
written to and nothing is placed (`stepwise_processMarkup`), and a file that is handled on its own is
both (`stepwise_handleFile`).
-/

namespace SiteBundle

open Site

variable {written placed : NodeId → Prop} {s t u : Site} {id : NodeId}

/-- one change of a site -/
inductive Site.Step (written placed : NodeId → Prop) (s : Site) : Site → Prop where
  | note (events : List Event) : Step written placed s { s with journal := s.journal ++ events }
  | keep (entry : NodeId) {r : RolledUp}
    (hr : rollUpFile s.disk (s.tree.place entry) = .ok r) :
    Step written placed s { s with modules := s.modules ++ [(entry, graphOf s.tree r)] }
  | mark {id : NodeId} {f : FileState → FileState} {tree : Tree}
    (hf : ∀ st, FileState.SameContent st (f st)) (h : s.tree.modifyFile id f = .ok tree)
    (hgain : ∀ st : FileState, st.necessary = true → (f st).necessary = true) :
    Step written placed s { s with tree }
  | write {id : NodeId} {content : Text} {tree : Tree} (hid : written id)
    (h : s.tree.setContent id content = .ok tree) : Step written placed s { s with tree }
  | draw (thrown : Nat) : Step written placed s { s with thrown }
  | enter {r : Request} {name : Text} (hnone : s.existing? r = none) (hname : r.Names s name)
    (hplaced : ∀ file, r.placement = .inPlace file → placed file) :
    Step written placed s { s with bundles := s.bundles ++ [r.entry s.bundles.length name] }
  | find {dir : NodeId} (hnone : s.bundleDir = none)
    (h : s.tree.node? dir = some ⟨s.options.get .bundleDirectory, some Tree.root, .folder⟩) :
    Step written placed s { s with bundleDir := some dir }
  | make (hnone : s.bundleDir = none)
    (h : ∀ id, s.tree.childNamed? Tree.root (s.options.get .bundleDirectory) = some id →
      s.tree.isFile id = true) :
    Step written placed s
      { s with
        tree := (s.tree.addFolder Tree.root (s.options.get .bundleDirectory)).1
        bundleDir := some s.tree.nodes.size }
  | file {dir : NodeId} {i : BundleId} {b : Bundle} (hdir : s.bundleDir = some dir)
    (hb : s.bundles[i]? = some b) (hnode : b.node = none) :
    Step written placed s
      { s with
        tree := (s.tree.addFile dir b.fileName b.code).1
        bundles := s.bundles.set i { b with isVirtual := false, node := some s.tree.nodes.size } }

/-- nothing is asked of the nodes that are written to -/
abbrev anyNode : NodeId → Prop := fun _ => True

/-- any number of changes -/
def Site.Steps (written placed : NodeId → Prop) : Site → Site → Prop :=
  Relation.ReflTransGen (Step written placed)

namespace Site.Steps

theorem refl (s : Site) : Steps written placed s s := Relation.ReflTransGen.refl

theorem trans (h : Steps written placed s t) (h' : Steps written placed t u) :
    Steps written placed s u := Relation.ReflTransGen.trans h h'

theorem one (h : Step written placed s t) : Steps written placed s t := .single h

/-- what every step keeps -/
theorem keeps {I : Site → Prop} (hstep : ∀ s t, Step written placed s t → I s → I t)
    (h : Steps written placed s t) (hs : I s) : I t := by
  induction h with
  | refl => exact hs
  | tail _ h ih => exact hstep _ _ h ih

theorem mono {written' placed' : NodeId → Prop} (hwritten : ∀ id, written id → written' id)
    (hplaced : ∀ id, placed id → placed' id) (h : Steps written placed s t) :
    Steps written' placed' s t := by
  induction h with
  | refl => exact .refl _
  | tail _ hst ih =>
    refine ih.trans (.one ?_)
    cases hst with
    | note events => exact .note events
    | keep entry hr => exact .keep entry hr
    | mark hf h hgain => exact .mark hf h hgain
    | write hid h => exact .write (hwritten _ hid) h
    | draw thrown => exact .draw thrown
    | enter hnone hname hfile => exact .enter hnone hname fun file hf => hplaced _ (hfile file hf)
    | find hnone h => exact .find hnone h
    | make hnone h => exact .make hnone h
    | file hdir hb hnode => exact .file hdir hb hnode

end Site.Steps

/-! ## what every step keeps of the bundles -/

theorem Site.Step.grew (h : Step written placed s t) : s.Grew t := by
  cases h with
  | enter _ _ _ => exact grew_append s _ s.thrown
  | @file dir i b _ hb hnode =>
    refine ⟨rfl, fun {j c} hc => ?_⟩
    show ∃ c', (s.bundles.set i _)[j]? = some c' ∧ c.Keeps c'
    rw [List.getElem?_set]
    by_cases hij : i = j
    · subst hij
      obtain rfl := Option.some.inj (hb.symm.trans hc)
      rw [if_pos rfl, if_pos (List.getElem?_eq_some_iff.mp hc).1]
      exact ⟨_, rfl, rfl, fun _ hn => (nomatch hnode.symm.trans hn), fun _ => rfl⟩
    · rw [if_neg hij]
      exact ⟨c, hc, .refl c⟩
  | _ => exact ⟨rfl, fun {_ c} hc => ⟨c, hc, .refl c⟩⟩

theorem Site.Steps.grew (h : Steps written placed s t) : s.Grew t :=
  h.keeps (I := s.Grew) (fun _ _ hstep hgrew => hgrew.trans hstep.grew) (.refl s)

/-- bundles have the numbers of their places -/
def Site.Numbered (s : Site) : Prop := ∀ {i : Nat} {b : Bundle}, s.bundles[i]? = some b → b.id = i

theorem Site.Step.numbered (h : Step written placed s t) (hs : s.Numbered) : t.Numbered := by
  cases h with
  | @enter r name _ _ _ => exact id_of_getElem?_append hs (r.id_entry _ name)
  | @file dir i b _ hb _ =>
    have hid : b.id = i := hs hb
    intro j c hc
    exact id_of_getElem?_set hs hc hid
  | _ => exact hs

theorem Site.Steps.numbered (h : Steps written placed s t) (hs : s.Numbered) : t.Numbered :=
  h.keeps (I := Numbered) (fun _ _ hstep => hstep.numbered) hs

/-! ## work -/

/-- whatever the work does to a site, it does it in steps -/
def Stepwise {α : Type} (written placed : NodeId → Prop) (w : Work α) : Prop :=
  ∀ s, Ends w s (fun _ => Steps written placed s) fun _ => Steps written placed s

/-! ## work made of parts -/

section
variable {α β : Type}

theorem Stepwise.steps {w : Work α} (h : Stepwise written placed w) (s : Site) :
    Steps written placed s (w s).2 := (h s).site

theorem Stepwise.of_yields {w : Work α} {a : α} (h : Stepwise written placed w)
    (hw : Yields w s a t) : Steps written placed s t := (h s).of_yields hw

theorem Stepwise.mono {written' placed' : NodeId → Prop} {w : Work α}
    (hwritten : ∀ id, written id → written' id) (hplaced : ∀ id, placed id → placed' id)
    (h : Stepwise written placed w) : Stepwise written' placed' w := fun s =>
  (h s).mono (fun _ _ ht => ht.mono hwritten hplaced) fun _ _ ht => ht.mono hwritten hplaced

theorem stepwise_pure (a : α) : Stepwise written placed (pure a) := fun s => .refl s

theorem stepwise_throw (f : Failure) : Stepwise written placed (throw f : Work α) := fun s => .refl s

theorem stepwise_lift (r : Except Failure α) : Stepwise written placed (lift r) := by
  cases r with
  | ok a => exact stepwise_pure a
  | error f => exact stepwise_throw f

theorem stepwise_bind {w : Work β} {k : β → Work α} (hw : Stepwise written placed w)
    (hk : ∀ b, Stepwise written placed (k b)) : Stepwise written placed (w >>= k) := fun s =>
  ends_bind.mpr <| (hw s).mono (fun b t ht => (hk b t).mono (fun _ _ hu => ht.trans hu)
    fun _ _ hu => ht.trans hu) fun _ _ ht => ht

theorem stepwise_get : Stepwise written placed (get : Work Site) := fun s => .refl s

/-- work that looks at the site first -/
theorem stepwise_get_bind {k : Site → Work α} (hk : ∀ s, Stepwise written placed (k s)) :
    Stepwise written placed (get >>= k) := stepwise_bind stepwise_get hk

theorem stepwise_tryCatch {w : Work α} {h : Failure → Work α} (hw : Stepwise written placed w)
    (hh : ∀ f, Stepwise written placed (h f)) : Stepwise written placed (tryCatch w h) := fun s =>
  ends_tryCatch.mpr <| (hw s).mono (fun _ _ ht => ht) fun f t ht =>
    (hh f t).mono (fun _ _ hu => ht.trans hu) fun _ _ hu => ht.trans hu

theorem stepwise_inActivity {w : Work α} (hw : Stepwise written placed w) (activity : String) :
    Stepwise written placed (inActivity activity w) :=
  stepwise_tryCatch hw fun _ => stepwise_throw _

theorem stepwise_forM {f : α → Work PUnit} {l : List α}
    (hf : ∀ a ∈ l, Stepwise written placed (f a)) : Stepwise written placed (l.forM f) := fun s =>
  ends_forM (I := Steps written placed s) (.refl s) fun a ha t ht =>
    (hf a ha t).mono (fun _ _ hu => ht.trans hu) fun _ _ hu => ht.trans hu

theorem stepwise_mapM {f : α → Work β} {l : List α} (hf : ∀ a ∈ l, Stepwise written placed (f a)) :
    Stepwise written placed (l.mapM f) := by
  induction l with
  | nil =>
    rw [List.mapM_nil]
    exact stepwise_pure _
  | cons a l ih =>
    rw [List.mapM_cons]
    refine stepwise_bind (hf a List.mem_cons_self) fun b => ?_
    exact stepwise_bind (ih fun c hc => hf c (List.mem_cons_of_mem a hc)) fun _ => stepwise_pure _

/-- one run of a loop, with what is done before and behind it -/
theorem yields_mapM_of_mem {f : α → Work β} {l : List α} {a : α} {bs : List β} (ha : a ∈ l)
    (hf : ∀ a ∈ l, Stepwise written placed (f a)) (hw : Yields (l.mapM f) s bs t) :
    ∃ u b v, Steps written placed s u ∧ Yields (f a) u b v ∧ Steps written placed v t := by
  induction l generalizing s bs with
  | nil => exact absurd ha List.not_mem_nil
  | cons c l ih =>
    obtain ⟨hc, hl⟩ := List.forall_mem_cons.mp hf
    rw [List.mapM_cons] at hw
    obtain ⟨b, u, hfirst, hw⟩ := yields_bind.mp hw
    obtain ⟨bs', v, hrest, hw⟩ := yields_bind.mp hw
    obtain ⟨-, rfl⟩ := yields_pure.mp hw
    rcases List.mem_cons.mp ha with rfl | ha
    · exact ⟨s, b, u, .refl s, hfirst, (stepwise_mapM hl).of_yields hrest⟩
    · obtain ⟨u', b', v', hbefore, hrun, hbehind⟩ := ih ha hl hrest
      exact ⟨u', b', v', (hc.of_yields hfirst).trans hbefore, hrun, hbehind⟩

/-! ## single steps -/

theorem stepwise_note (events : List Event) : Stepwise written placed (note events) :=
  fun _ => .one (.note events)

theorem stepwise_mark {f : FileState → FileState} (hf : ∀ st, FileState.SameContent st (f st))
    (hgain : ∀ st : FileState, st.necessary = true → (f st).necessary = true) :
    Stepwise written placed (changeTree fun t => t.modifyFile id f) := fun s => by
  rw [ends_changeTree]
  cases htree : s.tree.modifyFile id f with
  | ok tree => exact .one (.mark hf htree hgain)
  | error e => exact .refl s

theorem stepwise_setContent (id : NodeId) (content : Text) :
    Stepwise (· = id) placed (changeTree fun t => t.setContent id content) := fun s => by
  rw [ends_changeTree]
  cases htree : s.tree.setContent id content with
  | ok tree => exact .one (.write rfl htree)
  | error e => exact .refl s

theorem stepwise_addMembership (bundle : BundleId) (sources : List NodeId) :
    Stepwise written placed (addMembership bundle sources) :=
  stepwise_forM fun _ _ => stepwise_mark (fun _ => ⟨rfl, rfl⟩) fun _ h => h

/-! ## bundles -/

theorem ends_bundleDirectory_steps (written placed : NodeId → Prop) (s : Site) :
    Ends bundleDirectory s (fun dir t => Steps written placed s t ∧ t.bundleDir = some dir ∧
      t.bundles = s.bundles) fun _ _ => False := by
  unfold bundleDirectory
  rw [ends_bind, ends_get]
  cases hdir : s.bundleDir with
  | some dir => exact ⟨.refl s, hdir, rfl⟩
  | none =>
    cases hfound : (s.tree.childNamed? Tree.root (s.options.get .bundleDirectory)).filter
        fun id => !s.tree.isFile id with
    | some dir =>
      have hn := Tree.folder_of_childNamed? hfound
      simp only [hfound, ends_bind, ends_set, ends_pure, and_true]
      exact .one (.find hdir hn)
    | none =>
      simp only [hfound, ends_bind, ends_set, ends_pure]
      refine ⟨.one (.make hdir fun id hid => ?_), trivial, trivial⟩
      rw [hid] at hfound
      have hnot := Option.filter_eq_none_iff.mp hfound id rfl
      rwa [Bool.not_eq_true', Bool.not_eq_false] at hnot

/-- a bundle without a file gets one -/
theorem ends_materialize_steps {i : BundleId} (h : ∀ b, s.bundles[i]? = some b → b.node = none) :
    Ends (materialize i) s (fun _ => Steps written placed s) fun _ => Steps written placed s := by
  unfold materialize
  rw [ends_bind]
  refine (ends_bundleDirectory_steps written placed s).mono
    (fun dir t ⟨hst, hdir, hbundles⟩ => ?_) fun _ _ he => he.elim
  rw [ends_bind, ends_get, ends_bind, ends_lift]
  cases hb : t.bundle i with
  | error f => exact hst
  | ok b =>
    have hbt := bundle_eq_ok_iff.mp hb
    exact hst.trans (.one (.file hdir hbt (h b (hbundles ▸ hbt))))

theorem stepwise_ensureReal (i : BundleId) : Stepwise written placed (ensureReal i) := fun s => by
  unfold ensureReal
  rw [ends_bind, ends_get, ends_bind, ends_lift]
  cases hb : s.bundle i with
  | error f => exact .refl s
  | ok b =>
    cases hnode : b.node with
    | some node =>
      simp only [hnode, ends_pure]
      exact .refl s
    | none =>
      simp only [hnode]
      refine ends_materialize_steps fun c hc => ?_
      obtain rfl := Option.some.inj ((bundle_eq_ok_iff.mp hb).symm.trans hc)
      exact hnode

theorem ends_addBundle_steps (written : NodeId → Prop) {r : Request}
    (hnone : s.existing? r = none)
    (hplaced : ∀ file, r.placement = .inPlace file → placed file) :
    Ends (addBundle r) s (fun i t => Steps written placed s t ∧ (r.placement = .bundleDirectory →
      ∀ b, t.bundles[i]? = some b → b.node = none)) fun _ _ => False := by
  have hnode : r.placement = .bundleDirectory → ∀ i name, (r.entry i name).node = none := by
    intro hp i name
    rw [Request.entry, hp]
  refine (ends_addBundle r s).mono (fun i t ht => ?_) fun _ _ he => he
  obtain ⟨rfl, name, hname, thrown, rfl⟩ := ht
  refine ⟨?_, fun hp b hb => ?_⟩
  · exact (Steps.one (.draw thrown)).trans (.one (.enter hnone hname hplaced))
  · obtain rfl := Option.some.inj (List.getElem?_concat_length.symm.trans hb)
    exact hnode hp _ _

theorem stepwise_createOrReuse {r : Request}
    (hplaced : ∀ file, r.placement = .inPlace file → placed file) :
    Stepwise written placed (createOrReuse r) := fun s => by
  unfold createOrReuse
  rw [ends_bind, ends_get]
  cases hex : s.existing? r with
  | some i =>
    dsimp only
    split
    · exact stepwise_bind (stepwise_ensureReal i) (fun _ => stepwise_pure i) s
    · exact .refl s
  | none =>
    simp only [ends_bind]
    refine (ends_addBundle_steps written hex hplaced).mono (fun i t h => ?_) fun _ _ he => he.elim
    obtain ⟨hst, hnode⟩ := h
    split
    · rename_i hp
      simp only [ends_bind, ends_pure]
      exact (ends_materialize_steps (hnode hp)).mono (fun _ _ hu => hst.trans hu)
        fun _ _ hu => hst.trans hu
    · exact hst

/-! ## code -/

theorem stepwise_prepare (r : Recipe) (f : Family) (code : Text) :
    Stepwise written placed (prepare r f code) := by
  unfold prepare
  cases runTransforms (r.transforms f) code with
  | mk begun result =>
    refine stepwise_bind (stepwise_note _) fun _ => ?_
    cases result with
    | ok code => exact stepwise_pure code
    | error fault => exact stepwise_throw _

theorem stepwise_rollUpModule (entry : NodeId) :
    Stepwise written placed (rollUpModule entry) := fun s => by
  unfold rollUpModule
  rw [ends_bind, ends_get]
  dsimp only
  split
  · exact .refl s
  · rw [ends_bind, ends_note, ends_bind, ends_lift]
    have hnoted : Steps written placed s
        { s with journal := s.journal ++ [.rollUp (s.tree.place entry)] } := .one (.note _)
    cases hr : rollUpFile s.disk (s.tree.place entry) with
    | error f => exact hnoted
    | ok r => exact hnoted.trans (.one (.keep entry hr))

theorem stepwise_rollUpBody (code : Text) (dir : NodeId) (document : Text) :
    Stepwise written placed (rollUpBody code dir document) := by
  unfold rollUpBody
  exact stepwise_get_bind fun s => stepwise_bind (stepwise_note _) fun _ =>
    stepwise_bind (stepwise_lift _) fun _ => stepwise_pure _

theorem stepwise_attempt {w : Work α} (hw : Stepwise written placed w) :
    Stepwise written placed (attempt w) := by
  unfold attempt
  refine stepwise_tryCatch ?_ fun f => ?_
  · rw [map_eq_pure_bind]
    exact stepwise_bind hw fun _ => stepwise_pure _
  · split
    · exact stepwise_throw f
    · exact stepwise_pure none

theorem stepwise_noteNecessary (file : NodeId) :
    Stepwise written placed (changeTree fun t => t.markNecessary file) :=
  stepwise_mark (fun _ => ⟨rfl, rfl⟩) fun _ _ => rfl

theorem stepwise_markNecessary (file : NodeId) (module_ : Bool) :
    Stepwise written placed (markNecessary file module_) := by
  unfold markNecessary
  refine stepwise_bind (stepwise_noteNecessary file) fun _ => ?_
  split
  · refine stepwise_bind (stepwise_attempt (stepwise_rollUpModule file)) fun g => ?_
    cases g with
    | some g => exact stepwise_forM fun id _ => stepwise_noteNecessary id
    | none => exact stepwise_pure _
  · exact stepwise_pure _

/-! ## documents -/

section
variable (p : Page) (policy : Policy)

theorem stepwise_part (a : Asset) : Stepwise written placed (p.part policy a) := by
  unfold Page.part
  refine stepwise_get_bind fun s => ?_
  split
  · exact stepwise_pure _
  · exact stepwise_bind (stepwise_lift _) fun _ => stepwise_pure _
  · exact stepwise_throw _

theorem stepwise_emit (code : Text) (sources : List NodeId) (deferred async : Bool) :
    Stepwise written placed (p.emit policy code sources deferred async) := by
  unfold Page.emit
  refine stepwise_bind (stepwise_inActivity (stepwise_prepare _ _ _) _) fun code => ?_
  refine stepwise_bind (stepwise_createOrReuse fun file hfile => ?_) fun i => ?_
  · dsimp only at hfile
    split at hfile <;> exact nomatch hfile
  refine stepwise_bind (stepwise_addMembership _ _) fun _ => stepwise_get_bind fun s => ?_
  refine stepwise_bind (stepwise_lift _) fun b => ?_
  split
  · exact stepwise_pure _
  · split
    · exact stepwise_throw _
    · split
      · exact stepwise_pure _
      · exact stepwise_throw _

theorem stepwise_moduleText (a : Asset) : Stepwise written placed (p.moduleText policy a) := by
  unfold Page.moduleText
  split
  · exact stepwise_bind (stepwise_rollUpModule _) fun _ => stepwise_emit p policy _ _ _ _
  · split
    · exact stepwise_pure _
    · exact stepwise_bind (stepwise_rollUpBody _ _ _) fun _ => stepwise_emit p policy _ _ _ _
  · exact stepwise_throw _

theorem stepwise_mergedText (members : List Asset) (deferred async : Bool) :
    Stepwise written placed (p.mergedText policy members deferred async) := by
  unfold Page.mergedText
  refine stepwise_bind (stepwise_mapM fun a _ => stepwise_part p policy a) fun parts => ?_
  dsimp only
  split
  · exact stepwise_pure _
  · exact stepwise_emit p policy _ _ _ _

theorem stepwise_replacement (g : Group) : Stepwise written placed (p.replacement policy g) := by
  unfold Page.replacement
  split
  · exact stepwise_throw _
  · split
    · exact stepwise_pure _
    · exact stepwise_moduleText p policy _
    · exact stepwise_mergedText p policy _ _ _

theorem stepwise_withoutMissing : Stepwise written placed (p.withoutMissing policy) := by
  unfold Page.withoutMissing
  refine stepwise_get_bind fun s => ?_
  split
  · exact stepwise_pure _
  · split
    · exact stepwise_pure _
    · exact stepwise_throw _

theorem stepwise_withBundles (assets : List Asset) :
    Stepwise written placed (p.withBundles policy assets) := by
  unfold Page.withBundles
  split
  · exact stepwise_throw _
  · refine stepwise_bind (stepwise_mapM fun gs _ => stepwise_bind
      (stepwise_mapM fun g _ => stepwise_replacement p policy g) fun _ => stepwise_pure _) fun _ => ?_
    split
    · exact stepwise_pure _
    · exact stepwise_throw _

theorem stepwise_bundleFamily (f : Family) : Stepwise written placed (p.bundleFamily f) := by
  unfold Page.bundleFamily
  refine stepwise_bind (stepwise_withoutMissing p _) fun p => stepwise_get_bind fun s => ?_
  refine stepwise_bind (stepwise_forM fun file _ => stepwise_markNecessary file false) fun _ => ?_
  split
  · refine stepwise_bind (stepwise_forM fun a _ => ?_) fun _ => stepwise_pure _
    split
    · exact stepwise_markNecessary _ _
    · exact stepwise_pure _
  · dsimp only
    split
    · exact stepwise_pure _
    · exact stepwise_withBundles p _ _

theorem stepwise_advance (next : Stage) : Stepwise written placed (p.advance next) := by
  unfold Page.advance
  split
  · exact stepwise_pure _
  · exact stepwise_throw _

theorem stepwise_bundled : Stepwise written placed p.bundled := by
  unfold Page.bundled
  refine stepwise_bind (stepwise_inActivity (stepwise_bundleFamily p _) _) fun p => ?_
  refine stepwise_bind (stepwise_advance p _) fun p => ?_
  refine stepwise_bind (stepwise_inActivity (stepwise_bundleFamily p _) _) fun p => ?_
  exact stepwise_advance p _

theorem stepwise_withPolyfill : Stepwise written placed p.withPolyfill := by
  unfold Page.withPolyfill
  split
  · exact stepwise_pure _
  · split
    · exact stepwise_throw _
    · exact stepwise_pure _
    · exact stepwise_advance _ _

theorem stepwise_minified : Stepwise written placed p.minified := by
  unfold Page.minified
  split
  · exact stepwise_pure _
  · split
    · exact stepwise_throw _
    · exact stepwise_advance _ _

end

/-- a document is written to, and nothing is placed -/
theorem stepwise_processMarkup (file : NodeId) (overrides : Overrides) :
    Stepwise (· = file) (fun _ => False) (processMarkup file overrides) := by
  unfold processMarkup openPage
  refine stepwise_bind (stepwise_get_bind fun s => stepwise_bind (stepwise_lift _) fun _ =>
    stepwise_bind (stepwise_lift _) fun _ => stepwise_pure _) fun p => ?_
  refine stepwise_bind (stepwise_bundled p) fun p => ?_
  refine stepwise_bind (stepwise_withPolyfill p) fun p => ?_
  refine stepwise_bind (stepwise_minified p) fun p => ?_
  exact stepwise_bind (stepwise_advance p _) fun p => stepwise_setContent file _

/-! ## files handled on their own -/

theorem stepwise_handledCode (handling : Handling) :
    Stepwise written placed (handledCode id handling) := by
  have hown : Stepwise written placed (do
      let s ← get
      return ⟨← lift (s.tree.readText s.disk id), [id]⟩ : Work Graph) :=
    stepwise_get_bind fun s => stepwise_bind (stepwise_lift _) fun _ => stepwise_pure _
  cases handling with
  | module => exact stepwise_rollUpModule id
  | script => exact hown
  | style => exact hown

/-- a file that is handled on its own is written to, and a bundle may be placed there -/
theorem stepwise_handleFile (handling : Handling) (o : Options) :
    Stepwise (· = id) (· = id) (handleFile id handling o) := by
  unfold handleFile
  dsimp only
  refine stepwise_bind (stepwise_handledCode handling) fun g => stepwise_get_bind fun s => ?_
  have hrest : ∀ i : BundleId, Stepwise (· = id) (· = id) (do
      addMembership i (g.files.filter (· != id))
      let b ← lift ((← get).bundle i)
      changeTree fun t => t.setContent id b.code) := fun i =>
    stepwise_bind (stepwise_addMembership _ _) fun _ => stepwise_get_bind fun s =>
      stepwise_bind (stepwise_lift _) fun b => stepwise_setContent id _
  split
  · exact hrest _
  · exact stepwise_bind (stepwise_prepare _ _ _) fun code => stepwise_bind
      (stepwise_createOrReuse fun file hfile => (Placement.inPlace.inj hfile).symm) hrest

end
end SiteBundle
