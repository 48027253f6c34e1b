import SiteBundle.Bundle.Handled
import SiteBundle.Proofs.Bundle.Reached

/-!
# The sites that a run goes through

The passes of a run leave sound sites and keep what is noted on them:

* `safely_processMarkups`   the documents, one after the other;
* `safely_handleFile`       a file that is handled on its own;
* `kept_processHandled`     all files that are handled on their own.

So whatever a document notes as necessary is necessary when the output is planned.
-/

namespace SiteBundle

open Site

variable {s t : Site} {id : NodeId}

/-- nothing is asked of the sources that are rolled up -/
abbrev anySource : Text → Prop := fun _ => True

theorem onPatterns_eq_ok {α : Type} {r : Except BadPattern α} {a : α} (h : onPatterns r = .ok a) :
    r = .ok a := by
  cases r with
  | ok b => exact congrArg _ (Except.ok.inj h)
  | error b => exact nomatch h

theorem Tree.isFile_of_mem_files {tree : Tree} (h : id ∈ tree.files) : tree.isFile id = true :=
  (List.mem_filter.mp h).2

/-! ## documents -/

theorem isFile_of_mem_documents {ignore : PathFilter} (h : id ∈ s.documents ignore) :
    s.tree.isFile id = true :=
  Tree.isFile_of_mem_files (List.mem_of_mem_filter h)

theorem safely_processMarkups {l : List NodeId} (h : s.Sound)
    (hl : ∀ id ∈ l, s.tree.isFile id = true) (overrides : Overrides) :
    Safely anySource (l.forM fun id => processMarkup id overrides) s fun _ _ => True := by
  refine safely_forM (I := fun _ => True) h trivial fun id hid t ht hst _ => ?_
  have hfile : t.tree.isFile id = true := hst.isFile (hl id hid)
  exact ((safely_processMarkup ht hfile overrides).mono_blame fun _ _ => trivial).mono
    fun _ _ _ => trivial

/-! ## files handled on their own -/

theorem safely_handledCode (h : s.Sound) (hid : s.tree.isFile id = true) (handling : Handling) :
    Safely anySource (handledCode id handling) s fun g t => ∀ k ∈ g.files, t.Stands k := by
  have hown : Safely anySource (do
      let s ← get
      return ⟨← lift (s.tree.readText s.disk id), [id]⟩ : Work Graph) s
      fun g t => ∀ k ∈ g.files, t.Stands k := by
    rw [safely_get_bind]
    refine safely_lift_bind h ((results_readText s.disk hid).mono (fun code _ => ?_) fun f hf => .inl hf)
    exact safely_pure h (List.forall_mem_singleton.mpr (.inl hid))
  cases handling with
  | module => exact safely_rollUpModule h (fun _ _ _ => trivial) id
  | script => exact hown
  | style => exact hown

/-- a bundle is written in the place of a file -/
theorem safely_replaceFile {g : Graph} {bundle : BundleId} {b : Bundle} (h : s.Sound)
    (hid : s.tree.isFile id = true) (hg : ∀ k ∈ g.files, s.Stands k)
    (hb : s.bundles[bundle]? = some b) :
    Safely anySource (do
      Site.addMembership bundle (g.files.filter (· != id))
      let b ← lift ((← get).bundle bundle)
      changeTree fun t => t.setContent id b.code) s fun _ _ => True := by
  refine safely_bind (safely_addMembership h fun k hk => hg k (List.mem_of_mem_filter hk))
    fun _ t ht hst hbundles => ?_
  rw [safely_get_bind]
  refine safely_lift_bind ht ?_
  rw [bundle_eq_ok_iff.mpr (hbundles ▸ hb), results_ok]
  exact (safely_modifyFile (f := fun st => { st with override := some b.code }) ht
    (.inl (hst.isFile hid)) fun _ h => h).mono fun _ _ _ => trivial

theorem safely_handleFile (h : s.Sound) (hid : s.tree.isFile id = true) (handling : Handling)
    (o : Options) : Safely anySource (handleFile id handling o) s fun _ _ => True := by
  unfold handleFile
  dsimp only
  refine safely_bind (safely_handledCode h hid handling) fun g t ht hst hg => ?_
  rw [safely_get_bind]
  cases hfound : t.findIndividual? handling.family g.files (o.recipe handling.family false) with
  | some existing =>
    obtain ⟨b, hb, -⟩ := exists_of_find? ht.numbered hfound
    exact safely_replaceFile ht (hst.isFile hid) hg hb
  | none =>
    refine safely_bind (safely_prepare ht _ _ _) fun code u hu htu _ => ?_
    have hidu : u.tree.isFile id = true := (hst.trans htu).isFile hid
    refine safely_bind (safely_createOrReuse hu fun file hfile => ?_) fun bundle v hv huv ⟨b, hb, _⟩ => ?_
    · rw [← Placement.inPlace.inj hfile]
      exact Tree.lt_of_isFile hidu
    · exact safely_replaceFile hv (huv.isFile hidu)
        (fun k hk => huv.stands (htu.stands (hg k hk))) hb

theorem isFile_of_handled {rules : HandlingRules} {ignore : PathFilter} {x : NodeId × Handling}
    (h : x ∈ s.handledFiles rules ignore) : s.tree.isFile x.1 = true := by
  obtain ⟨id, hid, hx⟩ := List.mem_filterMap.mp h
  obtain ⟨handling, -, rfl⟩ := Option.map_eq_some_iff.mp hx
  exact Tree.isFile_of_mem_files hid

/-- the files are selected once, and then handled one after the other -/
theorem yields_processHandled {ignore : PathFilter} {n : Nat} :
    Yields (processHandled ignore) s n t ↔ ∃ rules, HandlingRules.read s.options = .ok rules ∧
      Yields ((s.handledFiles rules ignore).forM fun x =>
        inActivity ("failed to process " ++ shown (s.tree.relativePath x.1))
          (handleFile x.1 x.2 (rules.overrides.resolve s.options (s.tree.relativePath x.1))))
        s ⟨⟩ t ∧ n = (s.handledFiles rules ignore).length := by
  unfold processHandled
  rw [yields_get_bind]
  constructor
  · intro h
    obtain ⟨rules, _, hread, h⟩ := yields_bind.mp h
    obtain ⟨hrules, rfl⟩ := yields_lift.mp hread
    obtain ⟨_, u, hloop, h⟩ := yields_bind.mp h
    obtain ⟨rfl, rfl⟩ := yields_pure.mp h
    exact ⟨rules, onPatterns_eq_ok hrules, hloop, rfl⟩
  · rintro ⟨rules, hrules, hloop, rfl⟩
    rw [yields_lift_bind (congrArg onPatterns hrules)]
    exact yields_bind.mpr ⟨_, t, hloop, rfl⟩

/-- handling files on their own keeps what documents have noted -/
theorem kept_processHandled {ignore : PathFilter} {n : Nat} (h : s.Sound)
    (hw : Yields (processHandled ignore) s n t) : t.Sound ∧ s.Kept t := by
  obtain ⟨rules, -, hloop, -⟩ := yields_processHandled.mp hw
  have hsafe : Safely anySource ((s.handledFiles rules ignore).forM fun x =>
      inActivity ("failed to process " ++ shown (s.tree.relativePath x.1))
        (handleFile x.1 x.2 (rules.overrides.resolve s.options (s.tree.relativePath x.1))))
      s fun _ _ => True := by
    refine safely_forM (I := fun _ => True) h trivial fun x hx u hu hsu _ => ?_
    exact safely_inActivity (safely_handleFile hu (hsu.isFile (isFile_of_handled hx)) x.2 _)
  obtain ⟨hu, hsu, -⟩ := hsafe.of_yields hloop
  exact ⟨hu, hsu⟩

end SiteBundle
