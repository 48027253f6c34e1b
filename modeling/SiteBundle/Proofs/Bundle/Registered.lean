import SiteBundle.Proofs.Bundle.Ends
import SiteBundle.Proofs.Bundle.Naming
import SiteBundle.Proofs.Tree.Growing

/-!
# What holds of the bundles of a site

The bundles of a site are a list that requests add to, and some of them have a file.  What holds of
them whatever was asked for is said in two parts:

* `Catalogue`   the list by itself: numbers, keys and names;
* `Filing`      the bundles and the tree: which bundle has which file, and what is in it.

`Registry` is both, together with the mark of a bundle without a file.  `Site.Grew` is what holds
between an earlier and a later list.

A new bundle is put into the list before it gets its file, and until then its mark is wrong.  So the
steps are told for the parts: `Catalogue.append` for a new entry, `Filing.append` for an entry without
a file, and `Filing.putFile` for the file.
-/

namespace SiteBundle

open Site

/-- a bundle but for its file -/
def Bundle.core (b : Bundle) : Bundle := { b with isVirtual := false, node := none }

/-- the later bundle is the earlier one, except that it may have got a file -/
structure Bundle.Keeps (b c : Bundle) : Prop where
  core : c.core = b.core
  node : ∀ id, b.node = some id → c.node = some id
  real : b.isVirtual = false → c.isVirtual = false

theorem Bundle.Keeps.refl (b : Bundle) : b.Keeps b := ⟨rfl, fun _ h => h, fun h => h⟩

theorem Bundle.Keeps.trans {a b c : Bundle} (h : a.Keeps b) (h' : b.Keeps c) : a.Keeps c where
  core := h'.core.trans h.core
  node := fun id hid => h'.node id (h.node id hid)
  real := fun hr => h'.real (h.real hr)

/-- the bundles of an earlier site are those that the later list begins with -/
structure Site.Grew (s t : Site) : Prop where
  options : t.options = s.options
  bundle : ∀ {i : Nat} {b : Bundle}, s.bundles[i]? = some b →
    ∃ c, t.bundles[i]? = some c ∧ b.Keeps c

namespace Site.Grew

theorem refl (s : Site) : s.Grew s := ⟨rfl, fun {_ b} h => ⟨b, h, .refl b⟩⟩

theorem trans {s t u : Site} (h : s.Grew t) (h' : t.Grew u) : s.Grew u where
  options := h'.options.trans h.options
  bundle := fun hb => by
    obtain ⟨c, hc, hbc⟩ := h.bundle hb
    obtain ⟨d, hd, hcd⟩ := h'.bundle hc
    exact ⟨d, hd, hbc.trans hcd⟩

theorem length_le {s t : Site} (h : s.Grew t) : s.bundles.length ≤ t.bundles.length := by
  refine Nat.le_of_not_lt fun hlt => ?_
  obtain ⟨c, hc, -⟩ := h.bundle (List.getElem?_eq_getElem hlt)
  exact absurd (List.getElem?_eq_some_iff.mp hc).1 (Nat.lt_irrefl _)

end Site.Grew

/-! ## The list -/

/-- the bundles of a family from markup -/
def markupOf (bundles : List Bundle) (f : Family) : List Bundle :=
  bundles.filter fun b => b.provenance == .markup && b.family == f

theorem mem_markupOf {bundles : List Bundle} {f : Family} {b : Bundle} :
    b ∈ markupOf bundles f ↔ b ∈ bundles ∧ b.provenance = .markup ∧ b.family = f := by
  rw [markupOf, List.mem_filter, Bool.and_eq_true, beq_iff_eq, beq_iff_eq]

theorem markupOf_append (bundles bundles' : List Bundle) (f : Family) :
    markupOf (bundles ++ bundles') f = markupOf bundles f ++ markupOf bundles' f :=
  List.filter_append ..

theorem markupOf_append_of {bundles : List Bundle} {x : Bundle} (hx : x.provenance = .markup) :
    markupOf (bundles ++ [x]) x.family = markupOf bundles x.family ++ [x] := by
  have hone : markupOf [x] x.family = [x] :=
    List.filter_cons_of_pos (by rw [hx, beq_self_eq_true, beq_self_eq_true, Bool.and_true])
  rw [markupOf_append, hone]

theorem markupOf_append_of_not {bundles : List Bundle} {x : Bundle} {f : Family}
    (hx : ¬ (x.provenance = .markup ∧ x.family = f)) :
    markupOf (bundles ++ [x]) f = markupOf bundles f := by
  have hnone : markupOf [x] f = [] := by
    refine List.eq_nil_iff_forall_not_mem.mpr fun b hb => hx ?_
    obtain ⟨hb, hm, hf⟩ := mem_markupOf.mp hb
    rw [← List.mem_singleton.mp hb]
    exact ⟨hm, hf⟩
  rw [markupOf_append, hnone, List.append_nil]

/-- a bundle's file does not matter to whether it is from markup -/
theorem map_core_markupOf (bundles : List Bundle) (f : Family) :
    (markupOf bundles f).map Bundle.core = markupOf (bundles.map Bundle.core) f := by
  rw [markupOf, markupOf, List.filter_map]
  rfl

theorem map_core_of_keeps {bundles bundles' : List Bundle} (hlen : bundles'.length = bundles.length)
    (hkeeps : ∀ {i : Nat} {b : Bundle}, bundles[i]? = some b →
      ∃ c, bundles'[i]? = some c ∧ b.Keeps c) :
    bundles'.map Bundle.core = bundles.map Bundle.core := by
  refine List.ext_getElem? fun i => ?_
  rw [List.getElem?_map, List.getElem?_map]
  cases hb : bundles[i]? with
  | none => rw [List.getElem?_eq_none (hlen ▸ List.getElem?_eq_none_iff.mp hb)]
  | some b =>
    obtain ⟨c, hc, hk⟩ := hkeeps hb
    rw [hc, Option.map_some, Option.map_some, hk.core]

/-- numbers, keys and names; `isRandom` says that names are drawn -/
structure Catalogue (isRandom : Bool) (bundles : List Bundle) : Prop where
  numbered : ∀ {i : Nat} {b : Bundle}, bundles[i]? = some b → b.id = i
  markup : ∀ b ∈ bundles, ∀ c ∈ bundles, b.provenance = .markup → c.provenance = .markup →
    b.family = c.family → b.code = c.code → b.id = c.id
  individual : ∀ b ∈ bundles, ∀ c ∈ bundles, b.provenance = .individual →
    c.provenance = .individual → b.family = c.family → b.sources = c.sources →
    b.recipe = c.recipe → b.id = c.id
  named : ∀ b ∈ bundles, ∀ c ∈ bundles, b.provenance = .markup → c.provenance = .markup →
    b.family = c.family → b.name = c.name → b.id = c.id
  sequential : isRandom = false → ∀ f, (markupOf bundles f).map (·.name) =
    (List.range (markupOf bundles f).length).map fun n => (toString n).toList

namespace Catalogue
variable {isRandom : Bool} {bundles : List Bundle}

theorem nil : Catalogue isRandom [] where
  numbered := fun h => absurd (List.mem_of_getElem? h) List.not_mem_nil
  markup := fun _ h => absurd h List.not_mem_nil
  individual := fun _ h => absurd h List.not_mem_nil
  named := fun _ h => absurd h List.not_mem_nil
  sequential := fun _ _ => rfl

theorem getElem?_id (h : Catalogue isRandom bundles) {b : Bundle} (hb : b ∈ bundles) :
    bundles[b.id]? = some b := getElem?_id_of_mem h.numbered hb

/-- bundles that only differ in their files have the same numbers, keys and names -/
theorem of_keeps {bundles' : List Bundle} (h : Catalogue isRandom bundles)
    (hlen : bundles'.length = bundles.length)
    (hkeeps : ∀ {i : Nat} {b : Bundle}, bundles[i]? = some b →
      ∃ c, bundles'[i]? = some c ∧ b.Keeps c) :
    Catalogue isRandom bundles' := by
  have hcores := map_core_of_keeps hlen hkeeps
  have hback : ∀ {i : Nat} {c : Bundle}, bundles'[i]? = some c →
      ∃ b, bundles[i]? = some b ∧ b.core = c.core := by
    intro i c hc
    refine Option.map_eq_some_iff.mp ?_
    rw [← List.getElem?_map, ← hcores, List.getElem?_map, hc, Option.map_some]
  -- what is said of two bundles is said of their cores
  have hpair : ∀ P : Bundle → Bundle → Prop, (∀ b ∈ bundles, ∀ c ∈ bundles, P b.core c.core) →
      ∀ b ∈ bundles', ∀ c ∈ bundles', P b.core c.core := by
    intro P hP b hb c hc
    obtain ⟨i, hi⟩ := List.mem_iff_getElem?.mp hb
    obtain ⟨j, hj⟩ := List.mem_iff_getElem?.mp hc
    obtain ⟨b', hb', hbcore⟩ := hback hi
    obtain ⟨c', hc', hccore⟩ := hback hj
    rw [← hbcore, ← hccore]
    exact hP b' (List.mem_of_getElem? hb') c' (List.mem_of_getElem? hc')
  refine ⟨fun hc => ?_, hpair (fun b c => b.provenance = .markup → c.provenance = .markup →
    b.family = c.family → b.code = c.code → b.id = c.id) h.markup,
    hpair (fun b c => b.provenance = .individual → c.provenance = .individual →
      b.family = c.family → b.sources = c.sources → b.recipe = c.recipe → b.id = c.id) h.individual,
    hpair (fun b c => b.provenance = .markup → c.provenance = .markup → b.family = c.family →
      b.name = c.name → b.id = c.id) h.named, fun hr f => ?_⟩
  · obtain ⟨b, hb, hcore⟩ := hback hc
    exact (congrArg (·.id) hcore).symm.trans (h.numbered hb)
  · have hmarkup : (markupOf bundles' f).map Bundle.core = (markupOf bundles f).map Bundle.core := by
      rw [map_core_markupOf, map_core_markupOf, hcores]
    have hnames := congrArg (List.map (·.name)) hmarkup
    have hlength := congrArg List.length hmarkup
    rw [List.map_map, List.map_map] at hnames
    rw [List.length_map, List.length_map] at hlength
    rw [hlength, ← h.sequential hr f]
    exact hnames

/-- the names of the markup that were counted so far differ from the next one -/
theorem name_ne_next (h : Catalogue isRandom bundles) (hr : isRandom = false) {b : Bundle}
    (hb : b ∈ bundles) (hm : b.provenance = .markup) :
    b.name ≠ (toString (markupOf bundles b.family).length).toList := by
  intro heq
  have hname : b.name ∈ (markupOf bundles b.family).map (·.name) :=
    List.mem_map_of_mem (mem_markupOf.mpr ⟨hb, hm, rfl⟩)
  rw [h.sequential hr] at hname
  obtain ⟨n, hn, hname⟩ := List.mem_map.mp hname
  rw [heq] at hname
  exact absurd (toString_toList_inj hname) (Nat.ne_of_lt (List.mem_range.mp hn))

/-- two entries of the longer list that have something in common: both old or both new, unless an old
one has it in common with the new one -/
theorem id_eq_of_append {P : Bundle → Bundle → Prop} {x : Bundle}
    (hold : ∀ b ∈ bundles, ∀ c ∈ bundles, P b c → b.id = c.id)
    (hnew : ∀ c ∈ bundles, ¬ P c x ∧ ¬ P x c) :
    ∀ b ∈ bundles ++ [x], ∀ c ∈ bundles ++ [x], P b c → b.id = c.id := by
  intro b hb c hc hP
  rcases List.mem_append.mp hb with hb | hb <;> rcases List.mem_append.mp hc with hc | hc
  · exact hold b hb c hc hP
  · rw [List.mem_singleton.mp hc] at hP
    exact absurd hP (hnew b hb).1
  · rw [List.mem_singleton.mp hb] at hP
    exact absurd hP (hnew c hc).2
  · rw [List.mem_singleton.mp hb, List.mem_singleton.mp hc]

/-- a new entry behind the others, with a key and a name of its own -/
theorem append (h : Catalogue isRandom bundles) {x : Bundle} (hid : x.id = bundles.length)
    (hmarkup : x.provenance = .markup → ∀ c ∈ bundles, c.provenance = .markup →
      c.family = x.family → c.code ≠ x.code)
    (hindividual : x.provenance = .individual → ∀ c ∈ bundles, c.provenance = .individual →
      c.family = x.family → c.sources = x.sources → c.recipe ≠ x.recipe)
    (hrandom : isRandom = true → x.provenance = .markup → ∀ c ∈ bundles, c.name ≠ x.name)
    (hsequential : isRandom = false → x.provenance = .markup →
      x.name = (toString (markupOf bundles x.family).length).toList) :
    Catalogue isRandom (bundles ++ [x]) := by
  have hname : x.provenance = .markup → ∀ c ∈ bundles, c.provenance = .markup →
      c.family = x.family → c.name ≠ x.name := by
    intro hx c hc hcm hcf heq
    cases hr : isRandom with
    | true => exact hrandom hr hx c hc heq
    | false => exact h.name_ne_next hr hc hcm (by rw [heq, hsequential hr hx, hcf])
  refine ⟨id_of_getElem?_append h.numbered hid, fun b hb c hc h1 h2 h3 h4 => ?_,
    fun b hb c hc h1 h2 h3 h4 h5 => ?_, fun b hb c hc h1 h2 h3 h4 => ?_, fun hr f => ?_⟩
  · exact id_eq_of_append
      (P := fun b c => b.provenance = .markup ∧ c.provenance = .markup ∧ b.family = c.family ∧
        b.code = c.code)
      (fun b hb c hc hP => h.markup b hb c hc hP.1 hP.2.1 hP.2.2.1 hP.2.2.2)
      (fun c hc => ⟨fun hP => hmarkup hP.2.1 c hc hP.1 hP.2.2.1 hP.2.2.2,
        fun hP => hmarkup hP.1 c hc hP.2.1 hP.2.2.1.symm hP.2.2.2.symm⟩)
      b hb c hc ⟨h1, h2, h3, h4⟩
  · exact id_eq_of_append
      (P := fun b c => b.provenance = .individual ∧ c.provenance = .individual ∧
        b.family = c.family ∧ b.sources = c.sources ∧ b.recipe = c.recipe)
      (fun b hb c hc hP => h.individual b hb c hc hP.1 hP.2.1 hP.2.2.1 hP.2.2.2.1 hP.2.2.2.2)
      (fun c hc => ⟨fun hP => hindividual hP.2.1 c hc hP.1 hP.2.2.1 hP.2.2.2.1 hP.2.2.2.2,
        fun hP => hindividual hP.1 c hc hP.2.1 hP.2.2.1.symm hP.2.2.2.1.symm hP.2.2.2.2.symm⟩)
      b hb c hc ⟨h1, h2, h3, h4, h5⟩
  · exact id_eq_of_append
      (P := fun b c => b.provenance = .markup ∧ c.provenance = .markup ∧ b.family = c.family ∧
        b.name = c.name)
      (fun b hb c hc hP => h.named b hb c hc hP.1 hP.2.1 hP.2.2.1 hP.2.2.2)
      (fun c hc => ⟨fun hP => hname hP.2.1 c hc hP.1 hP.2.2.1 hP.2.2.2,
        fun hP => hname hP.1 c hc hP.2.1 hP.2.2.1.symm hP.2.2.2.symm⟩)
      b hb c hc ⟨h1, h2, h3, h4⟩
  · by_cases hx : x.provenance = .markup ∧ x.family = f
    · obtain ⟨hxm, rfl⟩ := hx
      rw [markupOf_append_of hxm, List.map_append, h.sequential hr, List.length_append,
        List.length_singleton, List.range_succ, List.map_append, List.map_singleton,
        List.map_singleton, hsequential hr hxm]
    · rw [markupOf_append_of_not hx]
      exact h.sequential hr f

end Catalogue

/-! ## Bundles and files -/

/-- the node is the file of the bundle: in the bundle directory, under the bundle's name, with the
bundle's code for its content -/
def Site.IsFileOf (s : Site) (id : NodeId) (b : Bundle) : Prop :=
  ∃ dir st, s.bundleDir = some dir ∧
    s.tree.node? id = some ⟨b.fileName, some dir, .file st⟩ ∧
    st.override = some b.code ∧ st.generated = true

/-- which bundle has which file -/
structure Filing (s : Site) : Prop where
  directory : ∀ dir, s.bundleDir = some dir →
    s.tree.node? dir = some ⟨s.options.get .bundleDirectory, some Tree.root, .folder⟩
  file : ∀ b ∈ s.bundles, b.provenance = .markup → ∀ id, b.node = some id → s.IsFileOf id b
  apart : ∀ b ∈ s.bundles, ∀ c ∈ s.bundles, b.provenance = .markup → c.provenance = .markup →
    ∀ id, b.node = some id → c.node = some id → b.id = c.id
  /-- the bundler makes files for nothing else -/
  generated : ∀ id st, s.tree.file id = .ok st → st.generated = true →
    ∃ b ∈ s.bundles, b.provenance = .markup ∧ b.node = some id
  inPlace : ∀ b ∈ s.bundles, b.provenance = .individual → b.isVirtual = false ∧ b.node ≠ none

/-- bookkeeping that leaves content and origin of a file alone -/
def FileState.SameContent (st st' : FileState) : Prop :=
  st'.override = st.override ∧ st'.generated = st.generated

theorem FileState.SameContent.refl (st : FileState) : st.SameContent st := ⟨rfl, rfl⟩

theorem exists_of_mem_set {α : Type} {l : List α} {i : Nat} {x a : α} (h : a ∈ l.set i x) :
    a = x ∨ ∃ j, j ≠ i ∧ l[j]? = some a := by
  obtain ⟨j, hj⟩ := List.mem_iff_getElem?.mp h
  rw [List.getElem?_set] at hj
  by_cases hij : i = j
  · rw [if_pos hij] at hj
    split at hj
    · exact .inl (Option.some.inj hj).symm
    · exact nomatch hj
  · rw [if_neg hij] at hj
    exact .inr ⟨j, Ne.symm hij, hj⟩

namespace Filing
variable {s : Site}

/-- the tree grows, without new files; a bundle directory may be found that there was none of -/
theorem of_grown (h : Filing s) {tree : Tree} {bundleDir : Option NodeId}
    (hgrown : s.tree.Grown FileState.SameContent tree)
    (hfile : ∀ id st, tree.file id = .ok st → st.generated = true →
      ∃ st', s.tree.file id = .ok st' ∧ st'.generated = true)
    (hkept : ∀ dir, s.bundleDir = some dir → bundleDir = some dir)
    (hdir : ∀ dir, bundleDir = some dir →
      tree.node? dir = some ⟨s.options.get .bundleDirectory, some Tree.root, .folder⟩) :
    Filing { s with tree, bundleDir } where
  directory := hdir
  file := fun b hb hm id hid => by
    obtain ⟨dir, st, hd, hn, hc, hg⟩ := h.file b hb hm id hid
    obtain ⟨st', hn', hc', hg'⟩ := hgrown.file hn
    exact ⟨dir, st', hkept dir hd, hn', hc'.trans hc, hg'.trans hg⟩
  apart := h.apart
  generated := fun id st hst hg => by
    obtain ⟨st', hst', hg'⟩ := hfile id st hst hg
    exact h.generated id st' hst' hg'
  inPlace := h.inPlace

/-- an entry without a file, or with one that is not made for it -/
theorem append (h : Filing s) {x : Bundle} {thrown : Nat}
    (hmarkup : x.provenance = .markup → x.node = none)
    (hindividual : x.provenance = .individual → x.isVirtual = false ∧ x.node ≠ none) :
    Filing { s with bundles := s.bundles ++ [x], thrown } := by
  -- no file of the markup is the new entry's
  have hold : ∀ b ∈ s.bundles ++ [x], b.provenance = .markup → ∀ id, b.node = some id →
      b ∈ s.bundles := by
    intro b hb hm id hid
    rcases List.mem_append.mp hb with hb | hb
    · exact hb
    · obtain rfl := List.mem_singleton.mp hb
      rw [hmarkup hm] at hid
      exact nomatch hid
  refine ⟨h.directory, fun b hb hm id hid => h.file b (hold b hb hm id hid) hm id hid,
    fun b hb c hc hbm hcm id hbid hcid =>
      h.apart b (hold b hb hbm id hbid) c (hold c hc hcm id hcid) hbm hcm id hbid hcid,
    fun id st hst hg => ?_, fun b hb hi => ?_⟩
  · obtain ⟨b, hb, hm⟩ := h.generated id st hst hg
    exact ⟨b, List.mem_append_left _ hb, hm⟩
  · rcases List.mem_append.mp hb with hb | hb
    · exact h.inPlace b hb hi
    · obtain rfl := List.mem_singleton.mp hb
      exact hindividual hi

/-- the bookkeeping of a file is changed, and the content only of a file that is no bundle's -/
theorem modifyFile (h : Filing s) {k : NodeId} {f : FileState → FileState} {tree : Tree}
    (htree : s.tree.modifyFile k f = .ok tree) (hmade : ∀ st, (f st).generated = st.generated)
    (hcontent : ∀ st, s.tree.file k = .ok st → st.generated = true →
      (f st).override = st.override) : Filing { s with tree } := by
  obtain ⟨name, parent, st, hn, -, -, hnode⟩ := Tree.exists_modifyFile htree
  have hst := Tree.file_eq_ok_iff.mpr ⟨name, parent, hn⟩
  refine ⟨fun dir hdir => ?_, fun b hb hm id hid => ?_, h.apart, fun id st' hst' hg => ?_, h.inPlace⟩
  · have hfolder := h.directory dir hdir
    refine (hnode dir).trans (if_neg ?_ |>.trans hfolder)
    rintro rfl
    exact nomatch (Node.mk.inj (Option.some.inj (hn.symm.trans hfolder))).2.2
  · obtain ⟨dir, st', hdir, hn', hc, hg⟩ := h.file b hb hm id hid
    by_cases hk : id = k
    · subst hk
      obtain ⟨rfl, rfl, hkind⟩ := Node.mk.inj (Option.some.inj (hn.symm.trans hn'))
      obtain rfl := NodeKind.file.inj hkind
      refine ⟨dir, f st, hdir, (hnode id).trans (if_pos rfl), ?_, (hmade st).trans hg⟩
      exact (hcontent st hst hg).trans hc
    · exact ⟨dir, st', hdir, (hnode id).trans (if_neg hk |>.trans hn'), hc, hg⟩
  · obtain ⟨name', parent', hn'⟩ := Tree.file_eq_ok_iff.mp hst'
    replace hn' := (hnode id).symm.trans hn'
    split at hn'
    · rename_i hk
      obtain ⟨-, -, hkind⟩ := Node.mk.inj (Option.some.inj hn')
      rw [← NodeKind.file.inj hkind, hmade] at hg
      exact h.generated id st (hk ▸ hst) hg
    · exact h.generated id st' (Tree.file_eq_ok_iff.mpr ⟨name', parent', hn'⟩) hg

/-- a bundle directory is found -/
theorem find (h : Filing s) (hnone : s.bundleDir = none) {dir : NodeId}
    (hn : s.tree.node? dir = some ⟨s.options.get .bundleDirectory, some Tree.root, .folder⟩) :
    Filing { s with bundleDir := some dir } := by
  refine h.of_grown (.refl .refl _) (fun id st hst hg => ⟨st, hst, hg⟩) (fun _ hd => ?_) ?_
  · rw [hnone] at hd
    exact nomatch hd
  · rintro _ ⟨⟩
    exact hn

/-- a bundle directory is made -/
theorem make (h : Filing s) (hnone : s.bundleDir = none) :
    Filing { s with
      tree := (s.tree.addFolder Tree.root (s.options.get .bundleDirectory)).1
      bundleDir := some s.tree.nodes.size } := by
  refine h.of_grown (.add .refl _ _ _) (fun id st hst hg => ?_) (fun _ hd => ?_) ?_
  · obtain ⟨name, parent, hn⟩ := Tree.file_eq_ok_iff.mp hst
    rw [Tree.addFolder, Tree.node?_add] at hn
    split at hn
    · exact nomatch hn
    · exact ⟨st, Tree.file_eq_ok_iff.mpr ⟨name, parent, hn⟩, hg⟩
  · rw [hnone] at hd
    exact nomatch hd
  · rintro _ ⟨⟩
    exact Tree.node?_add_self

/-- a bundle from markup without a file gets one -/
theorem putFile (h : Filing s) {dir : NodeId} {id : BundleId} {b : Bundle}
    (hdir : s.bundleDir = some dir) (hb : s.bundles[id]? = some b) (hm : b.provenance = .markup)
    (hnode : b.node = none) :
    Filing { s with
      tree := (s.tree.addFile dir b.fileName b.code).1
      bundles := s.bundles.set id
        { b with isVirtual := false, node := some s.tree.nodes.size } } := by
  -- the file's number is new, so it is no other bundle's
  have hnew : ∀ c ∈ s.bundles, c.provenance = .markup → c.node ≠ some s.tree.nodes.size := by
    intro c hc hcm hcn
    obtain ⟨_, _, -, hn, -⟩ := h.file c hc hcm _ hcn
    rw [Tree.node?_size] at hn
    exact nomatch hn
  have hlt : id < s.bundles.length := (List.getElem?_eq_some_iff.mp hb).1
  refine ⟨fun d hd => Tree.node?_add_of_some (h.directory d hd), fun c hc hcm n hn => ?_,
    fun c hc c' hc' hcm hcm' n hn hn' => ?_, fun n st hst hg => ?_, fun c hc hi => ?_⟩
  · rcases exists_of_mem_set hc with rfl | ⟨j, -, hj⟩
    · obtain rfl := Option.some.inj hn
      exact ⟨dir, _, hdir, Tree.node?_add_self, rfl, rfl⟩
    · obtain ⟨d, st, hd, hnode, hcontent⟩ := h.file c (List.mem_of_getElem? hj) hcm n hn
      exact ⟨d, st, hd, Tree.node?_add_of_some hnode, hcontent⟩
  · rcases exists_of_mem_set hc with rfl | ⟨j, -, hj⟩ <;>
      rcases exists_of_mem_set hc' with rfl | ⟨j', -, hj'⟩
    · rfl
    · obtain rfl := Option.some.inj hn
      exact absurd hn' (hnew c' (List.mem_of_getElem? hj') hcm')
    · obtain rfl := Option.some.inj hn'
      exact absurd hn (hnew c (List.mem_of_getElem? hj) hcm)
    · exact h.apart c (List.mem_of_getElem? hj) c' (List.mem_of_getElem? hj') hcm hcm' n hn hn'
  · obtain ⟨name, parent, hn⟩ := Tree.file_eq_ok_iff.mp hst
    rw [Tree.addFile, Tree.node?_add] at hn
    split at hn
    · rename_i hsize
      exact ⟨_, List.mem_set hlt _, hm, hsize ▸ rfl⟩
    · obtain ⟨c, hc, hcm, hcn⟩ := h.generated n st (Tree.file_eq_ok_iff.mpr ⟨_, _, hn⟩) hg
      obtain ⟨j, hj⟩ := List.mem_iff_getElem?.mp hc
      have hji : id ≠ j := by
        rintro rfl
        obtain rfl := Option.some.inj (hb.symm.trans hj)
        rw [hnode] at hcn
        exact nomatch hcn
      refine ⟨c, List.mem_of_getElem? (i := j) ?_, hcm, hcn⟩
      rw [List.getElem?_set, if_neg hji, hj]
  · rcases exists_of_mem_set hc with rfl | ⟨j, -, hj⟩
    · rw [hm] at hi
      exact nomatch hi
    · exact h.inPlace c (List.mem_of_getElem? hj) hi

end Filing

/-- the bundle directory is found or made, and bundles have nothing to do with it -/
theorem ends_bundleDirectory {s : Site} (h : Filing s) :
    Ends bundleDirectory s (fun dir t => Filing t ∧ t.bundleDir = some dir ∧
      t.bundles = s.bundles ∧ t.options = s.options) fun _ _ => False := by
  unfold bundleDirectory
  rw [ends_bind, ends_get]
  cases hdir : s.bundleDir with
  | some dir => exact ⟨h, hdir, rfl, rfl⟩
  | none =>
    cases hfound : (s.tree.childNamed? Tree.root (s.options.get .bundleDirectory)).filter
        fun id => !s.tree.isFile id with
    | some dir =>
      have hn := Tree.folder_of_childNamed? hfound
      simp only [hfound, ends_bind, ends_set, ends_pure, and_true]
      exact h.find hdir hn
    | none =>
      simp only [hfound, ends_bind, ends_set, ends_pure, and_true]
      exact h.make hdir

theorem bundle_eq_ok_iff {s : Site} {id : BundleId} {b : Bundle} :
    s.bundle id = .ok b ↔ s.bundles[id]? = some b := by
  unfold Site.bundle
  cases h : s.bundles[id]? <;> simp

/-- a bundle from markup without a file gets one -/
theorem ends_materialize {s : Site} (h : Filing s) {id : BundleId} {b : Bundle}
    (hb : s.bundles[id]? = some b) (hm : b.provenance = .markup) (hnode : b.node = none) :
    Ends (materialize id) s (fun node t => Filing t ∧ t.options = s.options ∧
      t.bundles = s.bundles.set id { b with isVirtual := false, node := some node })
      fun _ _ => False := by
  unfold materialize
  rw [ends_bind]
  refine (ends_bundleDirectory h).mono (fun dir t ht => ?_) fun _ _ he => he
  obtain ⟨ht, hdir, hbundles, hoptions⟩ := ht
  have hbt : t.bundles[id]? = some b := hbundles ▸ hb
  simp only [ends_bind, ends_get, ends_lift, bundle_eq_ok_iff.mpr hbt, ends_set, ends_pure]
  exact ⟨ht.putFile hdir hbt hm hnode, hoptions, by rw [hbundles]⟩

/-! ## Both -/

/-- what holds of the bundles of a site -/
structure Registry (s : Site) : Prop where
  catalogue : Catalogue (s.options.get .randomBundleNames) s.bundles
  filing : Filing s
  isVirtual_iff : ∀ b ∈ s.bundles, b.provenance = .markup → (b.isVirtual = true ↔ b.node = none)

end SiteBundle
