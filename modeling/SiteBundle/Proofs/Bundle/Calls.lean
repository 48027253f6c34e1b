import SiteBundle.Proofs.Bundle.Registered
import SiteBundle.Proofs.Tree.Pristine

/-!
# Sequences of requests

`Call` is what may be asked of the bundles of a site: a bundle for a request, a file for a bundle, and
the note that files went into a bundle.  `Site.calls` answers a list of calls one after the other; a
call that fails keeps what it did before it failed.

A call keeps the `Registry` (`Registry.call`), and so does every sequence of calls
(`registry_calls`); every request is answered by a bundle that `Answers` it.

Drawing a name may go on for ever when every name of twelve digits begins the name of a bundle.
`Site.Returns` says that it does not happen during a list of calls.  It cannot happen when names are
counted (`returns_of_sequential`), nor with fewer bundles than names (`returns_of_length`).
-/

namespace SiteBundle

open Site

inductive Call where
  | create (r : Request)
  | ensureReal (id : BundleId)
  | addMembership (id : BundleId) (sources : List NodeId)

def Call.work : Call → Work Unit
  | .create r => do let _ ← createOrReuse r
  | .ensureReal id => do let _ ← Site.ensureReal id
  | .addMembership id sources => Site.addMembership id sources

namespace Site

/-- the site that a call leaves, answered or not -/
def call (s : Site) (c : Call) : Site := (c.work s).2

def calls (s : Site) (cs : List Call) : Site := cs.foldl call s

/-- a name that the request draws is found -/
def ReturnsTo (s : Site) (r : Request) : Prop :=
  s.options.get .randomBundleNames = true → s.existing? r = none →
    ∃ n, IsFree s.bundles (hexName n)

/-- the names that the calls draw are found -/
def Returns (s : Site) : List Call → Prop
  | [] => True
  | c :: cs => (∀ r, c = .create r → s.ReturnsTo r) ∧ (s.call c).Returns cs

end Site

/-- the bundle is what the request asks for -/
def Request.Answers (r : Request) (b : Bundle) : Prop :=
  b.family = r.family ∧
    match r.placement with
    | .inline => b.provenance = .markup ∧ b.code = r.code
    | .bundleDirectory => b.provenance = .markup ∧ b.code = r.code ∧ b.isVirtual = false
    | .inPlace _ => b.provenance = .individual ∧ b.sources = r.sources ∧ b.recipe = r.recipe

/-! ## What was asked for before -/

variable {s t : Site} {r : Request} {id : BundleId} {b : Bundle}

theorem findMarkup?_eq_some {f : Family} {code : Text}
    (h : ∀ {i : Nat} {b : Bundle}, s.bundles[i]? = some b → b.id = i)
    (hid : s.findMarkup? f code = some id) :
    ∃ b, s.bundles[id]? = some b ∧ b.provenance = .markup ∧ b.family = f ∧ b.code = code := by
  obtain ⟨b, hb, hq⟩ := exists_of_find? h hid
  simp only [Bool.and_eq_true, beq_iff_eq] at hq
  exact ⟨b, hb, hq.1.1, hq.1.2, hq.2⟩

theorem findMarkup?_eq_none {f : Family} {code : Text} (h : s.findMarkup? f code = none) :
    ∀ c ∈ s.bundles, c.provenance = .markup → c.family = f → c.code ≠ code := by
  intro c hc hm hf hcode
  have hnot := List.find?_eq_none.mp (Option.map_eq_none_iff.mp h) c hc
  simp only [Bool.and_eq_true, beq_iff_eq] at hnot
  exact hnot ⟨⟨hm, hf⟩, hcode⟩

theorem findIndividual?_eq_some {f : Family} {sources : List NodeId} {recipe : Recipe}
    (h : ∀ {i : Nat} {b : Bundle}, s.bundles[i]? = some b → b.id = i)
    (hid : s.findIndividual? f sources recipe = some id) :
    ∃ b, s.bundles[id]? = some b ∧ b.provenance = .individual ∧ b.family = f ∧
      b.sources = sources ∧ b.recipe = recipe := by
  obtain ⟨b, hb, hq⟩ := exists_of_find? h hid
  simp only [Bool.and_eq_true, beq_iff_eq] at hq
  exact ⟨b, hb, hq.1.1.1, hq.1.1.2, hq.1.2, hq.2⟩

theorem findIndividual?_eq_none {f : Family} {sources : List NodeId} {recipe : Recipe}
    (h : s.findIndividual? f sources recipe = none) :
    ∀ c ∈ s.bundles, c.provenance = .individual → c.family = f → c.sources = sources →
      c.recipe ≠ recipe := by
  intro c hc hi hf hsources hrecipe
  have hnot := List.find?_eq_none.mp (Option.map_eq_none_iff.mp h) c hc
  simp only [Bool.and_eq_true, beq_iff_eq] at hnot
  exact hnot ⟨⟨⟨hi, hf⟩, hsources⟩, hrecipe⟩

/-! ## One call -/

/-- a bundle from markup without a file gets one, and everything else stays as it is -/
theorem ends_materialize_registry (hcat : Catalogue (s.options.get .randomBundleNames) s.bundles)
    (hfil : Filing s)
    (hmarks : ∀ c ∈ s.bundles, c.id ≠ id → c.provenance = .markup →
      (c.isVirtual = true ↔ c.node = none))
    (hb : s.bundles[id]? = some b) (hm : b.provenance = .markup) (hnode : b.node = none) :
    Ends (materialize id) s (fun _ t => Registry t ∧ s.Grew t ∧
      t.bundles.length = s.bundles.length ∧
      ∃ c, t.bundles[id]? = some c ∧ b.Keeps c ∧ c.isVirtual = false) fun _ _ => False := by
  refine (ends_materialize hfil hb hm hnode).mono (fun node t ht => ?_) fun _ _ he => he
  obtain ⟨hfil', hoptions, hbundles⟩ := ht
  have hlt : id < s.bundles.length := (List.getElem?_eq_some_iff.mp hb).1
  have hkeeps : b.Keeps { b with isVirtual := false, node := some node } :=
    ⟨rfl, fun n hn => absurd (hnode.symm.trans hn) nofun, fun _ => rfl⟩
  have hself : t.bundles[id]? = some { b with isVirtual := false, node := some node } := by
    rw [hbundles, List.getElem?_set, if_pos rfl, if_pos hlt]
  have hgrew : s.Grew t := by
    refine ⟨hoptions, fun {i c} hc => ?_⟩
    by_cases hi : id = i
    · subst hi
      obtain rfl := Option.some.inj (hb.symm.trans hc)
      exact ⟨_, hself, hkeeps⟩
    · exact ⟨c, by rw [hbundles, List.getElem?_set, if_neg hi, hc], .refl c⟩
  have hlen : t.bundles.length = s.bundles.length := by
    rw [hbundles, List.length_set]
  refine ⟨⟨?_, hfil', fun c hc hcm => ?_⟩, hgrew, hlen, _, hself, hkeeps, rfl⟩
  · rw [hoptions]
    exact hcat.of_keeps hlen hgrew.bundle
  · rw [hbundles] at hc
    rcases exists_of_mem_set hc with rfl | ⟨j, hj, hcj⟩
    · exact ⟨nofun, nofun⟩
    · exact hmarks c (List.mem_of_getElem? hcj) (hcat.numbered hcj ▸ hj) hcm

theorem ends_ensureReal (h : Registry s) (hb : s.bundles[id]? = some b) :
    Ends (Site.ensureReal id) s (fun _ t => Registry t ∧ s.Grew t ∧
      t.bundles.length = s.bundles.length ∧
      ∃ c, t.bundles[id]? = some c ∧ b.Keeps c ∧ c.isVirtual = false) fun _ _ => False := by
  unfold Site.ensureReal
  simp only [ends_bind, ends_get, ends_lift, bundle_eq_ok_iff.mpr hb]
  have hmem := List.mem_of_getElem? hb
  cases hm : b.provenance with
  | individual =>
    obtain ⟨hv, hn⟩ := h.filing.inPlace b hmem hm
    obtain ⟨node, hnode⟩ := Option.ne_none_iff_exists'.mp hn
    simp only [hnode, ends_pure]
    exact ⟨h, .refl s, trivial, b, hb, .refl b, hv⟩
  | markup =>
    cases hnode : b.node with
    | some node =>
      simp only [ends_pure]
      have hv : b.isVirtual = false := by
        rw [← Bool.not_eq_true, h.isVirtual_iff b hmem hm, hnode]
        exact Option.some_ne_none node
      exact ⟨h, .refl s, trivial, b, hb, .refl b, hv⟩
    | none =>
      exact ends_materialize_registry h.catalogue h.filing
        (fun c hc _ => h.isVirtual_iff c hc) hb hm hnode

theorem grew_append (s : Site) (x : Bundle) (thrown : Nat) :
    s.Grew { s with bundles := s.bundles ++ [x], thrown } := by
  refine ⟨rfl, fun {i c} hc => ⟨c, ?_, .refl c⟩⟩
  show (s.bundles ++ [x])[i]? = some c
  rw [List.getElem?_append_left (List.getElem?_eq_some_iff.mp hc).1, hc]

/-- the entry that a request makes -/
def Request.entry (r : Request) (id : BundleId) (name : Text) : Bundle :=
  match r.placement with
  | .inPlace file =>
    ⟨id, name, r.family, r.code, r.sources, r.recipe, .individual, false, some file⟩
  | p => ⟨id, name, r.family, r.code, r.sources, r.recipe, .markup, p == .inline, none⟩

/-- the name that a new bundle gets for a request -/
def Request.Names (r : Request) (s : Site) (name : Text) : Prop :=
  match r.placement with
  | .inPlace file => name = s.tree.relativePath file
  | _ =>
    if s.options.get .randomBundleNames then ∃ n, name = freshName s.bundles n
    else name = (toString (markupOf s.bundles r.family).length).toList

/-- a request for the markup gets a name that is drawn or counted -/
theorem Request.names_iff (hplace : ∀ file, r.placement ≠ .inPlace file) {name : Text} :
    r.Names s name ↔ if s.options.get .randomBundleNames then ∃ n, name = freshName s.bundles n
      else name = (toString (markupOf s.bundles r.family).length).toList := by
  unfold Request.Names
  cases hp : r.placement with
  | inPlace file => exact absurd hp (hplace file)
  | inline => exact Iff.rfl
  | bundleDirectory => exact Iff.rfl

theorem ends_newName (hplace : ∀ file, r.placement ≠ .inPlace file) :
    Ends (newName r.family) s (fun name t => r.Names s name ∧
      (t = s ∨ t = { s with thrown := s.thrown + 1 })) fun _ _ => False := by
  unfold newName
  rw [ends_bind, ends_get]
  cases hr : s.options.get .randomBundleNames with
  | true =>
    rw [if_pos rfl]
    refine ⟨(Request.names_iff hplace).mpr ?_, .inr rfl⟩
    rw [if_pos hr]
    exact ⟨_, rfl⟩
  | false =>
    rw [if_neg nofun]
    refine ⟨(Request.names_iff hplace).mpr ?_, .inl rfl⟩
    rw [if_neg (by rw [hr]; exact nofun)]
    rfl

/-- an entry for the markup has no file yet -/
theorem Request.node_entry {i : BundleId} {name : Text} (h : (r.entry i name).provenance = .markup) :
    (r.entry i name).node = none := by
  unfold Request.entry at h ⊢
  cases hp : r.placement with
  | inPlace file =>
    rw [hp] at h
    exact nomatch h
  | inline => rfl
  | bundleDirectory => rfl

/-- an entry for a file has that file -/
theorem Request.isVirtual_entry {i : BundleId} {name : Text}
    (h : (r.entry i name).provenance = .individual) :
    (r.entry i name).isVirtual = false ∧ (r.entry i name).node ≠ none := by
  unfold Request.entry at h ⊢
  cases hp : r.placement with
  | inPlace file => exact ⟨rfl, nofun⟩
  | inline =>
    rw [hp] at h
    exact nomatch h
  | bundleDirectory =>
    rw [hp] at h
    exact nomatch h

/-- a new entry keeps the files in order; it has no file yet, or one that is not made for it -/
theorem Filing.enter (h : Filing s) (r : Request) (name : Text) (thrown : Nat) :
    Filing { s with bundles := s.bundles ++ [r.entry s.bundles.length name], thrown } :=
  h.append Request.node_entry Request.isVirtual_entry

/-- a new entry keeps the list in order -/
theorem Catalogue.enter (hcat : Catalogue (s.options.get .randomBundleNames) s.bundles)
    (hnone : s.existing? r = none) (hr : s.ReturnsTo r) {name : Text} (hname : r.Names s name) :
    Catalogue (s.options.get .randomBundleNames)
      (s.bundles ++ [r.entry s.bundles.length name]) := by
  unfold existing? at hnone
  unfold ReturnsTo existing? at hr
  -- an entry for the markup, its name drawn or counted
  have hmarkup : ∀ isVirtual : Bool, s.findMarkup? r.family r.code = none →
      (s.options.get .randomBundleNames = true → ∃ n, IsFree s.bundles (hexName n)) →
      (if s.options.get .randomBundleNames then ∃ n, name = freshName s.bundles n
        else name = (toString (markupOf s.bundles r.family).length).toList) →
      Catalogue (s.options.get .randomBundleNames) (s.bundles ++ [⟨s.bundles.length, name, r.family,
        r.code, r.sources, r.recipe, .markup, isVirtual, none⟩]) := by
    intro isVirtual hnone hfree hname
    refine hcat.append rfl (fun _ => findMarkup?_eq_none hnone) nofun
      (fun hrandom _ c hc heq => ?_) (fun hseq _ => ?_)
    · rw [if_pos hrandom] at hname
      obtain ⟨n, rfl⟩ := hname
      exact isFree_freshName (hfree hrandom) n c hc (heq ▸ List.prefix_refl _)
    · rwa [if_neg (by rw [hseq]; exact nofun)] at hname
  unfold Request.entry
  unfold Request.Names at hname
  cases hp : r.placement with
  | inPlace file =>
    simp only [hp] at hnone
    exact hcat.append rfl nofun (fun _ => findIndividual?_eq_none hnone) nofun nofun
  | inline =>
    simp only [hp] at hnone hr hname
    exact hmarkup true hnone (fun hrandom => hr hrandom hnone) hname
  | bundleDirectory =>
    simp only [hp] at hnone hr hname
    exact hmarkup false hnone (fun hrandom => hr hrandom hnone) hname

/-- the entry for the markup, under the name that it gets -/
theorem ends_newName_entry (hplace : ∀ file, r.placement ≠ .inPlace file) :
    Ends (newName r.family) s (fun name t => t.bundles.length = s.bundles.length ∧
      r.Names s name ∧ ∃ thrown,
        { t with bundles := t.bundles ++ [r.entry t.bundles.length name] } =
          { s with bundles := s.bundles ++ [r.entry t.bundles.length name], thrown })
      fun _ _ => False := by
  refine (ends_newName hplace).mono (fun name t h => ?_) fun _ _ he => he
  obtain ⟨hname, rfl | rfl⟩ := h
  · exact ⟨rfl, hname, t.thrown, rfl⟩
  · exact ⟨rfl, hname, s.thrown + 1, rfl⟩

/-- the new entry is the last one, under a name of its own -/
theorem ends_addBundle (r : Request) (s : Site) :
    Ends (addBundle r) s (fun id t => id = s.bundles.length ∧ ∃ name, r.Names s name ∧ ∃ thrown,
      t = { s with bundles := s.bundles ++ [r.entry id name], thrown }) fun _ _ => False := by
  have hmarkup := ends_newName_entry (r := r) (s := s)
  unfold addBundle
  unfold Request.entry at hmarkup ⊢
  cases hp : r.placement with
  | inPlace file =>
    simp only [ends_bind, ends_get, ends_pure, ends_set, true_and]
    exact ⟨_, by rw [Request.Names, hp], s.thrown, rfl⟩
  | inline =>
    rw [hp] at hmarkup
    simp only [ends_bind]
    refine (hmarkup fun _ h => by cases h).mono (fun name t h => ?_) fun _ _ he => he
    exact ⟨h.1, name, h.2⟩
  | bundleDirectory =>
    rw [hp] at hmarkup
    simp only [ends_bind]
    refine (hmarkup fun _ h => by cases h).mono (fun name t h => ?_) fun _ _ he => he
    exact ⟨h.1, name, h.2⟩

/-- an entry that needs no file of its own is marked as it has to be -/
theorem Request.isVirtual_iff_entry (hplace : r.placement ≠ .bundleDirectory) {i : BundleId}
    {name : Text} (h : (r.entry i name).provenance = .markup) :
    (r.entry i name).isVirtual = true ↔ (r.entry i name).node = none := by
  unfold Request.entry at h ⊢
  cases hp : r.placement with
  | inPlace file =>
    rw [hp] at h
    exact nomatch h
  | inline => exact ⟨fun _ => rfl, fun _ => rfl⟩
  | bundleDirectory => exact absurd hp hplace

theorem Request.id_entry (r : Request) (i : BundleId) (name : Text) : (r.entry i name).id = i := by
  unfold Request.entry
  cases r.placement <;> rfl

/-- a new entry answers its request, once it has the file that it needs -/
theorem Request.answers_of_keeps_entry {i : BundleId} {name : Text} {c : Bundle}
    (hk : (r.entry i name).Keeps c)
    (hv : r.placement = .bundleDirectory → c.isVirtual = false) : r.Answers c := by
  have hcore := hk.core
  unfold Request.entry at hcore
  unfold Request.Answers
  cases hp : r.placement with
  | inPlace file =>
    rw [hp] at hcore
    exact ⟨congrArg (·.family) hcore, congrArg (·.provenance) hcore, congrArg (·.sources) hcore,
      congrArg (·.recipe) hcore⟩
  | inline =>
    rw [hp] at hcore
    exact ⟨congrArg (·.family) hcore, congrArg (·.provenance) hcore, congrArg (·.code) hcore⟩
  | bundleDirectory =>
    rw [hp] at hcore
    exact ⟨congrArg (·.family) hcore, congrArg (·.provenance) hcore, congrArg (·.code) hcore, hv hp⟩

/-- so does an equal bundle that is there -/
theorem Request.answers_of_keeps_existing
    (h : ∀ {i : Nat} {b : Bundle}, s.bundles[i]? = some b → b.id = i)
    (hid : s.existing? r = some id) :
    ∃ b, s.bundles[id]? = some b ∧ ∀ c, b.Keeps c →
      (r.placement = .bundleDirectory → c.isVirtual = false) → r.Answers c := by
  unfold existing? at hid
  unfold Request.Answers
  cases hp : r.placement with
  | inPlace file =>
    simp only [hp] at hid
    obtain ⟨b, hb, hi, hf, hs, hrecipe⟩ := findIndividual?_eq_some h hid
    exact ⟨b, hb, fun c hk _ => ⟨(congrArg (·.family) hk.core).trans hf,
      (congrArg (·.provenance) hk.core).trans hi, (congrArg (·.sources) hk.core).trans hs,
      (congrArg (·.recipe) hk.core).trans hrecipe⟩⟩
  | inline =>
    simp only [hp] at hid
    obtain ⟨b, hb, hm, hf, hc⟩ := findMarkup?_eq_some h hid
    exact ⟨b, hb, fun c hk _ => ⟨(congrArg (·.family) hk.core).trans hf,
      (congrArg (·.provenance) hk.core).trans hm, (congrArg (·.code) hk.core).trans hc⟩⟩
  | bundleDirectory =>
    simp only [hp] at hid
    obtain ⟨b, hb, hm, hf, hc⟩ := findMarkup?_eq_some h hid
    exact ⟨b, hb, fun c hk hv => ⟨(congrArg (·.family) hk.core).trans hf,
      (congrArg (·.provenance) hk.core).trans hm, (congrArg (·.code) hk.core).trans hc, hv rfl⟩⟩

/-- the marks of a longer list, where the new entry's is looked at by itself -/
theorem Registry.isVirtual_iff_append (h : Registry s) {x c : Bundle} (hc : c ∈ s.bundles ++ [x])
    (hx : c = x → c.provenance = .markup → (c.isVirtual = true ↔ c.node = none)) :
    c.provenance = .markup → (c.isVirtual = true ↔ c.node = none) := by
  rcases List.mem_append.mp hc with hc | hc
  · exact h.isVirtual_iff c hc
  · exact hx (List.mem_singleton.mp hc)

/-- what is asked for is there afterwards -/
theorem ends_createOrReuse (h : Registry s) (hr : s.ReturnsTo r) :
    Ends (createOrReuse r) s (fun id t => Registry t ∧ s.Grew t ∧
      t.bundles.length ≤ s.bundles.length + 1 ∧
      ∃ b, t.bundles[id]? = some b ∧ r.Answers b) fun _ _ => False := by
  unfold createOrReuse
  rw [ends_bind, ends_get]
  cases hex : s.existing? r with
  | some id =>
    obtain ⟨b, hb, hanswers⟩ := Request.answers_of_keeps_existing h.catalogue.numbered hex
    by_cases hp : r.placement = .bundleDirectory
    · simp only [if_pos hp, ends_bind, ends_pure]
      refine (ends_ensureReal h hb).mono (fun _ t ht => ?_) fun _ _ he => he
      obtain ⟨ht, hgrew, hlen, c, hc, hk, hv⟩ := ht
      exact ⟨ht, hgrew, hlen ▸ Nat.le_succ _, c, hc, hanswers c hk fun _ => hv⟩
    · simp only [if_neg hp, ends_pure]
      exact ⟨h, .refl s, Nat.le_succ _, b, hb, hanswers b (.refl b) (absurd · hp)⟩
  | none =>
    simp only [ends_bind]
    refine (ends_addBundle r s).mono (fun id t ht => ?_) fun _ _ he => he
    obtain ⟨rfl, name, hname, thrown, rfl⟩ := ht
    have hcat := h.catalogue.enter hex hr hname
    have hfil := h.filing.enter r name thrown
    have hlast : (s.bundles ++ [r.entry s.bundles.length name])[s.bundles.length]? =
        some (r.entry s.bundles.length name) := List.getElem?_concat_length
    have hlen : (s.bundles ++ [r.entry s.bundles.length name]).length = s.bundles.length + 1 :=
      List.length_append
    by_cases hp : r.placement = .bundleDirectory
    · simp only [if_pos hp, ends_bind, ends_pure]
      have hm : (r.entry s.bundles.length name).provenance = .markup := by rw [Request.entry, hp]
      -- until it gets its file, the new entry is the only one whose mark is wrong
      have hmarks : ∀ c ∈ s.bundles ++ [r.entry s.bundles.length name], c.id ≠ s.bundles.length →
          c.provenance = .markup → (c.isVirtual = true ↔ c.node = none) := fun c hc hne =>
        h.isVirtual_iff_append hc fun heq => absurd (heq ▸ r.id_entry _ name) hne
      refine (ends_materialize_registry hcat hfil hmarks hlast hm (Request.node_entry hm)).mono
        (fun _ t ht => ?_) fun _ _ he => he
      obtain ⟨ht, hgrew, hlen', c, hc, hk, hv⟩ := ht
      exact ⟨ht, (grew_append s _ thrown).trans hgrew, Nat.le_of_eq (hlen'.trans hlen), c, hc,
        Request.answers_of_keeps_entry hk fun _ => hv⟩
    · simp only [if_neg hp, ends_pure]
      have hmarks : ∀ c ∈ s.bundles ++ [r.entry s.bundles.length name], c.provenance = .markup →
          (c.isVirtual = true ↔ c.node = none) := fun c hc =>
        h.isVirtual_iff_append hc fun heq hm => by
          subst heq
          exact Request.isVirtual_iff_entry hp hm
      exact ⟨⟨hcat, hfil, hmarks⟩, grew_append s _ thrown, Nat.le_of_eq hlen, _, hlast,
        Request.answers_of_keeps_entry (.refl _) (absurd · hp)⟩

/-- a note about a source changes nothing about bundles, and may fail -/
theorem ends_addMembership (h : Registry s) {sources : List NodeId} :
    Ends (Site.addMembership id sources) s
      (fun _ t => Registry t ∧ s.Grew t ∧ t.bundles = s.bundles)
      fun _ t => Registry t ∧ s.Grew t ∧ t.bundles = s.bundles := by
  refine ends_forM (I := fun t => Registry t ∧ s.Grew t ∧ t.bundles = s.bundles)
    ⟨h, .refl s, rfl⟩ fun source _ t ht => ?_
  obtain ⟨ht, hgrew, hbundles⟩ := ht
  rw [ends_changeTree]
  unfold Tree.addMembership
  cases hm : t.tree.modifyFile source fun st => { st with bundles := Tree.insertId id st.bundles } with
  | error e => exact ⟨ht, hgrew, hbundles⟩
  | ok tree =>
    have hfil : Filing { t with tree } := ht.filing.modifyFile hm (fun _ => rfl) fun _ _ _ => rfl
    exact ⟨⟨ht.catalogue, hfil, ht.isVirtual_iff⟩, ⟨hgrew.options, hgrew.bundle⟩, hbundles⟩

/-- a call keeps what holds of the bundles, whether it is answered or not -/
theorem Registry.call (h : Registry s) {c : Call} (hc : ∀ r, c = .create r → s.ReturnsTo r) :
    Registry (s.call c) ∧ s.Grew (s.call c) ∧
      (s.call c).bundles.length ≤ s.bundles.length + 1 := by
  refine Ends.site (R := fun t => Registry t ∧ s.Grew t ∧ t.bundles.length ≤ s.bundles.length + 1) ?_
  cases c with
  | create r =>
    simp only [Call.work, ends_bind, ends_pure]
    exact (ends_createOrReuse h (hc r rfl)).mono (fun _ _ ht => ⟨ht.1, ht.2.1, ht.2.2.1⟩)
      fun _ _ he => he.elim
  | ensureReal id =>
    simp only [Call.work, ends_bind, ends_pure]
    cases hb : s.bundles[id]? with
    | some b =>
      exact (ends_ensureReal h hb).mono
        (fun _ _ ht => ⟨ht.1, ht.2.1, ht.2.2.1 ▸ Nat.le_succ _⟩) fun _ _ he => he.elim
    | none =>
      unfold Site.ensureReal Site.bundle
      simp only [ends_bind, ends_get, ends_lift, hb]
      exact ⟨h, .refl s, Nat.le_succ _⟩
  | addMembership id sources =>
    exact (ends_addMembership h).mono
      (fun _ _ ht => ⟨ht.1, ht.2.1, ht.2.2 ▸ Nat.le_succ _⟩)
      fun _ _ ht => ⟨ht.1, ht.2.1, ht.2.2 ▸ Nat.le_succ _⟩

/-! ## Any number of calls -/

theorem Registry.calls (h : Registry s) {cs : List Call} (hcs : s.Returns cs) :
    Registry (s.calls cs) ∧ s.Grew (s.calls cs) := by
  induction cs generalizing s with
  | nil => exact ⟨h, .refl s⟩
  | cons c cs ih =>
    obtain ⟨hcall, hgrew, -⟩ := h.call hcs.1
    obtain ⟨hcalls, hgrew'⟩ := ih hcall hcs.2
    exact ⟨hcalls, hgrew.trans hgrew'⟩

theorem returns_append {as bs : List Call} :
    s.Returns (as ++ bs) ↔ s.Returns as ∧ (s.calls as).Returns bs := by
  induction as generalizing s with
  | nil => exact (iff_of_eq (true_and _)).symm
  | cons a as ih => exact (and_congr_right' ih).trans and_assoc.symm

/-- a site at the beginning, its tree without files of the bundler's own -/
theorem registry_ofTree {options : Options} {disk : Disk} {tree : Tree} {dice : Nat → Nat}
    (h : ∀ id st, tree.file id = .ok st → st.generated = false) :
    Registry (.ofTree options disk tree dice) where
  catalogue := .nil
  filing :=
    { directory := nofun
      file := fun _ hb => absurd hb List.not_mem_nil
      apart := fun _ hb => absurd hb List.not_mem_nil
      generated := fun id st hst hg => by
        rw [h id st hst] at hg
        exact nomatch hg
      inPlace := fun _ hb => absurd hb List.not_mem_nil }
  isVirtual_iff := fun _ hb => absurd hb List.not_mem_nil

/-- counted names are never searched for -/
theorem returns_of_sequential (h : Registry s) (hs : s.options.get .randomBundleNames = false) :
    ∀ cs : List Call, s.Returns cs := by
  intro cs
  induction cs generalizing s with
  | nil => trivial
  | cons c cs ih =>
    have hc : ∀ r, c = .create r → s.ReturnsTo r := fun r _ hr => by
      rw [hs] at hr
      exact nomatch hr
    obtain ⟨hcall, hgrew, -⟩ := h.call hc
    exact ⟨hc, ih hcall (hgrew.options ▸ hs)⟩

/-- there is a free name as long as there are fewer bundles than names -/
theorem returns_of_length (h : Registry s) {cs : List Call}
    (hcs : s.bundles.length + cs.length ≤ nameCount) : s.Returns cs := by
  induction cs generalizing s with
  | nil => trivial
  | cons c cs ih =>
    rw [List.length_cons] at hcs
    have hc : ∀ r, c = .create r → s.ReturnsTo r := fun r _ _ _ => exists_isFree (by omega)
    obtain ⟨hcall, -, hlen⟩ := h.call hc
    exact ⟨hc, ih hcall (by omega)⟩

/-- What was asked for in any order leaves the bundles in order: whatever `before` left is still there
after `after`, and the next request is answered by a bundle that is what it asks for. -/
theorem registry_calls {options : Options} {disk : Disk} {tree : Tree} {dice : Nat → Nat}
    {before after : List Call} (htree : ∀ id st, tree.file id = .ok st → st.generated = false)
    (hreturns : (Site.ofTree options disk tree dice).Returns (before ++ after)) :
    let s := (Site.ofTree options disk tree dice).calls before
    let t := s.calls after
    Registry t ∧ s.Grew t ∧
      ∀ r, t.ReturnsTo r → ∃ id u b, Yields (createOrReuse r) t id u ∧ Registry u ∧ t.Grew u ∧
        u.bundles[id]? = some b ∧ r.Answers b := by
  intro s t
  obtain ⟨hbefore, hafter⟩ := returns_append.mp hreturns
  obtain ⟨hs, -⟩ := (registry_ofTree htree).calls hbefore
  obtain ⟨ht, hgrew⟩ := hs.calls hafter
  refine ⟨ht, hgrew, fun r hr => ?_⟩
  have hends := ends_createOrReuse ht hr
  cases hw : createOrReuse r t with
  | mk result u =>
    cases result with
    | error f => exact (hends.of_eq_error hw).elim
    | ok id =>
      obtain ⟨hu, hgrew', -, b, hb, hanswers⟩ := hends.of_yields hw
      exact ⟨id, u, b, hw, hu, hgrew', hb, hanswers⟩

/-! ## Two scripts -/

namespace TwoScripts

def site : Site :=
  let tree := ((Tree.empty []).addSource Tree.root "a.js".toList).1
  .ofTree (Options.defaults.overlay (Layer.empty.setField .randomBundleNames true)) .empty
    (tree.addSource Tree.root "b.js".toList).1 fun n => n

def request (code : String) (sources : List NodeId) (placement : Placement) : Request :=
  ⟨.script, sources, code.toList, .plain, placement⟩

/-- `a.js` goes into a document, then into a file, and is handled on its own -/
def before : List Call :=
  [.create (request "a()" [1] .inline), .create (request "a()" [1] .bundleDirectory),
    .create (request "a()" [1] (.inPlace 1)), .addMembership 0 [1]]

/-- `b.js` goes into a document and then gets a file; no bundle has the number 7 -/
def after : List Call :=
  [.create (request "b()" [2] .inline), .ensureReal 2, .ensureReal 7, .addMembership 2 [2, 9]]

end TwoScripts

open TwoScripts in
theorem registry_calls_twoScripts :
    (∀ id st, site.tree.file id = .ok st → st.generated = false) ∧ site.Returns (before ++ after) ∧
      ((site.calls before).calls after).bundles.map (fun b => (b.id, b.node)) =
        [(0, some 4), (1, some 1), (2, some 5)] ∧
      Registry ((site.calls before).calls after) ∧
      (site.calls before).Grew ((site.calls before).calls after) := by
  have htree : site.tree.Pristine := (Tree.pristine_empty []).addSource.addSource
  have hnew : ∀ id st, site.tree.file id = .ok st → st.generated = false :=
    fun id st hst => by rw [htree id st hst]; rfl
  have hreturns : site.Returns (before ++ after) :=
    returns_of_length (registry_ofTree hnew) (by decide)
  obtain ⟨hregistry, hgrew, -⟩ := registry_calls hnew hreturns
  exact ⟨hnew, hreturns, by decide +kernel, hregistry, hgrew⟩

end SiteBundle
