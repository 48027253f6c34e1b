import SiteBundle.CommandLine
import SiteBundle.Options.Overrides
import SiteBundle.Proofs.Disk.Listing
import SiteBundle.Proofs.Glob.Below
import SiteBundle.Proofs.Module.Results
import SiteBundle.Proofs.StableSort

/-!
# Layers of options, slot by slot

A *slot* is what a layer may set: a field, or the overrides of a scope.  Whatever layers are laid over
options, each slot ends up with the value of the last layer that sets it, and the other slots have no
part in that.

* `LastSet k layers base v`     the last of the layers that sets `k` sets it to `v`; if none does, `v`
  is `base`;
* `GreatestSet k entries path base v`     the same for overrides and a path, with the greatest pattern
  in the place of the last layer;
* `Layer.Apart`     two layers that set no slot in common.

`lastSet_iff` is about any list of layers.  What overrides give for a path, where the options of a run
come from, and that layers apart may be laid in any order, follow from it.
-/

namespace SiteBundle

/-! ## slots -/

/-- what a layer may set -/
inductive Slot where
  | field (f : Field)
  | overrides (s : Scope)

@[reducible] def Slot.Value : Slot → Type
  | .field f => f.Value
  | .overrides _ => List (Text × Layer)

def Options.value (o : Options) : (k : Slot) → k.Value
  | .field f => o.get f
  | .overrides s => o.overrides s

def Layer.value? (l : Layer) : (k : Slot) → Option k.Value
  | .field f => l.get? f
  | .overrides s => l.overrides? s

/-- the last of the layers that sets a slot sets it to `v`; if none does, `v` is what it was -/
def LastSet (k : Slot) (layers : List Layer) (base v : k.Value) : Prop :=
  (∃ front l back, layers = front ++ l :: back ∧ l.value? k = some v ∧
      ∀ l' ∈ back, l'.value? k = none) ∨
    ((∀ l ∈ layers, l.value? k = none) ∧ v = base)

section
variable {k : Slot} {layers : List Layer} {o o' : Options} {l l' : Layer}

theorem Options.ext_value (h : ∀ k, o.value k = o'.value k) : o = o' := by
  obtain ⟨get, overrides⟩ := o
  obtain ⟨get', overrides'⟩ := o'
  obtain rfl : get = get' := funext fun f => h (.field f)
  obtain rfl : overrides = overrides' := funext fun s => h (.overrides s)
  rfl

theorem value_overlay (o : Options) (l : Layer) (k : Slot) :
    (o.overlay l).value k = (l.value? k).getD (o.value k) := by
  cases k with
  | field f => rfl
  | overrides s => rfl

/-- layers that do not set a slot leave it alone -/
theorem value_foldl_of_none (h : ∀ l ∈ layers, l.value? k = none) :
    (layers.foldl Options.overlay o).value k = o.value k := by
  induction layers generalizing o with
  | nil => rfl
  | cons l layers ih =>
    show (layers.foldl Options.overlay (o.overlay l)).value k = _
    rw [ih fun l' hl' => h l' (List.mem_cons_of_mem _ hl'), value_overlay, h l List.mem_cons_self,
      Option.getD_none]

theorem lastSet_foldl (o : Options) (layers : List Layer) (k : Slot) :
    LastSet k layers (o.value k) ((layers.foldl Options.overlay o).value k) := by
  induction layers using List.reverseRecOn with
  | nil => exact .inr ⟨nofun, rfl⟩
  | append_singleton layers l ih =>
    rw [List.foldl_append]
    show LastSet k _ _ (((layers.foldl Options.overlay o).overlay l).value k)
    rw [value_overlay]
    cases hl : l.value? k with
    | some v => exact .inl ⟨layers, l, [], rfl, hl, nofun⟩
    | none =>
      rw [Option.getD_none]
      have hconcat : ∀ ls : List Layer, (∀ l' ∈ ls, l'.value? k = none) →
          ∀ l' ∈ ls ++ [l], l'.value? k = none := fun ls hls =>
        List.forall_mem_append.mpr ⟨hls, List.forall_mem_singleton.mpr hl⟩
      rcases ih with ⟨front, m, back, hlayers, hm, hback⟩ | ⟨hnone, hv⟩
      · refine .inl ⟨front, m, back ++ [l], ?_, hm, hconcat back hback⟩
        rw [hlayers, List.append_assoc, List.cons_append]
      · exact .inr ⟨hconcat layers hnone, hv⟩

/-- the last layer that sets a slot decides on it -/
theorem lastSet_iff {v : k.Value} :
    LastSet k layers (o.value k) v ↔ (layers.foldl Options.overlay o).value k = v := by
  constructor
  · rintro (⟨front, l, back, rfl, hl, hback⟩ | ⟨hnone, rfl⟩)
    · rw [List.foldl_append, List.foldl_cons, value_foldl_of_none hback, value_overlay, hl,
        Option.getD_some]
    · exact value_foldl_of_none hnone
  · rintro rfl
    exact lastSet_foldl o layers k

/-! ## layers apart -/

/-- no slot is set by both -/
def Layer.Apart (l l' : Layer) : Prop := ∀ k, l.value? k = none ∨ l'.value? k = none

theorem overlay_comm (h : l.Apart l') (o : Options) :
    (o.overlay l).overlay l' = (o.overlay l').overlay l := by
  refine Options.ext_value fun k => ?_
  rw [value_overlay, value_overlay, value_overlay, value_overlay]
  rcases h k with hk | hk
  · rw [hk, Option.getD_none, Option.getD_none]
  · rw [hk, Option.getD_none, Option.getD_none]

theorem foldl_overlay_perm {layers' : List Layer} (hperm : layers.Perm layers')
    (h : layers.Pairwise Layer.Apart) (o : Options) :
    layers.foldl Options.overlay o = layers'.foldl Options.overlay o := by
  refine hperm.foldl_eq' (fun l hl l' hl' o => ?_) o
  rcases eq_or_related_of_pairwise h hl hl' with rfl | hapart | hapart
  · rfl
  · exact overlay_comm hapart o
  · exact (overlay_comm hapart o).symm

end

/-! ## overrides -/

/-- whether a pattern is meant for a path -/
def appliesTo (path pattern : Text) : Bool :=
  match PathFilter.read [pattern] with
  | .ok filter => filter.accepts path
  | .error _ => false

/-- the entry with the greatest pattern among those that are meant for the path and set the slot sets
it to `v`; if there is none, `v` is what it was -/
def GreatestSet (k : Slot) (entries : List (Text × Layer)) (path : Text) (base v : k.Value) : Prop :=
  (∃ e ∈ entries, appliesTo path e.1 = true ∧ e.2.value? k = some v ∧
      ∀ e' ∈ entries, appliesTo path e'.1 = true → (e'.2.value? k).isSome → ¬ e.1 < e'.1) ∨
    ((∀ e ∈ entries, appliesTo path e.1 = true → e.2.value? k = none) ∧ v = base)

/-- the entries in the order of their patterns -/
def InKeyOrder (entries : List (Text × Layer)) : Prop := entries.Pairwise fun a b => ¬ b.1 < a.1

section
variable {entries : List (Text × Layer)} {set : Overrides}

theorem appliesTo_of_read {pattern : Text} {filter : PathFilter}
    (h : PathFilter.read [pattern] = .ok filter) (path : Text) :
    appliesTo path pattern = filter.accepts path := by
  unfold appliesTo
  rw [h]

theorem map_entries_of_read (h : Overrides.read entries = .ok set) :
    (entries.map fun e => (PathFilter.read [e.1]).map fun filter => (filter, e.2)) =
      set.entries.map .ok := by
  unfold Overrides.read at h
  cases hread : entries.mapM fun e => (PathFilter.read [e.1]).map fun filter => (filter, e.2) with
  | error e =>
    rw [hread] at h
    cases h
  | ok read =>
    rw [hread] at h
    cases h
    exact map_eq_of_mapM hread

theorem layersFor_read (h : Overrides.read entries = .ok set) (path : Text) :
    set.layersFor path = (entries.filter fun e => appliesTo path e.1).map (·.2) := by
  obtain ⟨read⟩ := set
  have hmap := map_entries_of_read h
  clear h
  unfold Overrides.layersFor
  induction entries generalizing read with
  | nil =>
    obtain rfl : read = [] := List.map_eq_nil_iff.mp hmap.symm
    rfl
  | cons e entries ih =>
    cases read with
    | nil => cases hmap
    | cons x read =>
      obtain ⟨hx, hrest⟩ := List.cons.inj hmap
      replace hx : (PathFilter.read [e.1]).map (fun filter => (filter, e.2)) = .ok x := hx
      cases hfilter : PathFilter.read [e.1] with
      | error bad =>
        rw [hfilter] at hx
        cases hx
      | ok filter =>
        rw [hfilter] at hx
        obtain rfl := Except.ok.inj hx
        rw [List.filter_cons, List.filter_cons, appliesTo_of_read hfilter]
        cases filter.accepts path with
        | true => exact congrArg (e.2 :: ·) (ih read hrest)
        | false => exact ih read hrest

/-- in key order, the last entry is the one with the greatest pattern -/
theorem greatestSet_resolve (hentries : InKeyOrder entries)
    (h : Overrides.read entries = .ok set) (base : Options) (path : Text) (k : Slot) :
    GreatestSet k entries path (base.value k) ((set.resolve base path).value k) := by
  have hlast := lastSet_foldl base (set.layersFor path) k
  rw [layersFor_read h] at hlast
  unfold Overrides.resolve
  rw [layersFor_read h]
  rcases hlast with ⟨front, l, back, hlayers, hl, hback⟩ | ⟨hnone, hv⟩
  · obtain ⟨before, rest, hfilter, -, hrest⟩ := List.map_eq_append_iff.mp hlayers
    obtain ⟨e, after, rfl, rfl, rfl⟩ := List.map_eq_cons_iff.mp hrest
    have hmem : ∀ e', e' ∈ before ++ e :: after ↔ e' ∈ entries ∧ appliesTo path e'.1 = true :=
      fun e' => hfilter ▸ List.mem_filter
    have horder : InKeyOrder (before ++ e :: after) := hfilter ▸ hentries.filter _
    obtain ⟨he, happlies⟩ := (hmem e).mp (List.mem_append_right _ List.mem_cons_self)
    refine .inl ⟨e, he, happlies, hl, fun e' he' happlies' hsets => ?_⟩
    rcases List.mem_append.mp ((hmem e').mpr ⟨he', happlies'⟩) with hin | hin
    · exact (List.pairwise_append.mp horder).2.2 e' hin e List.mem_cons_self
    · rcases List.mem_cons.mp hin with rfl | hin
      · exact List.lt_irrefl _
      · rw [hback _ (List.mem_map_of_mem hin)] at hsets
        cases hsets
  · refine .inr ⟨fun e he happlies => hnone e.2 ?_, hv⟩
    exact List.mem_map_of_mem (List.mem_filter.mpr ⟨he, happlies⟩)

end

/-! ## the order of what is read -/

/-- the overrides that the layer sets are in key order -/
def Layer.Ordered (l : Layer) : Prop :=
  ∀ s entries, l.overrides? s = some entries → InKeyOrder entries

section
variable {d : Disk} {l : Layer} {layers : List Layer} {o : Options}

theorem inKeyOrder_sortLayers (entries : List (Text × Layer)) : InKeyOrder (sortLayers entries) := by
  have hkeys : ∀ a b : Text × Layer, (!nameLt b.1 a.1) = true ↔ ¬ b.1 < a.1 := fun a b => by
    rw [Bool.not_eq_true', ← Bool.not_eq_true, nameLt_iff]
  refine (List.pairwise_mergeSort (fun a b c hab hbc => ?_) (fun a b => ?_) _).imp
    fun {a b} hab => (hkeys a b).mp hab
  · rw [hkeys, List.not_lt] at hab hbc ⊢
    exact List.le_trans hab hbc
  · rw [Bool.or_eq_true, hkeys, hkeys, List.not_lt, List.not_lt]
    exact List.le_total _ _

theorem ordered_empty : Layer.Ordered .empty := by
  intro s entries h
  cases s <;> cases h

theorem ordered_assembleLayer? {entries : List (Text × Toml)}
    {maps : List (Text × Option (List (Text × Layer)))} (h : assembleLayer? entries maps = some l) :
    l.Ordered := by
  have hscope : ∀ s found, readScope? maps s = some found → ∀ es, found = some es → InKeyOrder es := by
    intro s found hfound es hes
    unfold readScope? at hfound
    split at hfound
    · cases hfound
      cases hes
    · cases hfound
    · cases hfound
      cases hes
      exact inKeyOrder_sortLayers _
  unfold assembleLayer? at h
  split at h
  · split at h
    · next markup handled hmarkup hhandled =>
      cases h
      intro s es hes
      cases s with
      | markup => exact hscope _ _ hmarkup es hes
      | handled => exact hscope _ _ hhandled es hes
    · cases h
  · cases h

theorem ordered_ofToml? {v : Toml} (h : Layer.ofToml? v = some l) : l.Ordered := by
  cases v with
  | table entries =>
    rw [Layer.ofToml?] at h
    exact ordered_assembleLayer? h
  | array items =>
    rw [Layer.ofToml?] at h
    exact ordered_assembleLayer? h
  | date _ =>
    rw [Layer.ofToml?] at h
    cases h
    exact ordered_empty
  | _ =>
    rw [Layer.ofToml?] at h
    · cases h
    all_goals nofun

theorem ordered_readLayer {t : Text} (h : readLayer t = .ok l) : l.Ordered := by
  unfold readLayer at h
  split at h
  · next layer hread =>
    cases h
    obtain ⟨entries, -, hlayer⟩ := Option.bind_eq_some_iff.mp hread
    exact ordered_ofToml? hlayer
  · cases h

theorem ordered_ofFile {path : Text} (h : Layer.ofFileIfThere d path = .ok l) : l.Ordered := by
  have hread : ∀ t, Results (readLayer t) Layer.Ordered fun _ => True := fun t => by
    cases hr : readLayer t with
    | ok l => exact ordered_readLayer hr
    | error f => trivial
  have hfile : Results (Layer.ofFileIfThere d path) Layer.Ordered fun _ => True := by
    unfold Layer.ofFileIfThere
    split
    · unfold Layer.ofFile
      rw [results_bind, results_during]
      cases onDisk (d.readText (d.steps path)) with
      | ok t => exact results_during.mpr (hread t)
      | error f => trivial
    · exact ordered_empty
  rw [h] at hfile
  exact hfile

theorem ordered_ofDirectories (src dist : Option Text) : (Layer.ofDirectories src dist).Ordered := by
  intro s entries h
  cases src <;> cases dist <;> cases s <;> cases h

theorem load_eq_ok {sources : OptionSources} (h : Options.load d sources = .ok o) :
    ∃ files, sources.files.mapM (Layer.ofFileIfThere d) = .ok files ∧ o =
      (files ++ [Layer.ofDirectories sources.src sources.dist]).foldl Options.overlay .defaults := by
  unfold Options.load OptionSources.layers at h
  cases hfiles : sources.files.mapM (Layer.ofFileIfThere d) with
  | error f =>
    rw [hfiles] at h
    cases h
  | ok files =>
    rw [hfiles] at h
    exact ⟨files, rfl, (Except.ok.inj h).symm⟩

/-- the overrides of loaded options are in key order -/
theorem inKeyOrder_load {sources : OptionSources} (h : Options.load d sources = .ok o) (s : Scope) :
    InKeyOrder (o.overrides s) := by
  obtain ⟨files, hfiles, rfl⟩ := load_eq_ok h
  have hordered : ∀ l ∈ files ++ [Layer.ofDirectories sources.src sources.dist], l.Ordered := by
    refine List.forall_mem_append.mpr ⟨fun l hl => ?_, ?_⟩
    · obtain ⟨_, _, hl⟩ := (of_mapM hfiles fun _ _ hl => ordered_ofFile hl).1 l hl
      exact hl
    · exact List.forall_mem_singleton.mpr (ordered_ofDirectories _ _)
  generalize files ++ [Layer.ofDirectories sources.src sources.dist] = layers at hordered
  show InKeyOrder ((layers.foldl Options.overlay .defaults).value (.overrides s))
  rcases lastSet_foldl .defaults layers (.overrides s) with ⟨front, l, back, rfl, hl, -⟩ | ⟨-, hv⟩
  · exact hordered l (List.mem_append_right _ List.mem_cons_self) s _ hl
  · rw [hv]
    exact .nil

/-! ## the layers of a run -/

/-- the layer of a file that may be named -/
def Layer.ofChoice (d : Disk) : Option Text → Except Failure Layer
  | none => .ok .empty
  | some path => Layer.ofFileIfThere d path

theorem overlay_empty (o : Options) : o.overlay .empty = o :=
  Options.ext_value fun k => by
    rw [value_overlay]
    cases k with
    | field f => rfl
    | overrides s => cases s <;> rfl

theorem ofChoice_cases (d : Disk) (path : Option Text) :
    (∃ f, path.toList.mapM (Layer.ofFileIfThere d) = .error f ∧ Layer.ofChoice d path = .error f) ∨
      ∃ layers l, path.toList.mapM (Layer.ofFileIfThere d) = .ok layers ∧
        Layer.ofChoice d path = .ok l ∧ ∀ o, layers.foldl Options.overlay o = o.overlay l := by
  cases path with
  | none => exact .inr ⟨[], .empty, rfl, rfl, fun o => (overlay_empty o).symm⟩
  | some path =>
    have hlist : (some path).toList.mapM (Layer.ofFileIfThere d) =
        (Layer.ofFileIfThere d path).map ([·]) := by
      show [path].mapM _ = _
      rw [List.mapM_cons]
      cases Layer.ofFileIfThere d path <;> rfl
    rw [hlist, Layer.ofChoice]
    cases Layer.ofFileIfThere d path with
    | error f => exact .inl ⟨f, rfl, rfl⟩
    | ok l => exact .inr ⟨[l], l, rfl, rfl, fun o => rfl⟩

theorem load_eq (d : Disk) (user project src dist : Option Text) :
    Options.load d ⟨user.toList ++ project.toList, src, dist⟩ = do
      let u ← Layer.ofChoice d user
      let p ← Layer.ofChoice d project
      return [u, p, .ofDirectories src dist].foldl Options.overlay .defaults := by
  unfold Options.load OptionSources.layers
  rw [List.mapM_append]
  rcases ofChoice_cases d user with ⟨f, hu, hu'⟩ | ⟨us, u, hu, hu', husers⟩
  · rw [hu, hu']
    rfl
  rw [hu, hu']
  rcases ofChoice_cases d project with ⟨f, hp, hp'⟩ | ⟨ps, p, hp, hp', hprojects⟩
  · rw [hp, hp']
    rfl
  rw [hp, hp']
  show Except.ok ((us ++ ps ++ [Layer.ofDirectories src dist]).foldl Options.overlay .defaults) = _
  rw [List.foldl_append, List.foldl_append, husers, hprojects]
  rfl

/-- each slot has its value from the command line, or else from the environment, or else from the
project, or else from the user, or else the initial one -/
theorem load_overlay_eq_ok_iff {user project src dist : Option Text} :
    (Options.load d ⟨user.toList ++ project.toList, src, dist⟩).map (·.overlay l) = .ok o ↔
      ∃ u p, Layer.ofChoice d user = .ok u ∧ Layer.ofChoice d project = .ok p ∧
        ∀ k, LastSet k [u, p, .ofDirectories src dist, l] (Options.defaults.value k) (o.value k) := by
  have hslots : ∀ u p, o = [u, p, .ofDirectories src dist, l].foldl Options.overlay .defaults ↔
      ∀ k, LastSet k [u, p, .ofDirectories src dist, l] (Options.defaults.value k) (o.value k) := by
    intro u p
    constructor
    · rintro rfl k
      exact lastSet_foldl _ _ k
    · exact fun h => Options.ext_value fun k => (lastSet_iff.mp (h k)).symm
  simp only [← hslots]
  rw [load_eq]
  cases Layer.ofChoice d user with
  | error f => exact ⟨nofun, nofun⟩
  | ok u =>
    cases Layer.ofChoice d project with
    | error f => exact ⟨nofun, nofun⟩
    | ok p =>
      constructor
      · intro h
        exact ⟨u, p, rfl, rfl, (Except.ok.inj h).symm⟩
      · rintro ⟨u', p', hu, hp, rfl⟩
        cases hu
        cases hp
        rfl

end

/-- **The last layer that sets a slot decides on it, and nothing else does.**  This is said of a list
of layers, of the overrides for a path, of the layers of a run, and of layers that are apart. -/
theorem options_layered :
    (∀ (o : Options) layers k,
      LastSet k layers (o.value k) ((layers.foldl Options.overlay o).value k)) ∧
    (∀ entries set, InKeyOrder entries → Overrides.read entries = .ok set → ∀ base path k,
      GreatestSet k entries path (base.value k) ((set.resolve base path).value k)) ∧
    (∀ d sources o, Options.load d sources = .ok o → ∀ s, InKeyOrder (o.overrides s)) ∧
    (∀ d user project src dist l o,
      (Options.load d ⟨user.toList ++ project.toList, src, dist⟩).map (·.overlay l) = .ok o ↔
        ∃ u p, Layer.ofChoice d user = .ok u ∧ Layer.ofChoice d project = .ok p ∧ ∀ k,
          LastSet k [u, p, .ofDirectories src dist, l] (Options.defaults.value k) (o.value k)) ∧
    (∀ layers layers' : List Layer, layers.Perm layers' → layers.Pairwise Layer.Apart → ∀ o,
      layers.foldl Options.overlay o = layers'.foldl Options.overlay o) := by
  refine ⟨lastSet_foldl, fun _ _ hentries hread => greatestSet_resolve hentries hread,
    fun _ _ _ hload => inKeyOrder_load hload, fun _ _ _ _ _ _ _ => load_overlay_eq_ok_iff,
    fun _ _ hperm hapart => foldl_overlay_perm hperm hapart⟩

/-- overrides with two patterns that both are meant for one page -/
def pageOverrides : List (Text × Layer) :=
  [("*.html".toList, (Layer.empty.setField .injectCss true).setField .minifyCss false),
    ("about.html".toList, Layer.empty.setField .injectCss false)]

/-! ## a run with all layers -/

namespace Configured

/-- the user's file and the project's, which both name the directory of the bundles -/
def disk : Disk where
  entries := [(["etc".toList], .folder), (["etc".toList, "tagpack".toList], .folder),
    (["etc".toList, "tagpack".toList, "config.toml".toList], .file (Utf8.bytes
      "src = 'user'\ndist = 'user'\nbundle_directory = 'user'\npolyfill_url = 'user'".toList)),
    (["site".toList], .folder), (["site".toList, "tagpack.toml".toList], .file (Utf8.bytes
      "src = 'project'\ndist = 'project'\nbundle_directory = 'project'".toList))]
  cwd := ["site".toList]

def environment : Environment := fun name =>
  if name = "XDG_CONFIG_HOME".toList then some "/etc".toList
  else if name = "TAGPACK_SRC".toList ∨ name = "TAGPACK_DIST".toList then some "environment".toList
  else none

def arguments : Arguments :=
  ⟨fun v => if v = .dist then some "arguments".toList else none, fun _ => false⟩

def userFile : Option Text :=
  (userDirectory? environment).map fun dir => joinPath dir "tagpack/config.toml".toList

theorem exists_userLayer : ∃ u, Layer.ofChoice disk userFile = .ok u ∧
    u.get? .polyfillUrl = some "user".toList ∧ u.get? .verbose = none := by
  have hfields : (Layer.ofChoice disk userFile).toOption.map
      (fun l => (l.get? .polyfillUrl, l.get? .verbose)) = some (some "user".toList, none) := by
    decide +kernel
  obtain ⟨u, hu, hfields⟩ := Option.map_eq_some_iff.mp hfields
  exact ⟨u, eq_ok_of_toOption hu, Prod.mk.inj hfields⟩

theorem exists_projectLayer : ∃ p, Layer.ofChoice disk (some (projectFile disk.cwd)) = .ok p ∧
    p.get? .bundleDirectory = some "project".toList ∧ p.get? .polyfillUrl = none ∧
      p.get? .verbose = none := by
  have hfields : (Layer.ofChoice disk (some (projectFile disk.cwd))).toOption.map
      (fun l => (l.get? .bundleDirectory, l.get? .polyfillUrl, l.get? .verbose)) =
        some (some "project".toList, none, none) := by
    decide +kernel
  obtain ⟨p, hp, hfields⟩ := Option.map_eq_some_iff.mp hfields
  obtain ⟨hdirectory, hrest⟩ := Prod.mk.inj hfields
  exact ⟨p, eq_ok_of_toOption hp, hdirectory, Prod.mk.inj hrest⟩

end Configured

open Configured in
/-- the page takes each field from the greatest of the two patterns that sets it, and the run takes
each from the last of its four layers that does -/
theorem options_layered_page : (InKeyOrder pageOverrides ∧
    ∃ set, Overrides.read pageOverrides = .ok set ∧ ∀ base,
      (set.resolve base "about.html".toList).get .injectCss = false ∧
      (set.resolve base "about.html".toList).get .minifyCss = false) ∧
    ∃ o, Program.options arguments environment disk = .ok o ∧
      o.get .dist = "arguments".toList ∧ o.get .src = "environment".toList ∧
      o.get .bundleDirectory = "project".toList ∧ o.get .polyfillUrl = "user".toList ∧
      o.get .verbose = false := by
  have horder : InKeyOrder pageOverrides := by
    refine List.pairwise_pair.mpr ?_
    decide
  obtain ⟨set, hset⟩ : ∃ set, (Overrides.read pageOverrides).toOption = some set :=
    Option.isSome_iff_exists.mp (by decide +kernel)
  have hread := eq_ok_of_toOption hset
  have happlies : ∀ e ∈ pageOverrides, appliesTo "about.html".toList e.1 = true := by
    decide +kernel
  have hfirst : pageOverrides[0] ∈ pageOverrides := List.mem_cons_self
  have hsecond : pageOverrides[1] ∈ pageOverrides := List.mem_cons_of_mem _ List.mem_cons_self
  obtain ⟨u, hu, huserUrl, huserVerbose⟩ := exists_userLayer
  obtain ⟨p, hp, hproject, hprojectUrl, hprojectVerbose⟩ := exists_projectLayer
  obtain ⟨hlast, hresolve, _, hload, _⟩ := options_layered
  have hrun := (hload disk userFile (some (projectFile disk.cwd)) (environment "TAGPACK_SRC".toList)
    (environment "TAGPACK_DIST".toList) arguments.layer _).mpr ⟨u, p, hu, hp, hlast .defaults _⟩
  refine ⟨⟨horder, set, hread, fun base => ⟨?_, ?_⟩⟩, _, hrun, rfl, rfl, ?_, ?_, ?_⟩
  · rcases hresolve _ set horder hread base "about.html".toList (.field .injectCss) with
      ⟨e, he, _, hv, hgreatest⟩ | ⟨hnone, _⟩
    · rcases List.mem_pair.mp he with rfl | rfl
      · have hle := hgreatest _ hsecond (happlies _ hsecond) rfl
        exact absurd hle (by decide)
      · exact (Option.some.inj hv).symm
    · cases hnone _ hfirst (happlies _ hfirst)
  · rcases hresolve _ set horder hread base "about.html".toList (.field .minifyCss) with
      ⟨e, he, _, hv, _⟩ | ⟨hnone, _⟩
    · rcases List.mem_pair.mp he with rfl | rfl
      · exact (Option.some.inj hv).symm
      · cases hv
    · cases hnone _ hfirst (happlies _ hfirst)
  · show (p.get? .bundleDirectory).getD _ = _
    rw [hproject, Option.getD_some]
  · show (p.get? .polyfillUrl).getD ((u.get? .polyfillUrl).getD _) = _
    rw [hprojectUrl, huserUrl, Option.getD_none, Option.getD_some]
  · show (p.get? .verbose).getD ((u.get? .verbose).getD _) = _
    rw [hprojectVerbose, huserVerbose]
    rfl

end SiteBundle
