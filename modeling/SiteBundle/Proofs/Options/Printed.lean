import SiteBundle.Proofs.Options.Layered
import SiteBundle.Proofs.Toml.Documents

/-!
# Options, printed and read

A layer is printed as a table of what it sets, slot by slot (`Layer.table`), and every slot is read back
from there, whether it is set or not.  Layers inside come first, so the proofs go along `Layer.Keyed`:
the patterns of overrides are keys of a map, at every depth.

* `Kind.ofToml?_toToml`     a value of any kind;
* `ofToml?_toToml`          a layer with all the layers inside;
* `Layer.Keyed.laid_table`        the table of a layer can be written as a document;
* `Layer.Within`            how deep layers are nested, which is what bounds the headers;
* `Options.reads_printed`   the whole.
-/

namespace SiteBundle

open Text

/-! ## values -/

theorem textsOfToml?_textsToToml (ts : List Text) : textsOfToml? (textsToToml ts) = some ts := by
  show (ts.map Toml.string).mapM _ = some ts
  induction ts with
  | nil => rfl
  | cons t ts ih =>
    rw [List.map_cons, List.mapM_cons, ih]
    rfl

/-- a word for all files is no list of patterns, and a list of patterns is no word -/
theorem Selection.ofToml?_toToml (s : Selection) : Selection.ofToml? s.toToml = some s := by
  cases s with
  | nothing => rfl
  | necessary => rfl
  | everything => rfl
  | matching patterns =>
    show (textsOfToml? (textsToToml patterns)).map Selection.matching = _
    rw [textsOfToml?_textsToToml]
    rfl

theorem Position.ofWord?_word (p : Position) : Position.ofWord? p.word = some p := by
  match p with
  | .inPlace => decide
  | .anchored ⟨element, edge⟩ => cases element <;> cases edge <;> decide

theorem Kind.ofToml?_toToml (k : Kind) (v : k.Value) : k.ofToml? (k.toToml v) = some v := by
  cases k with
  | path => rfl
  | switch => rfl
  | target =>
    have h : ∀ t : Target, Target.ofLabel? t.label.toList = some t := by
      intro t
      cases t <;> decide
    exact h v
  | position => exact Position.ofWord?_word v
  | missingAction =>
    have h : ∀ a : MissingAction, MissingAction.ofWord? a.word = some a := by
      intro a
      cases a <;> decide
    exact h v
  | fileAction =>
    have h : ∀ a : FileAction, FileAction.ofWord? a.word = some a := by
      intro a
      cases a <;> decide
    exact h v
  | selection => exact Selection.ofToml?_toToml v
  | text => rfl
  | patterns => exact textsOfToml?_textsToToml v

theorem Kind.plain_toToml (k : Kind) (v : k.Value) : Toml.Plain (k.toToml v) := by
  cases k with
  | switch => exact .boolean _
  | selection =>
    cases v with
    | matching patterns => exact .texts patterns
    | nothing => exact .string _
    | necessary => exact .string _
    | everything => exact .string _
  | patterns => exact .texts v
  | path => exact .string _
  | target => exact .string _
  | position => exact .string _
  | missingAction => exact .string _
  | fileAction => exact .string _
  | text => exact .string _

/-! ## tables of layers -/

def Slot.key : Slot → Text
  | .field f => f.key
  | .overrides s => s.key

def Slot.all : List Slot := Field.all.map .field ++ [.overrides .markup, .overrides .handled]

theorem Slot.mem_all (k : Slot) : k ∈ Slot.all := by
  cases k with
  | field f => exact List.mem_append_left _ (List.mem_map_of_mem f.mem_all)
  | overrides s =>
    refine List.mem_append_right _ ?_
    cases s with
    | markup => exact List.mem_cons_self
    | handled => exact List.mem_cons_of_mem _ List.mem_cons_self

theorem Slot.nodup_keys : (Slot.all.map Slot.key).Nodup := by
  decide +kernel

def Slot.toToml : (k : Slot) → k.Value → Toml
  | .field f, v => f.kind.toToml v
  | .overrides _, layers => .table (layerEntries layers)

/-- what the layer sets, under the keys of the slots -/
def Layer.table (l : Layer) : List (Text × Toml) :=
  Slot.all.filterMap fun k => ((l.value? k).map k.toToml).map fun v => (k.key, v)

/-- all options as one layer -/
def Options.layer (o : Options) : Layer :=
  .mk (fun f => some (o.get f)) (some (o.overrides .markup)) (some (o.overrides .handled))

theorem toToml_eq (l : Layer) : l.toToml = .table l.table := by
  obtain ⟨set, markup, handled⟩ := l
  rw [Layer.toToml, Layer.table, Slot.all, List.filterMap_append, List.filterMap_map, List.append_assoc]
  congr 2
  · refine List.filterMap_congr fun f _ => ?_
    exact (Option.map_map _ _ _).symm
  · cases markup <;> cases handled <;> rfl

theorem value?_layer (o : Options) (k : Slot) : o.layer.value? k = some (o.value k) := by
  cases k with
  | field f => rfl
  | overrides s => cases s <;> rfl

theorem toTable_eq (o : Options) : o.toTable = o.layer.table := by
  unfold Layer.table
  simp only [value?_layer, Option.map_some]
  rw [List.filterMap_eq_map', Slot.all, List.map_append, List.map_map]
  rfl

theorem layerEntries_eq (layers : List (Text × Layer)) :
    layerEntries layers = (layers.map fun e => (e.1, e.2.table)).map fun e => (e.1, .table e.2) := by
  induction layers with
  | nil => rfl
  | cons e layers ih =>
    rw [layerEntries, toToml_eq, ih]
    rfl

/-! ## reading what was printed -/

section
variable {κ : Type} {key : κ → Text} (value : κ → Option Toml)

theorem keys_filterMap_sublist (ks : List κ) :
    ((ks.filterMap fun k => (value k).map fun v => (key k, v)).map (·.1)).Sublist (ks.map key) := by
  induction ks with
  | nil => exact .slnil
  | cons k ks ih =>
    cases hv : value k with
    | none =>
      rw [List.filterMap_cons_none (by rw [hv]; rfl)]
      exact ih.cons _
    | some v =>
      rw [List.filterMap_cons_some (b := (key k, v)) (by rw [hv]; rfl)]
      exact ih.cons_cons _

/-- among entries under distinct keys, each key leads to its own value, and a key that was left out to
nothing -/
theorem lookup?_filterMap {ks : List κ} (hkeys : (ks.map key).Nodup) {k : κ} (hk : k ∈ ks) :
    Toml.lookup? (key k) (ks.filterMap fun k => (value k).map fun v => (key k, v)) = value k := by
  unfold Toml.lookup?
  induction ks with
  | nil => cases hk
  | cons k' ks ih =>
    obtain ⟨hnew, hkeys⟩ := List.nodup_cons.mp hkeys
    have hne : k ∈ ks → key k' ≠ key k := fun hin heq => hnew (heq ▸ List.mem_map_of_mem hin)
    cases hv : value k' with
    | none =>
      rw [List.filterMap_cons_none (by rw [hv]; rfl)]
      rcases List.mem_cons.mp hk with rfl | hk
      · rw [hv, List.find?_eq_none.mpr ?_]
        · rfl
        intro e he heq
        rw [beq_iff_eq] at heq
        exact hnew (heq ▸ (keys_filterMap_sublist value ks).subset (List.mem_map_of_mem he))
      · exact ih hkeys hk
    | some v =>
      rw [List.filterMap_cons_some (b := (key k', v)) (by rw [hv]; rfl)]
      rcases List.mem_cons.mp hk with rfl | hk
      · simp only [List.find?_cons, beq_self_eq_true, Option.map_some, hv]
      · rw [List.find?_cons_of_neg (by simpa using hne hk)]
        exact ih hkeys hk

end

theorem lookup?_table (l : Layer) (k : Slot) :
    Toml.lookup? k.key l.table = (l.value? k).map k.toToml :=
  lookup?_filterMap (fun k => (l.value? k).map k.toToml) Slot.nodup_keys k.mem_all

theorem readField?_table (l : Layer) (f : Field) : readField? l.table f = some (l.get? f) := by
  have hlookup : Toml.lookup? f.key l.table = (l.get? f).map f.kind.toToml :=
    lookup?_table l (.field f)
  unfold readField?
  rw [hlookup]
  cases l.get? f with
  | none => rfl
  | some v =>
    show (f.kind.ofToml? (f.kind.toToml v)).map some = _
    rw [Kind.ofToml?_toToml]
    rfl

theorem overrideMaps_eq (entries : List (Text × Toml)) :
    overrideMaps entries = entries.map fun e => (e.1, overridesOf? e.2) := by
  induction entries with
  | nil => rfl
  | cons e entries ih => rw [overrideMaps, ih, List.map_cons]

theorem readScope?_overrideMaps (entries : List (Text × Toml)) (s : Scope) :
    readScope? (overrideMaps entries) s = match Toml.lookup? s.key entries with
      | none => some none
      | some v => (overridesOf? v).map fun layers => some (sortLayers layers) := by
  unfold readScope? Toml.lookup?
  rw [overrideMaps_eq, List.find?_map]
  have hkey : ((fun e : Text × Option (List (Text × Layer)) => e.1 == s.key) ∘
      fun e : Text × Toml => (e.1, overridesOf? e.2)) = fun e => e.1 == s.key := rfl
  rw [hkey]
  cases entries.find? fun e => e.1 == s.key with
  | none => rfl
  | some e =>
    dsimp only [Option.map_some]
    cases overridesOf? e.2 <;> rfl

/-- the patterns of overrides are keys in strict order, at every depth -/
inductive Layer.Keyed : Layer → Prop where
  | mk {l : Layer}
      (sorted : ∀ s layers, l.overrides? s = some layers → layers.Pairwise fun a b => a.1 < b.1)
      (inner : ∀ s layers, l.overrides? s = some layers → ∀ e ∈ layers, Layer.Keyed e.2) : Layer.Keyed l

def Options.Keyed (o : Options) : Prop := o.layer.Keyed

theorem sortLayers_eq {layers : List (Text × Layer)} (h : layers.Pairwise fun a b => a.1 < b.1) :
    sortLayers layers = layers := by
  refine List.mergeSort_of_pairwise (h.imp fun {a b} hab => ?_)
  rw [Bool.not_eq_true', ← Bool.not_eq_true, nameLt_iff]
  exact List.lt_asymm hab

theorem layersOf?_layerEntries {layers : List (Text × Layer)}
    (h : ∀ e ∈ layers, Layer.ofToml? e.2.toToml = some e.2) :
    layersOf? (layerEntries layers) = some layers := by
  induction layers with
  | nil => rfl
  | cons e layers ih =>
    rw [layerEntries, layersOf?, h e List.mem_cons_self,
      ih fun e' he' => h e' (List.mem_cons_of_mem _ he')]
    rfl

/-- a layer is read back from its table, with all the layers inside -/
theorem ofToml?_toToml {l : Layer} (h : l.Keyed) : Layer.ofToml? l.toToml = some l := by
  induction h with
  | @mk l sorted inner ih =>
    have hscope : ∀ s, readScope? (overrideMaps l.table) s = some (l.overrides? s) := by
      intro s
      have hlookup : Toml.lookup? s.key l.table =
          (l.overrides? s).map fun layers => .table (layerEntries layers) :=
        lookup?_table l (.overrides s)
      rw [readScope?_overrideMaps, hlookup]
      cases hs : l.overrides? s with
      | none => rfl
      | some layers =>
        show (overridesOf? (.table (layerEntries layers))).map _ = _
        rw [overridesOf?, layersOf?_layerEntries (ih s layers hs), Option.map_some,
          sortLayers_eq (sorted s layers hs)]
    have hfields : (Field.all.all fun f => (readField? l.table f).isSome) = true := by
      refine List.all_eq_true.mpr fun f _ => ?_
      rw [readField?_table]
      rfl
    rw [toToml_eq, Layer.ofToml?, assembleLayer?, if_pos hfields, hscope, hscope]
    simp only [readField?_table]
    cases l
    rfl

theorem overlay_layer (o o' : Options) : o'.overlay o.layer = o :=
  Options.ext_value fun k => by rw [value_overlay, value?_layer, Option.getD_some]

/-! ## tables as documents -/

theorem table_eq (l : Layer) :
    l.table = Field.all.filterMap (fun f => ((l.get? f).map f.kind.toToml).map fun v => (f.key, v)) ++
      ([Scope.markup, .handled].filterMap fun s => (l.overrides? s).map fun layers =>
        (s.key, layerEntries layers)).map fun e => (e.1, .table e.2) := by
  rw [Layer.table, Slot.all, List.filterMap_append, List.filterMap_map]
  congr 1
  cases hmarkup : l.overrides? .markup <;> cases hhandled : l.overrides? .handled <;>
    simp [Layer.value?, hmarkup, hhandled, Slot.toToml, Slot.key]

theorem mem_table {l : Layer} {e : Text × Toml} :
    e ∈ l.table ↔ ∃ (k : Slot) (v : k.Value), l.value? k = some v ∧ (k.key, k.toToml v) = e := by
  unfold Layer.table
  simp only [List.mem_filterMap, Option.map_map, Option.map_eq_some_iff, Function.comp_apply]
  exact exists_congr fun k => and_iff_right k.mem_all

theorem Layer.Keyed.laid_table {l : Layer} (h : l.Keyed) : Toml.Laid l.table := by
  induction h with
  | @mk l sorted inner ih =>
    have hkeys := Slot.nodup_keys.sublist
      (keys_filterMap_sublist (fun k => (l.value? k).map k.toToml) Slot.all)
    change (l.table.map (·.1)).Nodup at hkeys
    rw [table_eq] at hkeys ⊢
    rw [List.map_append, List.map_map] at hkeys
    refine .mk ?_ ?_ hkeys
    · intro e he
      obtain ⟨f, -, hf⟩ := List.mem_filterMap.mp he
      rw [Option.map_map] at hf
      obtain ⟨v, -, rfl⟩ := Option.map_eq_some_iff.mp hf
      exact Kind.plain_toToml _ v
    · intro e he
      obtain ⟨s, -, hs⟩ := List.mem_filterMap.mp he
      obtain ⟨layers, hlayers, rfl⟩ := Option.map_eq_some_iff.mp hs
      show Toml.Laid (layerEntries layers)
      -- overrides are a table of nothing but tables
      rw [layerEntries_eq, ← List.nil_append (List.map _ (List.map _ layers))]
      refine .mk nofun (fun t ht => ?_) ?_
      · obtain ⟨e, he, rfl⟩ := List.mem_map.mp ht
        exact ih s layers hlayers e he
      · rw [List.map_nil, List.nil_append, List.map_map]
        refine List.Pairwise.map _ (fun a b hab heq => ?_) (sorted s layers hlayers)
        change a.1 = b.1 at heq
        exact List.lt_irrefl b.1 (heq ▸ hab)

/-! ## how deep layers are nested -/

/-- the layer and those inside it are nested at most this deep -/
def Layer.Within : Nat → Layer → Prop
  | 0, _ => False
  | n + 1, l => ∀ s layers, l.overrides? s = some layers → ∀ e ∈ layers, e.2.Within n

/-- layers are nested at most this deep -/
def Options.Within (n : Nat) (o : Options) : Prop := ∀ s, ∀ e ∈ o.overrides s, e.2.Within n

section
variable {l : Layer} {path : List Text}

/-- only layers inside need headers that may be too long -/
theorem forall_fitsAt_table (h : path.length < Toml.maxKeyParts) :
    (∀ e ∈ l.table, Toml.FitsAt (path ++ [e.1]) e.2) ↔
      ∀ s layers, l.overrides? s = some layers →
        ∀ e ∈ layers, Toml.FitsAt (path ++ [s.key] ++ [e.1]) e.2.toToml := by
  have hscope : ∀ (s : Scope) (layers : List (Text × Layer)),
      Toml.FitsAt (path ++ [s.key]) (.table (layerEntries layers)) ↔
        ∀ e ∈ layers, Toml.FitsAt (path ++ [s.key] ++ [e.1]) e.2.toToml := by
    intro s layers
    rw [Toml.fitsAt_table (by rw [List.length_append]; exact h), layerEntries_eq, List.map_map,
      List.forall_mem_map]
    simp only [toToml_eq]
    rfl
  constructor
  · intro hfits s layers hlayers
    exact (hscope s layers).mp (hfits _ (mem_table.mpr ⟨.overrides s, layers, hlayers, rfl⟩))
  · intro hfits e he
    obtain ⟨k, v, hv, rfl⟩ := mem_table.mp he
    cases k with
    | field f => exact Toml.fitsAt_of_plain (f.kind.plain_toToml v) _
    | overrides s => exact (hscope s v).mpr (hfits s v hv)

/-- each layer makes headers longer by two parts -/
theorem fitsAt_iff_within (hl : l.Keyed) {n : Nat} (h : path.length + 2 * n = Toml.maxKeyParts + 1) :
    Toml.FitsAt path l.toToml ↔ l.Within n := by
  induction n generalizing l path with
  | zero =>
    -- some header lies at the layer or inside it, and the path is too long already
    rw [toToml_eq]
    exact iff_false_intro (Toml.not_fitsAt_of_laid hl.laid_table (by omega))
  | succ n ih =>
    rw [toToml_eq, Toml.fitsAt_table (by omega), forall_fitsAt_table (by omega), Layer.Within]
    obtain ⟨-, inner⟩ := hl
    refine forall_congr' fun s => forall_congr' fun layers => forall_congr' fun hlayers =>
      forall_congr' fun e => forall_congr' fun he => ?_
    refine ih (inner s layers hlayers e he) ?_
    simp only [List.length_append, List.length_cons, List.length_nil]
    omega

end

section
variable {o : Options}

theorem fits_iff_within (ho : o.Keyed) :
    (∀ l ∈ Toml.documentLines o.toTable, l.Fits) ↔ o.Within 39 := by
  obtain ⟨-, inner⟩ := ho
  have hvalue : ∀ s layers, o.layer.overrides? s = some layers ↔ o.overrides s = layers := by
    intro s layers
    rw [show o.layer.overrides? s = some (o.overrides s) from value?_layer o (.overrides s),
      Option.some.injEq]
  simp only [hvalue] at inner
  rw [Toml.fits_documentLines, toTable_eq]
  have hroot : ([] : List Text).length < Toml.maxKeyParts := by decide
  refine (forall_fitsAt_table hroot).trans ?_
  simp only [hvalue]
  constructor
  · intro h s e he
    exact (fitsAt_iff_within (inner s _ rfl e he) rfl).mp (h s _ rfl e he)
  · rintro h s layers rfl e he
    exact (fitsAt_iff_within (inner s _ rfl e he) rfl).mpr (h s e he)

theorem plainEntries_toTable (o : Options) : Toml.plainEntries o.toTable ≠ [] := by
  have hfirst : (Field.src.key, Toml.string (o.get .src)) ∈ o.toTable := List.mem_cons_self
  exact List.ne_nil_of_mem (List.mem_map_of_mem (List.mem_filter.mpr ⟨hfirst, rfl⟩))

theorem laid_toTable (ho : o.Keyed) : Toml.Laid o.toTable :=
  toTable_eq o ▸ ho.laid_table

theorem read?_text_of_within (ho : o.Keyed) (h : o.Within 39) :
    Toml.read? o.text = some o.toTable := by
  rw [Options.text, Toml.read?_documentText (laid_toTable ho) (plainEntries_toTable o),
    if_pos ((fits_iff_within ho).mpr h)]

theorem read?_text_of_deep (ho : o.Keyed) (h : ¬ o.Within 39) : Toml.read? o.text = none := by
  rw [Options.text, Toml.read?_documentText (laid_toTable ho) (plainEntries_toTable o),
    if_neg (mt (fits_iff_within ho).mp h)]

end

/-! ## printing and reading -/

/-- options as read when TOML is read in this way -/
def Options.readBy (read : Text → Option (List (Text × Toml))) (t : Text) : Except Failure Options :=
  during "failed to parse TOML config" <| Except.map Options.defaults.overlay <|
    match (read t).bind fun entries => Layer.ofToml? (.table entries) with
    | some layer => .ok layer
    | none => .error (.of .unreadableOptions)

theorem Options.readBy_read? : Options.readBy Toml.read? = Options.ofText := rfl

theorem readBy_eq_ok {read : Text → Option (List (Text × Toml))} {t : Text} {o : Options} (ho : o.Keyed)
    (h : read t = some o.toTable) : Options.readBy read t = .ok o := by
  unfold Options.readBy
  rw [h, Option.bind_some, toTable_eq, ← toToml_eq, ofToml?_toToml ho]
  exact congrArg Except.ok (overlay_layer o .defaults)

/-- **Options survive printing and reading.**  A reader that undoes what a printer did to the table of
the options gives back the same value, however deep layers are nested.  The reader here undoes what the
printer here does exactly as long as they are nested at most 39 deep: each layer makes the paths of
headers longer by two parts. -/
theorem Options.reads_printed {o : Options} (ho : o.Keyed) :
    (∀ (print : List (Text × Toml) → Text) (read : Text → Option (List (Text × Toml))),
      read (print o.toTable) = some o.toTable → Options.readBy read (print o.toTable) = .ok o) ∧
    (Options.ofText o.text = .ok o ↔ o.Within 39) := by
  refine ⟨fun print read hread => readBy_eq_ok ho hread, fun h => ?_, fun h => ?_⟩
  · refine Classical.byContradiction fun hdeep => ?_
    rw [← Options.readBy_read?, Options.readBy, read?_text_of_deep ho hdeep] at h
    cases h
  · exact readBy_eq_ok ho (read?_text_of_within ho h)

/-- a list of patterns that holds what could be a word -/
def aboutPage : Layer := Layer.empty.setField .handledScriptFiles (.matching ["all".toList])

/-- patterns that are set to none, and overrides for handled files that are -/
def somePages : Layer :=
  .mk (fun | .keep => some [] | _ => none) (some [("about.html".toList, aboutPage)]) (some [])

/-- options with overrides inside overrides -/
def Options.layered : Options where
  get := Field.initial
  overrides
    | .markup => [("*.html".toList, somePages)]
    | .handled => [("a.js".toList, .empty),
        ("b.js".toList, Layer.empty.setField .handledCssFiles .everything)]

/-- every override comes back as it was set, or unset -/
theorem Options.reads_printed_layered : Options.layered.Keyed ∧
    Options.readBy Toml.read? (Toml.documentText Options.layered.toTable) = .ok Options.layered ∧
    Options.ofText Options.layered.text = .ok Options.layered := by
  have hleaf : ∀ l : Layer, (∀ s, l.overrides? s = none) → l.Keyed ∧ ∀ n, l.Within (n + 1) := by
    intro l h
    have hunset : ∀ s layers, l.overrides? s ≠ some layers := fun s layers hs =>
      nomatch (h s).symm.trans hs
    exact ⟨.mk (fun s _ hs => absurd hs (hunset s _)) fun s _ hs => absurd hs (hunset s _),
      fun n s _ hs => absurd hs (hunset s _)⟩
  have habout := hleaf aboutPage fun s => by cases s <;> rfl
  have hempty := hleaf .empty fun s => by cases s <;> rfl
  have hstyle := hleaf (Layer.empty.setField .handledCssFiles .everything) fun s => by cases s <;> rfl
  have hpages : somePages.Keyed ∧ somePages.Within 39 := by
    refine ⟨.mk (fun s layers hs => ?_) fun s layers hs => ?_, fun s layers hs => ?_⟩
    all_goals cases s <;> cases hs
    · exact List.pairwise_singleton _ _
    · exact .nil
    · exact List.forall_mem_singleton.mpr habout.1
    · exact nofun
    · exact List.forall_mem_singleton.mpr (habout.2 37)
    · exact nofun
  have hkeyed : Options.layered.Keyed := by
    refine .mk (fun s layers hs => ?_) fun s layers hs => ?_
    all_goals cases s <;> cases hs
    · exact List.pairwise_singleton _ _
    · exact List.pairwise_pair.mpr (by decide)
    · exact List.forall_mem_singleton.mpr hpages.1
    · exact List.forall_mem_cons.mpr ⟨hempty.1, List.forall_mem_singleton.mpr hstyle.1⟩
  have hwithin : Options.layered.Within 39
    | .markup => List.forall_mem_singleton.mpr hpages.2
    | .handled => List.forall_mem_cons.mpr ⟨hempty.2 38, List.forall_mem_singleton.mpr (hstyle.2 38)⟩
  obtain ⟨hany, hown⟩ := Options.reads_printed hkeyed
  exact ⟨hkeyed, hany _ _ (read?_text_of_within hkeyed hwithin), hown.mpr hwithin⟩

end SiteBundle
