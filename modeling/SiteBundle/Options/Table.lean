import SiteBundle.Disk.Place
import SiteBundle.Options.Basic
import SiteBundle.Toml.Value

/-!
# Options as tables

Options are written as TOML tables and read from them.  A layer leaves out what it does not set, and
reading ignores keys it does not know; a value of the wrong kind makes the table unreadable.

Reading is wider than writing.  A word may stand as the only key of a table with nothing under it, and
a layer inside a layer may be an array of values in the order of the keys, or a date, which sets
nothing.

* `Kind.toToml`, `Kind.ofToml?`     the values of a kind;
* `Toml.word?`                      the word that a value stands for;
* `Options.toTable`, `Layer.toToml`   writing;
* `Layer.ofToml?`   reading.
-/

namespace SiteBundle

open Text

/-! ## Words -/

def Position.word : Position → Text
  | .inPlace => "LOCAL".toList
  | .anchored ⟨.head, .start⟩ => "START_OF_HEAD".toList
  | .anchored ⟨.head, .stop⟩ => "END_OF_HEAD".toList
  | .anchored ⟨.body, .start⟩ => "START_OF_BODY".toList
  | .anchored ⟨.body, .stop⟩ => "END_OF_BODY".toList
  | .anchored ⟨.document, .start⟩ => "START_OF_DOCUMENT".toList
  | .anchored ⟨.document, .stop⟩ => "END_OF_DOCUMENT".toList
  | .anchored ⟨.file, .start⟩ => "START_OF_FILE".toList
  | .anchored ⟨.file, .stop⟩ => "END_OF_FILE".toList

def Position.ofWord? (w : Text) : Option Position := Position.all.find? fun p => p.word == w

def MissingAction.word : MissingAction → Text
  | .keep => "KEEP".toList
  | .remove => "REMOVE".toList

def MissingAction.ofWord? (w : Text) : Option MissingAction :=
  [MissingAction.keep, .remove].find? fun a => a.word == w

def FileAction.word : FileAction → Text
  | .removeAll => "REMOVE_ALL".toList
  | .removeBundled => "REMOVE_BUNDLED".toList
  | .keepAll => "KEEP_ALL".toList
  | .keepNecessary => "KEEP_NECESSARY".toList

def FileAction.ofWord? (w : Text) : Option FileAction :=
  [FileAction.removeAll, .removeBundled, .keepAll, .keepNecessary].find? fun a => a.word == w

/-- the level of its own name; other words for it are not taken here -/
def Target.ofLabel? (w : Text) : Option Target := Target.all.find? fun t => t.label.toList == w

/-! ## Values -/

/-- a table or an array with nothing in it -/
def Toml.isHollow : Toml → Bool
  | .array items => items.isEmpty
  | .table entries => entries.isEmpty
  | _ => false

/-- the word of a value: a string, or the only key of a table with nothing under it -/
def Toml.word? : Toml → Option Text
  | .string w => some w
  | .table [(w, v)] => if v.isHollow then some w else none
  | _ => none

def textsToToml (ts : List Text) : Toml := .array (ts.map .string)

def textsOfToml? : Toml → Option (List Text)
  | .array items => items.mapM fun
    | .string t => some t
    | _ => none
  | _ => none

def Selection.toToml : Selection → Toml
  | .nothing => .string "none".toList
  | .necessary => .string "necessary".toList
  | .everything => .string "all".toList
  | .matching patterns => textsToToml patterns

/-- a selection from a string or an array of patterns; the key of a table is no word here -/
def Selection.ofToml? : Toml → Option Selection
  | .string w =>
    if w = "none".toList then some .nothing
    else if w = "necessary".toList then some .necessary
    else if w = "all".toList then some .everything
    else none
  | v => (textsOfToml? v).map .matching

def Kind.toToml : (k : Kind) → k.Value → Toml
  | .path, (t : Text) => .string t
  | .switch, (b : Bool) => .boolean b
  | .target, (t : Target) => .string t.label.toList
  | .position, (p : Position) => .string p.word
  | .missingAction, (a : MissingAction) => .string a.word
  | .fileAction, (a : FileAction) => .string a.word
  | .selection, (s : Selection) => s.toToml
  | .text, (t : Text) => .string t
  | .patterns, (ts : List Text) => textsToToml ts

def Kind.ofToml? : (k : Kind) → Toml → Option k.Value
  | .path, .string t => some t
  | .switch, .boolean b => some b
  | .target, v => v.word?.bind Target.ofLabel?
  | .position, v => v.word?.bind Position.ofWord?
  | .missingAction, v => v.word?.bind MissingAction.ofWord?
  | .fileAction, v => v.word?.bind FileAction.ofWord?
  | .selection, v => Selection.ofToml? v
  | .text, .string t => some t
  | .patterns, v => textsOfToml? v
  | _, _ => none

/-! ## Writing -/

mutual

def Layer.toToml : Layer → Toml
  | .mk set markup handled =>
    .table (Field.all.filterMap (fun f => (set f).map fun v => (f.key, f.kind.toToml v)) ++
      scopeEntries .markup markup ++ scopeEntries .handled handled)

/-- the overrides of one scope, if they are set -/
def scopeEntries (s : Scope) : Option (List (Text × Layer)) → List (Text × Toml)
  | none => []
  | some layers => [(s.key, .table (layerEntries layers))]

/-- patterns with their layers -/
def layerEntries : List (Text × Layer) → List (Text × Toml)
  | [] => []
  | (pattern, layer) :: r => (pattern, layer.toToml) :: layerEntries r

end

def Options.toTable (o : Options) : List (Text × Toml) :=
  Field.all.map (fun f => (f.key, f.kind.toToml (o.get f))) ++
    [(Scope.key .markup, .table (layerEntries (o.overrides .markup))),
      (Scope.key .handled, .table (layerEntries (o.overrides .handled)))]

/-! ## Reading -/

/-- the keys of a layer in the order they are written in -/
def Layer.keys : List Text :=
  Field.all.map Field.key ++ [Scope.key .markup, Scope.key .handled]

/-- what a table says about a field; `none` when the value is of the wrong kind -/
def readField? (entries : List (Text × Toml)) (f : Field) : Option (Option f.Value) :=
  match Toml.lookup? f.key entries with
  | none => some none
  | some v => (f.kind.ofToml? v).map some

/-- patterns with their layers, in the order of the patterns -/
def sortLayers (layers : List (Text × Layer)) : List (Text × Layer) :=
  layers.mergeSort fun a b => !nameLt b.1 a.1

/-- what a table says about one scope, given its entries read as overrides -/
def readScope? (maps : List (Text × Option (List (Text × Layer)))) (s : Scope) :
    Option (Option (List (Text × Layer))) :=
  match maps.find? (·.1 == s.key) with
  | none => some none
  | some (_, none) => none
  | some (_, some layers) => some (some (sortLayers layers))

/-- a layer from the entries of a table and the same entries read as overrides -/
def assembleLayer? (entries : List (Text × Toml))
    (maps : List (Text × Option (List (Text × Layer)))) : Option Layer :=
  if Field.all.all fun f => (readField? entries f).isSome then
    match readScope? maps .markup, readScope? maps .handled with
    | some markup, some handled =>
      some (.mk (fun f => (readField? entries f).join) markup handled)
    | _, _ => none
  else none

mutual

/-- a layer from a table, from an array of values for the first keys, or from a date.  An array may
end early, and values past the last key are not looked at. -/
def Layer.ofToml? : Toml → Option Layer
  | .table entries => assembleLayer? entries (overrideMaps entries)
  | .array items =>
    assembleLayer? (Layer.keys.zip items) (Layer.keys.zip (itemOverrides items))
  | .date _ => some .empty
  | _ => none

/-- the values of a table, each read as overrides -/
def overrideMaps : List (Text × Toml) → List (Text × Option (List (Text × Layer)))
  | [] => []
  | (key, v) :: r => (key, overridesOf? v) :: overrideMaps r

/-- the items of an array, each read as overrides -/
def itemOverrides : List Toml → List (Option (List (Text × Layer)))
  | [] => []
  | v :: r => overridesOf? v :: itemOverrides r

/-- overrides from a table of layers -/
def overridesOf? : Toml → Option (List (Text × Layer))
  | .table entries => layersOf? entries
  | _ => none

/-- a layer for each entry -/
def layersOf? : List (Text × Toml) → Option (List (Text × Layer))
  | [] => some []
  | (pattern, v) :: r => do
    let layer ← Layer.ofToml? v
    let layers ← layersOf? r
    return (pattern, layer) :: layers

end

end SiteBundle
