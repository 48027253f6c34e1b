import SiteBundle.Options.Field

/-!
# Options and layers of options

Options give every field a value.  A layer sets some of the fields; laid over options it changes
those and leaves the others.  Options come from several layers, and documents and handled files may
have layers of their own, chosen by patterns on their paths.

* `Options`, `Layer`    all fields, and some of the fields;
* `Options.overlay`     a layer laid over options;
* `Options.defaults`    the options without any layer;
* `Options.recipe`      the recipe for a family;
* `Policy`              what the options say about one family in one document.
-/

namespace SiteBundle

/-- the options that hold options themselves: for documents, and for handled files -/
inductive Scope where
  | markup
  | handled
deriving DecidableEq, Repr

def Scope.key : Scope → Text
  | .markup => "markup_overrides".toList
  | .handled => "handled_file_overrides".toList

/-- some of the options.  The overrides pair patterns with layers, in the order of the patterns. -/
inductive Layer where
  | mk (set : (f : Field) → Option f.Value) (markup handled : Option (List (Text × Layer)))

namespace Layer

def get? : Layer → (f : Field) → Option f.Value
  | .mk set _ _ => set

/-- the overrides that the layer sets -/
def overrides? : Layer → Scope → Option (List (Text × Layer))
  | .mk _ markup _, .markup => markup
  | .mk _ _ handled, .handled => handled

def empty : Layer := .mk (fun _ => none) none none

def setField (l : Layer) (f : Field) (v : f.Value) : Layer :=
  .mk (fun g => if h : f = g then some (h ▸ v) else l.get? g) (l.overrides? .markup)
    (l.overrides? .handled)

/-- a layer that sets a field if there is a value for it -/
def setField? (l : Layer) (f : Field) (v : Option f.Value) : Layer :=
  match v with
  | some v => l.setField f v
  | none => l

end Layer

/-- a value for every option -/
structure Options where
  get : (f : Field) → f.Value
  overrides : Scope → List (Text × Layer)

namespace Options

def defaults : Options := ⟨Field.initial, fun _ => []⟩

/-- a layer laid over options -/
def overlay (o : Options) (l : Layer) : Options :=
  ⟨fun f => (l.get? f).getD (o.get f), fun s => (l.overrides? s).getD (o.overrides s)⟩

def recipe (o : Options) (f : Family) (sanitize : Bool) : Recipe :=
  match f with
  | .script =>
    { Recipe.plain with
      minifyScript := o.get .minifyScript
      iifeScript := o.get .iifeScript
      transpileScript := o.get .transpileScript
      sanitize := sanitize }
  | .style =>
    { Recipe.plain with
      minifyCss := o.get .minifyCss
      optimizeCss := o.get .optimizeCss
      autoprefixCss := o.get .autoprefixCss
      sanitize := sanitize }

end Options

/-- what the options say about one family -/
structure Policy where
  family : Family
  /-- whether elements are bundled at all -/
  bundle : Bool
  /-- whether code inside elements takes part -/
  handleInline : Bool
  /-- whether bundles are written into the documents -/
  inject : Bool
  /-- whether code written into documents is made safe for its element -/
  sanitize : Bool
  position : Position
  missingAction : MissingAction

def Options.policy (o : Options) (f : Family) : Policy :=
  match f with
  | .script =>
    ⟨f, o.get .bundleScript, o.get .handleInlineScript, o.get .injectScript,
      o.get .sanitizeInjectedScript, o.get .scriptInsertPosition,
      o.get .missingScriptFileTagAction⟩
  | .style =>
    ⟨f, o.get .bundleCss, o.get .handleInlineCss, o.get .injectCss,
      o.get .sanitizeInjectedCss, o.get .cssInsertPosition, o.get .missingCssFileTagAction⟩

end SiteBundle
