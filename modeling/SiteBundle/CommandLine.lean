import SiteBundle.Options.Sources
import SiteBundle.Output.Manifest

/-!
# The command line

The program is run with arguments, an environment and a disk, and leaves a text on the standard
output, a text on the standard error, an exit status and a changed disk.

* `Arguments.read`   the arguments, read one after the other up to the first that stops it;
* `optionSources`    the files and variables that options come from;
* `Program.run`      a whole run of the program.

The exit status is 0 after a run, 1 after a failure, 2 when the arguments cannot be understood.
-/

namespace SiteBundle

open Text

/-! ## Arguments -/

/-- the arguments that need a value -/
inductive ValueArgument where
  | config
  | src
  | dist
  | manifest
deriving DecidableEq, Repr

/-- the arguments that stand alone -/
inductive SwitchArgument where
  | verbose
  | quiet
  | printConfig
deriving DecidableEq, Repr

/-- why arguments lead to no run -/
inductive Detour where
  | help
  | version
  | misuse
deriving DecidableEq, Repr

/-- what the arguments ask for -/
structure Arguments where
  values : ValueArgument → Option Text
  switches : SwitchArgument → Bool

/-- one argument as it is written -/
inductive ArgumentForm where
  | switch (s : SwitchArgument)
  | value (v : ValueArgument) (given : Option Text)
  | letters (l : Text)
  | detour (d : Detour)
  | stop

namespace ArgumentForm

/-- a long name without a value -/
def ofName (name : Text) : ArgumentForm :=
  if name = "config".toList then .value .config none
  else if name = "src".toList then .value .src none
  else if name = "dist".toList then .value .dist none
  else if name = "manifest".toList then .value .manifest none
  else if name = "verbose".toList then .switch .verbose
  else if name = "quiet".toList then .switch .quiet
  else if name = "print-config".toList then .switch .printConfig
  else if name = "help".toList then .detour .help
  else if name = "version".toList then .detour .version
  else .detour .misuse

def ofText : Text → ArgumentForm
  | ['-', '-'] => .stop
  | '-' :: '-' :: long =>
    match cutAt? '=' long with
    | none => ofName long
    | some (name, given) =>
      match ofName name with
      | .value v _ => .value v (some given)
      | _ => .detour .misuse
  | '-' :: c :: r => .letters (c :: r)
  | _ => .detour .misuse

end ArgumentForm

namespace Arguments

def empty : Arguments := ⟨fun _ => none, fun _ => false⟩

def addSwitch (a : Arguments) (s : SwitchArgument) : Except Detour Arguments :=
  if a.switches s then .error .misuse
  else .ok { a with switches := fun t => t == s || a.switches t }

/-- with one more value, which must not be empty nor there yet -/
def addValue (a : Arguments) (v : ValueArgument) (t : Text) : Except Detour Arguments :=
  if t.isEmpty || (a.values v).isSome then .error .misuse
  else .ok { a with values := fun w => if w = v then some t else a.values w }

/-- with what one letter stands for -/
def addLetter (a : Arguments) (c : Char) : Except Detour Arguments :=
  if c = 'v' then a.addSwitch .verbose
  else if c = 'q' then a.addSwitch .quiet
  else if c = 'h' then .error .help
  else if c = 'V' then .error .version
  else .error .misuse

/-- whether a text cannot be the value of the argument before it -/
def looksLikeOption : Text → Bool
  | '-' :: _ :: _ => true
  | _ => false

/-- arguments that do not contradict each other -/
def checked (a : Arguments) : Except Detour Arguments :=
  if a.switches .verbose && a.switches .quiet then .error .misuse else .ok a

/-- reads arguments behind those already read -/
def readFrom (a : Arguments) : List Text → Except Detour Arguments
  | [] => a.checked
  | arg :: r =>
    match ArgumentForm.ofText arg with
    | .switch s =>
      match a.addSwitch s with
      | .ok a => readFrom a r
      | .error d => .error d
    | .letters l =>
      match l.foldlM addLetter a with
      | .ok a => readFrom a r
      | .error d => .error d
    | .value v (some t) =>
      match a.addValue v t with
      | .ok a => readFrom a r
      | .error d => .error d
    | .value v none =>
      match r with
      | [] => .error .misuse
      | t :: r =>
        if looksLikeOption t then .error .misuse
        else
          match a.addValue v t with
          | .ok a => readFrom a r
          | .error d => .error d
    | .detour d => .error d
    | .stop => if r.isEmpty then a.checked else .error .misuse

def read (args : List Text) : Except Detour Arguments := empty.readFrom args

def layer (a : Arguments) : Layer :=
  let directories := Layer.ofDirectories (a.values .src) (a.values .dist)
  if a.switches .verbose then directories.setField .verbose true else directories

end Arguments

/-! ## The environment -/

/-- the values of the environment variables -/
abbrev Environment := Text → Option Text

/-- the directory of the user's own options -/
def userDirectory? (env : Environment) : Option Text :=
  ((env "XDG_CONFIG_HOME".toList).filter isRooted).or
    (((env "HOME".toList).filter (!·.isEmpty)).map fun home => joinPath home ".config".toList)

/-- the file of the project's options when no other is named -/
def projectFile (cwd : Place) : Text := joinPath (Place.text cwd) "tagpack.toml".toList

/-- where the options of a run come from -/
def optionSources (a : Arguments) (env : Environment) (cwd : Place) : OptionSources where
  files :=
    ((userDirectory? env).map fun dir => joinPath dir "tagpack/config.toml".toList).toList ++
      [(a.values .config).getD (projectFile cwd)]
  src := env "TAGPACK_SRC".toList
  dist := env "TAGPACK_DIST".toList

/-! ## Running -/

/-- what a run of the program leaves -/
structure Outcome where
  status : Nat
  stdout : String
  stderr : String
  disk : Disk

def helpText : String := "\n".intercalate
  ["Bundle the scripts and stylesheets of an HTML/PHP site", "", "Usage: tagpack [OPTIONS]", "",
    "Options:",
    "      --config <PATH>    Project config file (defaults to ./tagpack.toml)",
    "      --src <DIR>        Source directory",
    "      --dist <DIR>       Output directory, replaced on every run",
    "  -v, --verbose          ",
    "  -q, --quiet            ",
    "      --print-config     Print the merged options as TOML and exit",
    "      --manifest <PATH>  Write a JSON report of the created bundles",
    "  -h, --help             Print help",
    "  -V, --version          Print version", ""]

def versionText : String := "tagpack 0.1.0\n"

def misuseText : String :=
  "error: the arguments are not understood\n\nUsage: tagpack [OPTIONS]\n\n" ++
    "For more information, try '--help'.\n"

def Report.line (r : Report) : String :=
  toString r.documents.length ++ " documents, " ++ toString r.bundles.length ++ " bundles, " ++
    toString r.filesWritten ++ " files written to " ++ shown r.output ++ "\n"

namespace Program

def options (a : Arguments) (env : Environment) (d : Disk) : Except Failure Options :=
  (Options.load d (optionSources a env d.cwd)).map fun o => o.overlay a.layer

/-- keeps the report of a run, if a file for it is named -/
def keepManifest (a : Arguments) (r : Report) (d : Disk) : Except Failure Disk :=
  match a.values .manifest with
  | none => .ok d
  | some path =>
    during ("failed to write manifest " ++ shown path)
      (onDisk (d.writeFile (d.steps path) (Utf8.bytes r.manifest)))

def failed (d : Disk) (f : Failure) : Outcome := ⟨1, "", f.report ++ "\n", d⟩

/-- a run that the arguments describe -/
def runWith (a : Arguments) (env : Environment) (d : Disk) (dice : Nat → Nat) : Outcome :=
  match options a env d with
  | .error f => failed d f
  | .ok o =>
    if a.switches .printConfig then ⟨0, shown o.text, "", d⟩
    else
      match bundleSite o d dice with
      | (d, .error f) => failed d f
      | (d, .ok r) =>
        match keepManifest a r d with
        | .error f => failed d f
        | .ok d => ⟨0, r.line, "", d⟩

def run (args : List Text) (env : Environment) (d : Disk) (dice : Nat → Nat) : Outcome :=
  match Arguments.read args with
  | .error .help => ⟨0, helpText, "", d⟩
  | .error .version => ⟨0, versionText, "", d⟩
  | .error .misuse => ⟨2, "", misuseText, d⟩
  | .ok a => runWith a env d dice

end Program
end SiteBundle
