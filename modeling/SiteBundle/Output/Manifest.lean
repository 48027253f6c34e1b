import SiteBundle.Run

/-!
# Reports as JSON

The report of a run can be kept in a file, as indented JSON.  `JsonValue` has the values that a
report needs, `JsonValue.text` writes them, and `Report.manifest` is the whole file.
-/

namespace SiteBundle

open Text

inductive JsonValue where
  | null
  | boolean (b : Bool)
  | number (n : Nat)
  | string (t : Text)
  | array (items : List JsonValue)
  | object (entries : List (Text × JsonValue))

namespace JsonValue

/-- a character inside a JSON string -/
def escaped (c : Char) : Text :=
  if c = '"' then ['\\', '"']
  else if c = '\\' then ['\\', '\\']
  else if c = '\n' then ['\\', 'n']
  else if c = '\r' then ['\\', 'r']
  else if c = '\t' then ['\\', 't']
  else if c = '\x08' then ['\\', 'b']
  else if c = '\x0c' then ['\\', 'f']
  else if c.toNat < 32 then
    "\\u00".toList ++ [Nat.digitChar (c.toNat / 16), Nat.digitChar (c.toNat % 16)]
  else [c]

/-- a JSON string -/
def quoted (t : Text) : Text := '"' :: t.flatMap escaped ++ ['"']

/-- the beginning of a line, two spaces for each level -/
def indent (depth : Nat) : Text := '\n' :: List.replicate (2 * depth) ' '

mutual

/-- a value as text, its inner lines indented from this depth on -/
def text (depth : Nat) : JsonValue → Text
  | .null => "null".toList
  | .boolean b => (if b then "true" else "false").toList
  | .number n => (toString n).toList
  | .string t => quoted t
  | .array [] => "[]".toList
  | .array (v :: r) =>
    '[' :: indent (depth + 1) ++ text (depth + 1) v ++ itemsText (depth + 1) r ++ indent depth ++ [']']
  | .object [] => "\x7b\x7d".toList
  | .object ((key, v) :: r) =>
    '\x7b' :: indent (depth + 1) ++ quoted key ++ ": ".toList ++ text (depth + 1) v ++
      entriesText (depth + 1) r ++ indent depth ++ ['\x7d']

/-- the items behind the first one -/
def itemsText (depth : Nat) : List JsonValue → Text
  | [] => []
  | v :: r => ',' :: indent depth ++ text depth v ++ itemsText depth r

/-- the entries behind the first one -/
def entriesText (depth : Nat) : List (Text × JsonValue) → Text
  | [] => []
  | (key, v) :: r =>
    ',' :: indent depth ++ quoted key ++ ": ".toList ++ text depth v ++ entriesText depth r

end

def ofTexts (ts : List Text) : JsonValue := .array (ts.map .string)

end JsonValue

def Provenance.word : Provenance → Text
  | .markup => "markup".toList
  | .individual => "individual".toList

def BundleSummary.toJson (b : BundleSummary) : JsonValue :=
  .object [("name".toList, .string b.name),
    ("family".toList, .string b.family.label.toList),
    ("provenance".toList, .string b.provenance.word),
    ("virtual".toList, .boolean b.isVirtual),
    ("path".toList, match b.path with
      | some path => .string path
      | none => .null),
    ("sources".toList, .ofTexts b.sources)]

def Report.toJson (r : Report) : JsonValue :=
  .object [("documents".toList, .ofTexts r.documents),
    ("bundles".toList, .array (r.bundles.map (·.toJson))),
    ("handled_files".toList, .number r.handledFiles),
    ("files_written".toList, .number r.filesWritten),
    ("output".toList, .string r.output)]

/-- the text of the file that a report is kept in -/
def Report.manifest (r : Report) : Text := r.toJson.text 0

end SiteBundle
