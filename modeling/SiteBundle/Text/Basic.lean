/-!
# Texts and byte offsets

A text is the list of its characters.  Everything the bundler reports about a text, and every edit
it accepts, is placed by an offset into the UTF-8 form of the text, so a text has two lengths:

* `List.length`     its characters, which recursion follows;
* `Text.size`       its bytes, which offsets count;
* `Text.splitAt?`   the two parts at a byte offset, if that offset is a character boundary;
* `Text.slice?`     the part between two byte offsets, if both are boundaries;
* `Text.splitOn`, `Text.join`   cutting at a separator and joining again;
* `Text.unixLines`   the text with one line feed for each carriage return and line feed.
-/

namespace SiteBundle

/-- a text: its characters in order -/
abbrev Text := List Char

namespace Text

-- What holds of the characters of a text is decided along the text: these instances come before those
-- that go over all characters there are.

instance (priority := high) decidableForall (p : Char → Prop) [DecidablePred p] (t : Text) :
    Decidable (∀ c ∈ t, p c) :=
  List.decidableBAll p t

instance (priority := high) decidableExists (p : Char → Prop) [DecidablePred p] (t : Text) :
    Decidable (∃ c ∈ t, p c) :=
  List.decidableBEx p t

/-- the number of bytes of the UTF-8 form -/
def size : Text → Nat
  | [] => 0
  | c :: r => c.utf8Size + size r

theorem size_append (t u : Text) : size (t ++ u) = size t + size u := by
  induction t with
  | nil => rw [List.nil_append, size, Nat.zero_add]
  | cons c t ih => rw [List.cons_append, size, size, ih, Nat.add_assoc]

/-- the parts before and behind byte offset `n`; `none` inside a character or behind the end -/
def splitAt? : Nat → Text → Option (Text × Text)
  | 0, t => some ([], t)
  | _ + 1, [] => none
  | n + 1, c :: r =>
    if n + 1 < c.utf8Size then none
    else (splitAt? (n + 1 - c.utf8Size) r).map fun p => (c :: p.1, p.2)

/-- splitting at the end of a front part gives that part back -/
theorem splitAt?_size (t u : Text) : splitAt? (size t) (t ++ u) = some (t, u) := by
  induction t with
  | nil => rw [size, List.nil_append, splitAt?]
  | cons c t ih =>
    have hc := c.utf8Size_pos
    obtain ⟨n, hn⟩ : ∃ n, size (c :: t) = n + 1 := ⟨size (c :: t) - 1, by rw [size]; omega⟩
    have e : n + 1 - c.utf8Size = size t := by rw [← hn, size]; omega
    have hlt : ¬ n + 1 < c.utf8Size := by rw [← hn, size]; omega
    rw [hn, List.cons_append, splitAt?, if_neg hlt, e, ih]
    rfl

/-- the part from byte `start` up to byte `stop` -/
def slice? (start stop : Nat) (t : Text) : Option Text := do
  let (front, _) ← splitAt? stop t
  let (_, part) ← splitAt? start front
  return part

/-- the pieces between the separators, one more than there are separators -/
def splitOn (sep : Char) : Text → List Text
  | [] => [[]]
  | c :: r =>
    match splitOn sep r with
    | [] => [[c]]
    | piece :: pieces => if c = sep then [] :: piece :: pieces else (c :: piece) :: pieces

/-- the pieces with the separator text between neighbours -/
def join (sep : Text) : List Text → Text
  | [] => []
  | [t] => t
  | t :: u :: r => t ++ sep ++ join sep (u :: r)

/-- the text behind the first occurrence of a character, with the text before it -/
def cutAt? (sep : Char) : Text → Option (Text × Text)
  | [] => none
  | c :: r => if c = sep then some ([], r) else (cutAt? sep r).map fun p => (c :: p.1, p.2)

/-- the text with one line feed for each carriage return and line feed -/
def unixLines : Text → Text
  | [] => []
  | '\r' :: '\n' :: r => '\n' :: unixLines r
  | c :: r => c :: unixLines r

end Text
end SiteBundle
