import SiteBundle.Text.Basic

/-!
# White space

Two classes of white space matter:

* `Text.isBlank`   the Unicode property `White_Space`; it separates attributes and words and is what
  trimming removes;
* `Text.isGap`     the four characters that markup is laid out with (space, tab, line feed, carriage
  return); only these are collapsed or removed between elements.
-/

namespace SiteBundle.Text

/-- the Unicode property `White_Space` -/
def isBlank (c : Char) : Bool :=
  let n := c.toNat
  (0x09 ≤ n && n ≤ 0x0D) || n == 0x20 || n == 0x85 || n == 0xA0 || n == 0x1680 ||
    (0x2000 ≤ n && n ≤ 0x200A) || n == 0x2028 || n == 0x2029 || n == 0x202F || n == 0x205F ||
    n == 0x3000

/-- the white space that markup is laid out with -/
def isGap (c : Char) : Bool :=
  c == ' ' || c == '\n' || c == '\t' || c == '\r'

def trimStart (t : Text) : Text := t.dropWhile isBlank

/-- without the trailing characters of a class -/
def trimEndBy (p : Char → Bool) (t : Text) : Text := (t.reverse.dropWhile p).reverse

def trimEnd (t : Text) : Text := trimEndBy isBlank t

def trim (t : Text) : Text := trimEnd (trimStart t)

def allBlank (t : Text) : Bool := t.all isBlank

/-- the maximal runs of characters that are not white space -/
def words (t : Text) : List Text :=
  go t []
where
  /-- `run` holds the characters of the word being read, last first -/
  go : Text → Text → List Text
    | [], [] => []
    | [], c :: run => [(c :: run).reverse]
    | c :: r, run =>
      if isBlank c then
        if run.isEmpty then go r [] else run.reverse :: go r []
      else go r (c :: run)

end SiteBundle.Text
