/-!
# Classes of characters as ranges

A class of characters above ASCII is a table of ranges of code points, both ends included.

* `Ranges.holds`       whether a character lies in one of the ranges;
* `Ranges.ascending`   whether the ranges are in order and apart, so that every class has one table.
-/

namespace SiteBundle.Text

/-- ranges of code points, both ends included -/
abbrev Ranges := Array (Nat × Nat)

def Ranges.holds (ranges : Ranges) (c : Char) : Bool :=
  ranges.any fun range => range.1 ≤ c.toNat && c.toNat ≤ range.2

/-- whether each range ends before the next one starts -/
def Ranges.ascending (ranges : Ranges) : Bool := go 0 ranges.toList
where
  /-- the ranges that follow must start at `least` or behind it -/
  go : Nat → List (Nat × Nat) → Bool
    | _, [] => true
    | least, range :: rest => least ≤ range.1 && range.1 ≤ range.2 && go (range.2 + 1) rest

end SiteBundle.Text
