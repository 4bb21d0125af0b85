/-! Character classes given by a table of code point ranges. -/
namespace FrontEnd.Text

/-- Code points from `first` to `last`, both included. -/
structure CharRange where
  first : Nat
  last : Nat
deriving DecidableEq

namespace CharRange

def contains (r : CharRange) (c : Char) : Bool :=
  decide (r.first ≤ c.toNat) && decide (c.toNat ≤ r.last)

/-- Whether some range of the table holds the character. -/
def anyContains (table : List CharRange) (c : Char) : Bool :=
  table.any (·.contains c)

theorem contains_iff {r : CharRange} {c : Char} :
    r.contains c = true ↔ r.first ≤ c.toNat ∧ c.toNat ≤ r.last := by
  simp [contains]

end CharRange

end FrontEnd.Text
