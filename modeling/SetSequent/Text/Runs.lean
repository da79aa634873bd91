/-!
# Classes of characters as runs of code points

A class is a list of runs, ascending and apart. A run has a step, so that a stretch in which every
second code point belongs to the class is one run.

* `Run.holds` and `inRuns` — membership of a code point in a run and in a class.
-/

namespace SetSequent.Text

/-- The code points `first`, `first + step`, … up to `last`. -/
structure Run where
  first : Nat
  last : Nat
  step : Nat
  deriving DecidableEq, Repr

def Run.holds (r : Run) (n : Nat) : Bool :=
  r.first ≤ n && n ≤ r.last && (n - r.first) % r.step == 0

/-- Whether the code point of `c` lies in one of the runs. -/
def inRuns (runs : List Run) (c : Char) : Bool :=
  runs.any (·.holds c.toNat)

end SetSequent.Text
