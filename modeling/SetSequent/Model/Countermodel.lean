import SetSequent.Model.Interpretation

/-!
# Countermodels by enumeration

* `Space` — the names to interpret and the integers `0 … n - 1` to interpret them in.
* `Space.interpretations` — every interpretation of the space, in a fixed order.
* `Space.find` — the first interpretation that a test accepts, without listing the others.
* `enumerate` — the interpretations of given formulas.
* `countermodel` — the first interpretation that satisfies some facts and not a goal.

The elements vary slowest and the last name of each kind fastest. The subsets of the domain come in
the order of the binary numbers whose bits are their members.
-/

namespace SetSequent.Model

/-- Every list of `k` choices; the last one varies fastest. -/
def tuples (choices : List α) : (k : Nat) → List (List α)
  | 0 => [[]]
  | k + 1 => choices.flatMap fun c => (tuples choices k).map (c :: ·)

/-- The first result of a test on the lists of `k` choices, in the order of `tuples`. -/
def findTuple (choices : List α) :
    (k : Nat) → (List α → Except ε (Option β)) → Except ε (Option β)
  | 0, test => test []
  | k + 1, test => choices.findSomeM? fun c => findTuple choices k fun rest => test (c :: rest)

/-- Every subset, in the order of the binary numbers that have a bit for each member. -/
def subsets : List α → List (List α)
  | [] => [[]]
  | a :: as => (subsets as).flatMap fun s => [s, a :: s]

/-- What an enumeration ranges over. -/
structure Space where
  domain : List Int
  elementNames : List String
  setNames : List String

namespace Space

/-- The integers `0 … size - 1`, and the names of the formulas: those used as a set, and all other
variables, bound ones included. -/
def ofFormulas (fs : List Formula) (size : Nat) : Space :=
  let setNames := sortedNames (setVarNames fs)
  { domain := (List.range size).map Int.ofNat
    elementNames := (sortedNames (fs.flatMap Formula.vars)).filter (!setNames.contains ·)
    setNames := setNames }

def setValues (s : Space) : List Value := (subsets s.domain).map Value.ofInts

def interpretation (s : Space) (elements : List Int) (sets : List Value) : Interpretation :=
  { domain := s.domain, elements := s.elementNames.zip elements, sets := s.setNames.zip sets }

def interpretations (s : Space) : List Interpretation :=
  let sets := tuples s.setValues s.setNames.length
  (tuples s.domain s.elementNames.length).flatMap fun elements =>
    sets.map fun sets => s.interpretation elements sets

/-- The first result of a test on the interpretations, up to the first failure of the test. -/
def find (s : Space) (test : Interpretation → Except ε (Option β)) : Except ε (Option β) :=
  let values := s.setValues
  findTuple s.domain s.elementNames.length fun elements =>
    findTuple values s.setNames.length fun sets => test (s.interpretation elements sets)

end Space

/-- The interpretation itself, if it satisfies the facts and not the goal. The facts are evaluated
in order, up to the first that fails. -/
def Interpretation.refutes? (facts : List Formula) (goal : Formula) (I : Interpretation) :
    Except ModelError (Option Interpretation) := do
  let satisfied ← facts.allM I.holds
  if satisfied then
    let proved ← I.holds goal
    return if proved then none else some I
  else
    return none

/-- A number of domain elements; it may be zero and not negative. -/
def domainSize (size : Int) : Except ModelError Nat :=
  if size < 0 then .error .negativeSize else .ok size.toNat

/-- Every interpretation of the names of the formulas over `0 … size - 1`. -/
def enumerate (fs : List Formula) (size : Int) : Except ModelError (List Interpretation) := do
  let n ← domainSize size
  return (Space.ofFormulas fs n).interpretations

/-- The first interpretation over `0 … size - 1` that satisfies the facts and not the goal. -/
def countermodel (facts : List Formula) (goal : Formula) (size : Int) :
    Except ModelError (Option Interpretation) := do
  let n ← domainSize size
  (Space.ofFormulas (facts ++ [goal]) n).find (Interpretation.refutes? facts goal)

end SetSequent.Model
