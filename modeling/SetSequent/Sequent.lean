import SetSequent.Formula

/-!
# Sequents

* `Hypothesis` — a named formula. An injected one is an excluded middle that the search may split
  on.
* `Sequent` — hypotheses in order, and a goal.
* `fresh` — the first name `stem0`, `stem1`, … that is not taken.
-/

namespace SetSequent

structure Hypothesis where
  name : String
  formula : Formula
  injected : Bool := false
  deriving DecidableEq

def Hypothesis.text (h : Hypothesis) : String := h.name ++ ": " ++ h.formula.text

structure Sequent where
  hypotheses : List Hypothesis
  goal : Formula
  deriving DecidableEq

/-- The first of `stem0`, `stem1`, … that is not taken: one of the first `taken.length + 1` names
is free. -/
def fresh (taken : List String) (stem : String) : String :=
  go taken.length 0
where
  go : Nat → Nat → String
    | 0, i => stem ++ toString i
    | tries + 1, i =>
      if taken.contains (stem ++ toString i) then go tries (i + 1) else stem ++ toString i

namespace Sequent

/-- A hypothesis without a name is called after its place: `H0`, `H1`, … -/
def ofList (hypotheses : List (Formula ⊕ Hypothesis)) (goal : Formula) : Sequent where
  hypotheses := hypotheses.mapIdx fun i entry =>
    match entry with
    | .inl f => { name := "H" ++ toString i, formula := f }
    | .inr h => h
  goal := goal

/-- The formulas of the hypotheses. -/
def facts (s : Sequent) : List Formula := s.hypotheses.map (·.formula)

/-- The facts and the goal. -/
def formulas (s : Sequent) : List Formula := s.facts ++ [s.goal]

def freshName (s : Sequent) (stem : String) : String := fresh (s.hypotheses.map (·.name)) stem

def freshVariable (s : Sequent) (stem : String) : String := fresh (s.formulas.flatMap (·.vars)) stem

/-- One line for each hypothesis and one for the goal. -/
def lines (s : Sequent) : List String := s.hypotheses.map (·.text) ++ ["goal: " ++ s.goal.text]

def text (s : Sequent) : String := "\n".intercalate s.lines

end Sequent

end SetSequent
