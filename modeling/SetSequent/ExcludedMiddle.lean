import SetSequent.Decidability
import SetSequent.Journal
import SetSequent.Sequent

/-!
# Excluded middle

* `Formula.negatedAtoms` — the atoms in negative position.
* `Sequent.inject` — adds `A or not A` for each decidable atom that occurs negated and is not settled
  by a hypothesis. The search refutes the goal, so every atom of the goal counts as negated.
-/

namespace SetSequent

namespace Formula

/-- The oriented atoms under a negation, in a premise or on a side of an equivalence. With `negated`
the whole formula counts as being under a negation. -/
def negatedAtoms (negated : Bool) : Formula → List Atom
  | .top | .bot => []
  | .atom a => if negated then [a.orient] else []
  | .not f => f.negatedAtoms true
  | .implies l r => l.negatedAtoms true ++ r.negatedAtoms negated
  | .iff l r => l.negatedAtoms true ++ r.negatedAtoms true
  | .connect _ l r => l.negatedAtoms negated ++ r.negatedAtoms negated
  | .all _ f => f.negatedAtoms negated

def excludedMiddle (f : Formula) : Formula := .or f (.not f)

end Formula

namespace Sequent

/-- The atoms that the search may want to split on, each once. -/
def splitCandidates (s : Sequent) : List Atom :=
  (s.facts.flatMap (·.negatedAtoms false) ++ s.goal.atoms.map Atom.orient).eraseDups

/-- Appends the excluded middles of the atoms that no fact settles. -/
def injectAll (t : DecidabilityTable) (facts : List Formula) :
    (atoms : List Atom) → (hypotheses : List Hypothesis) → Noted (List Hypothesis)
  | [], hs => return hs
  | a :: rest, hs =>
    if facts.contains (.atom a) || facts.contains (.not (.atom a)) then injectAll t facts rest hs
    else if t.isDecidable (.atom a) then do
      let h : Hypothesis :=
        { name := fresh (hs.map (·.name)) "D"
          formula := Formula.excludedMiddle (.atom a)
          injected := true }
      noteStep "inject" h.text
      injectAll t facts rest (hs ++ [h])
    else do
      noteDiagnostic .obligationUnmet ("no excluded middle for " ++ a.text)
      injectAll t facts rest hs

def inject (t : DecidabilityTable) (s : Sequent) : Noted Sequent := do
  let hypotheses ← injectAll t s.facts s.splitCandidates s.hypotheses
  return { s with hypotheses := hypotheses }

end Sequent

end SetSequent
