import SetSequent.Equation
import SetSequent.ExcludedMiddle
import SetSequent.Fragment
import SetSequent.Negation
import SetSequent.Search.Refutation
import SetSequent.Universal

/-!
# The decision procedure

* `Options` — what a caller can set.
* `Sequent.prepare` — the stages before the search: restriction to the fragment, elimination of
  equations, instances of set relations, normal form of negations, elimination again, excluded middle.
* `Sequent.decide` — prepares a sequent and searches for a refutation of its negation.

A sequent is proved or not proved; the latter does not mean that it is invalid.
-/

namespace SetSequent

structure Options where
  table : DecidabilityTable := .standard
  usePull : Bool := true
  maxSplits : Option Int := none
  maxRounds : Int := 16
  freshStem : String := "z"

def Sequent.prepare (o : Options) (s : Sequent) : Noted Sequent := do
  let s ← s.classify o.table
  let s ← s.substitute
  let s ← s.instantiate o.freshStem o.maxRounds
  let s ← s.normalize o.table o.usePull
  let s ← s.substitute
  s.inject o.table

inductive Verdict where
  | proved
  | notProved
  deriving DecidableEq, Repr

def Verdict.text : Verdict → String
  | .proved => "proved"
  | .notProved => "not proved"

/-- The result of an attempt. `sequent` is what the search worked on; a proved sequent has a
certificate; an attempt that got stuck has an open branch. -/
structure Decision where
  verdict : Verdict
  sequent : Sequent
  certificate : Option Certificate := none
  diagnostics : List Diagnostic
  openBranch : Option String := none
  splits : Nat

def Sequent.decide (o : Options) (s : Sequent) : Decision :=
  let prepared := s.prepare o
  let attempt := Search.refute o.table o.maxSplits prepared.value
  let journal := Journal.ofNotes (prepared.notes ++ attempt.notes)
  match attempt.result with
  | .error e =>
    { verdict := .notProved
      sequent := prepared.value
      diagnostics := (journal.add (.diagnostic ⟨.budgetExhausted, e.message⟩)).diagnostics
      splits := attempt.splits }
  | .ok tree =>
    if tree.isStuck then
      { verdict := .notProved
        sequent := prepared.value
        diagnostics := (journal.add (.diagnostic ⟨.stuck, tree.inference.detail⟩)).diagnostics
        openBranch := some tree.inference.detail
        splits := attempt.splits }
    else
      { verdict := .proved
        sequent := prepared.value
        certificate := some ⟨journal.steps, tree⟩
        diagnostics := journal.diagnostics
        splits := attempt.splits }

end SetSequent
