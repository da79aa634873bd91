import SetSequent.Membership

/-!
# Instances of set relations

`Empty(s)`, `Subset(s, t)` and `Equal(s, t)` are statements about every element.

* `Atom.instanceAt?` — what a set relation states about one element.
* `Sequent.openGoal` — a set relation as goal is opened at a fresh element.
* `Sequent.instantiate` — set relations among the hypotheses are replaced by their instances at the
  element terms of the sequent, round by round, until no new element term appears.
-/

namespace SetSequent

def Atom.instanceAt? (t : Term) : Atom → Option Formula
  | .isEmpty s => some (.not (.atom (.mem t s)))
  | .subset s u => some (.implies (.atom (.mem t s)) (.atom (.mem t u)))
  | .setEq s u => some (.iff (.atom (.mem t s)) (.atom (.mem t u)))
  | .eq .. | .mem .. | .pred .. => none

def Formula.instanceAt? (t : Term) : Formula → Option Formula
  | .atom a => a.instanceAt? t
  | _ => none

namespace Sequent

/-- The element terms of the hypotheses and the goal, each once, in order of appearance. -/
def relevantElements (s : Sequent) : List Term :=
  (s.formulas.flatMap (·.elementTerms)).eraseDups

/-- Opens a set relation in the goal at a fresh variable of the given stem. -/
def openGoal (stem : String) (s : Sequent) : Noted Sequent :=
  let z := s.freshVariable stem
  match s.goal.instanceAt? (.var z) with
  | none => return s
  | some goal => do
    noteStep "instantiate" ("intro " ++ z ++ ": " ++ goal.text)
    return { s with goal := goal }

/-- The instances of the universals at the terms, in order, that are not known yet. -/
def newInstances (known : List Formula) : List (Hypothesis × Term) → Noted (List Hypothesis)
  | [] => return []
  | (u, t) :: rest =>
    match u.formula.instanceAt? t with
    | none => newInstances known rest
    | some f =>
      if known.contains f.unfold then newInstances known rest
      else do
        noteStep "instantiate" (u.name ++ " at " ++ t.text ++ ": " ++ f.unfold.text)
        let h := { name := u.name ++ "[" ++ t.text ++ "]", formula := f.unfold }
        return h :: (← newInstances (f.unfold :: known) rest)

/-- Up to the given number of rounds. Each adds the instances at the element terms that are not
`done`, and unfolds the result. -/
def instanceRounds (universals : List Hypothesis) :
    (rounds : Nat) → (done : List Term) → (s : Sequent) → Noted Sequent
  | 0, _, s => return s
  | rounds + 1, done, s =>
    let scope := { s with hypotheses := s.hypotheses ++ universals }
    let terms := scope.relevantElements.filter (!done.contains ·)
    if terms.isEmpty then return s
    else do
      let added ← newInstances s.facts (universals.flatMap fun u => terms.map (u, ·))
      let s ← Sequent.unfold { s with hypotheses := s.hypotheses ++ added }
      instanceRounds universals rounds (done ++ terms) s

def instantiate (stem : String) (maxRounds : Int) (s : Sequent) : Noted Sequent := do
  let s ← s.openGoal stem
  let universals := s.hypotheses.filter (·.formula.isSetRelation)
  let others := s.hypotheses.filter (!·.formula.isSetRelation)
  let s ← Sequent.unfold { s with hypotheses := others }
  let s ← instanceRounds universals maxRounds.toNat [] s
  universals.forM fun u => noteStep "instantiate" ("clear " ++ u.name)
  return s

end Sequent

end SetSequent
