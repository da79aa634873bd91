import SetSequent.Decidability
import SetSequent.Journal
import SetSequent.Sequent

/-!
# The supported fragment

* `Formula.isRelevant` — the formulas that the procedure works on.
* `Sequent.introduceGoal` — premises of the goal become hypotheses.
* `Sequent.splitConjunctions` — a conjunction becomes one hypothesis for each part.
* `Sequent.classify` — both, and then everything outside the fragment is dropped.
-/

namespace SetSequent

/-- Whether `f` lies in the fragment. A set relation is a statement about every element, so it is
accepted only as a whole, at the top. -/
def Formula.isRelevant (t : DecidabilityTable) (top : Bool) : Formula → Bool
  | .top | .bot => true
  | .atom (.eq l r) => l.isElementTerm && r.isElementTerm
  | .atom (.mem e s) => e.isElementTerm && s.isSetTerm
  | .atom (.isEmpty s) => top && s.isSetTerm
  | .atom (.subset s u) => top && s.isSetTerm && u.isSetTerm
  | .atom (.setEq s u) => top && s.isSetTerm && u.isSetTerm
  | .atom (.pred p args) => t.declares (.atom (.pred p args)) && args.all (·.isSetTerm)
  | .not f => f.isRelevant t false
  | .connect _ l r => l.isRelevant t false && r.isRelevant t false
  | .all .. => false

/-- The conjuncts from left to right. -/
def Formula.conjuncts : Formula → List Formula
  | .and l r => l.conjuncts ++ r.conjuncts
  | f => [f]

namespace Hypothesis

/-- The hypotheses for the conjuncts of `h`, named `h.0`, `h.1`, …; a hypothesis with one conjunct
stays as it is. -/
def split (h : Hypothesis) : List Hypothesis :=
  match h.formula.conjuncts with
  | [_] => [h]
  | parts => parts.mapIdx fun i part => { h with name := h.name ++ "." ++ toString i, formula := part }

end Hypothesis

namespace Sequent

/-- Adds the premises of `goal` to the hypotheses. -/
def introduce (hypotheses : List Hypothesis) : (goal : Formula) → Noted Sequent
  | .implies premise goal => do
    let h := assume premise
    noteStep "classify" ("intro " ++ h.text)
    introduce (hypotheses ++ [h]) goal
  | .not premise => do
    let h := assume premise
    noteStep "classify" ("intro " ++ h.text)
    return ⟨hypotheses ++ [h], .bot⟩
  | goal => return ⟨hypotheses, goal⟩
where
  assume (premise : Formula) : Hypothesis :=
    { name := fresh (hypotheses.map (·.name)) "I", formula := premise }

def introduceGoal (s : Sequent) : Noted Sequent := introduce s.hypotheses s.goal

def splitConjunctions (s : Sequent) : Sequent :=
  { s with hypotheses := s.hypotheses.flatMap (·.split) }

/-- Keeps the hypotheses inside the fragment. -/
def keepRelevant (t : DecidabilityTable) : List Hypothesis → Noted (List Hypothesis)
  | [] => return []
  | h :: rest =>
    if h.formula.isRelevant t true then do
      return h :: (← keepRelevant t rest)
    else do
      noteDiagnostic .outOfFragment ("dropped " ++ h.text)
      noteStep "classify" ("clear " ++ h.name)
      keepRelevant t rest

/-- A goal outside the fragment is given up for `false`. -/
def relevantGoal (t : DecidabilityTable) (goal : Formula) : Noted Formula :=
  if goal.isRelevant t true then return goal
  else do
    noteDiagnostic .outOfFragment ("goal " ++ goal.text ++ " replaced by false")
    noteStep "classify" ("goal " ++ goal.text ++ " replaced by false")
    return .bot

def classify (t : DecidabilityTable) (s : Sequent) : Noted Sequent := do
  let s := (← s.introduceGoal).splitConjunctions
  let kept ← keepRelevant t s.hypotheses
  let goal ← relevantGoal t s.goal
  return ⟨kept, goal⟩

end Sequent

end SetSequent
