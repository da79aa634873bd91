import SetSequent.Evaluation
import SetSequent.Journal

/-!
# Refutation trees and certificates

* `Inference` — what one node of a tree records.
* `ProofTree` — inferences arranged as a tree; the leaves close the branches.
* `ProofTree.defects` — what is wrong with a tree; a tree without defects is a refutation.
* `Certificate` — the steps before the search and the tree of the search.

The evidence of a leaf is checked against the literals recorded with it, and each split against the
cases of what it splits on.
-/

namespace SetSequent

inductive Rule where
  | reflexivity
  | contradiction
  | falsity
  | substitute
  | split
  | stuck
  deriving DecidableEq, Inhabited, Repr

namespace Rule

def name : Rule → String
  | .reflexivity => "reflexivity"
  | .contradiction => "contradiction"
  | .falsity => "falsity"
  | .substitute => "substitute"
  | .split => "split"
  | .stuck => "stuck"

def ofName? (s : String) : Option Rule :=
  [reflexivity, contradiction, falsity, substitute, split, stuck].find? (·.name == s)

/-- The rules of leaves that close a branch. -/
def closes : Rule → Bool
  | .reflexivity | .contradiction | .falsity => true
  | .substitute | .split | .stuck => false

end Rule

/-- A node of a tree without its children. `atom` closes a leaf or is split on; `formula` is what a
leaf evaluates or a split unfolds; `assumptions` holds what each child assumes; the last two fields
are the literals of a closed branch. -/
structure Inference where
  rule : Rule
  detail : String := ""
  atom : Option Formula := none
  formula : Option Formula := none
  assumptions : List Formula := []
  trueAtoms : List Formula := []
  falseAtoms : List Formula := []
  deriving DecidableEq, Inhabited

inductive ProofTree where
  | node (inference : Inference) (children : List ProofTree)
  deriving Inhabited

namespace ProofTree

def inference : ProofTree → Inference
  | .node i _ => i

def children : ProofTree → List ProofTree
  | .node _ cs => cs

def leaf (i : Inference) : ProofTree := .node i []

def isStuck (t : ProofTree) : Bool := t.inference.rule == .stuck

/-! ## Measures -/

mutual

def isClosed : ProofTree → Bool
  | .node i cs => i.rule.closes || (i.rule != .stuck && !cs.isEmpty && allClosed cs)

def allClosed : List ProofTree → Bool
  | [] => true
  | c :: cs => isClosed c && allClosed cs

end

mutual

def size : ProofTree → Nat
  | .node _ cs => 1 + totalSize cs

def totalSize : List ProofTree → Nat
  | [] => 0
  | c :: cs => size c + totalSize cs

end

mutual

def depth : ProofTree → Nat
  | .node _ cs => 1 + maxDepth cs

def maxDepth : List ProofTree → Nat
  | [] => 0
  | c :: cs => max (depth c) (maxDepth cs)

end

/-! ## Rendering -/

/-- The line of one inference at an indentation. -/
def line (indent : String) (i : Inference) : String :=
  indent ++ i.rule.name ++ if i.detail = "" then "" else ": " ++ i.detail

mutual

/-- The lines of a tree. A child stands two steps further in, under the case it assumes. -/
def render (indent : String) : ProofTree → List String
  | .node i cs => line indent i :: renderCases indent i.assumptions cs

def renderCases (indent : String) : List Formula → List ProofTree → List String
  | _, [] => []
  | [], c :: cs => render (indent ++ "    ") c ++ renderCases indent [] cs
  | a :: as, c :: cs =>
    (indent ++ "  case " ++ a.text) :: render (indent ++ "    ") c ++ renderCases indent as cs

end

end ProofTree

/-! ## Checking -/

inductive Defect where
  | openBranch (detail : String)
  | notReflexive (atom : Option Formula)
  | noAtom
  | notContradictory (atom : Formula)
  | noFormula
  | notFalse (formula : Formula)
  | substitutionChildren (count : Nat)
  | malformedSplit (detail : String)
  | uncoveredAtom (atom : Formula)
  | splitWithoutFormula (detail : String)
  | uncoveredCases (formula : Formula)
  | leafWithChildren (rule : Rule)
  deriving DecidableEq

def Defect.message : Defect → String
  | .openBranch detail => "open branch: " ++ detail
  | .notReflexive (some a) => "reflexivity leaf without t = t: " ++ a.text
  | .notReflexive none => "reflexivity leaf without t = t: None"
  | .noAtom => "contradiction leaf without an atom"
  | .notContradictory a => a.text ++ " is not both assumed and refuted"
  | .noFormula => "falsity leaf without a formula"
  | .notFalse f => f.text ++ " does not evaluate to false"
  | .substitutionChildren n => "substitution with " ++ toString n ++ " children"
  | .malformedSplit detail => "malformed split on " ++ detail
  | .uncoveredAtom a => "split on " ++ a.text ++ " does not cover both cases"
  | .splitWithoutFormula detail => "split on " ++ detail ++ " without a formula"
  | .uncoveredCases f => "split on " ++ f.text ++ " does not cover its cases"
  | .leafWithChildren rule => rule.name ++ " leaf with children"

namespace Formula

/-- Whether the formula is an equation between a term and itself. -/
def isReflexive : Formula → Bool
  | .atom a => a.isReflexive
  | _ => false

def atom? : Formula → Option Atom
  | .atom a => some a
  | _ => none

end Formula

namespace Inference

/-- The defect of the evidence that an inference gives for itself, with a number of children. -/
def evidenceDefect? (i : Inference) (children : Nat) : Option Defect :=
  match i.rule with
  | .stuck => some (.openBranch i.detail)
  | .reflexivity => if i.atom.any (·.isReflexive) then none else some (.notReflexive i.atom)
  | .contradiction =>
    match i.atom with
    | none => some .noAtom
    | some a =>
      if i.trueAtoms.contains a && i.falseAtoms.contains a then none else some (.notContradictory a)
  | .falsity =>
    match i.formula with
    | none => some .noFormula
    | some f =>
      let value := f.simplify (i.trueAtoms.filterMap (·.atom?)) (i.falseAtoms.filterMap (·.atom?))
      if value = .bot then none else some (.notFalse f)
  | .substitute => if children = 1 then none else some (.substitutionChildren children)
  | .split =>
    if children < 2 || children ≠ i.assumptions.length then some (.malformedSplit i.detail)
    else
      match i.atom, i.formula with
      | some a, _ => if i.assumptions = [a, .not a] then none else some (.uncoveredAtom a)
      | none, none => some (.splitWithoutFormula i.detail)
      | none, some f =>
        if f.cases?.any fun (a, b) => i.assumptions = [a, b] then none else some (.uncoveredCases f)

def defects (i : Inference) (children : Nat) : List Defect :=
  (i.evidenceDefect? children).toList ++
    if i.rule.closes && children ≠ 0 then [.leafWithChildren i.rule] else []

end Inference

namespace ProofTree

mutual

/-- The defects of a tree, each node before its children. -/
def defects : ProofTree → List Defect
  | .node i cs => i.defects cs.length ++ allDefects cs

def allDefects : List ProofTree → List Defect
  | [] => []
  | c :: cs => defects c ++ allDefects cs

end

end ProofTree

structure Certificate where
  steps : List Step
  tree : ProofTree

namespace Certificate

def lines (c : Certificate) : List String := c.steps.map (·.text) ++ c.tree.render ""

/-- The steps and the tree, one line each. -/
def text (c : Certificate) : String := "\n".intercalate c.lines

def defects (c : Certificate) : List Defect := c.tree.defects

end Certificate

end SetSequent
