import SetSequent.Formula
import SetSequent.Model.Bits
import SetSequent.Model.Value
import SetSequent.Text.Quoted

/-!
# Truth in a finite interpretation

* `Interpretation` — a finite domain, values for the variables, relations and functions for the
  symbols.
* `ModelError` — why there is no result.
* `Interpretation.eval`, `Interpretation.holds` — the value of a term, the truth of a formula.

Sorts are not checked beforehand: the set operations also mean something on two integers, and an
operation on an integer and a set fails. Evaluation goes from left to right and stops at the first
failure; `and`, `or` and `implies` look at their right side only when the left leaves them open.
-/

namespace SetSequent.Model

/-- Why an evaluation or an enumeration has no result. -/
inductive ModelError where
  | unbound (name : String)
  | unknownPredicate (name : String)
  | noFunction (application : Term)
  | illSorted
  | negativeSize
  deriving DecidableEq

/-- The words of a failure: a missing name in quotes, or a sentence. -/
def ModelError.message : ModelError → String
  | .unbound name | .unknownPredicate name => Text.quoted name
  | .noFunction t => "no interpretation for function application " ++ t.text
  | .illSorted => "an integer and a set in one operation"
  | .negativeSize => "negative shift count"

/-! ## Operations on values -/

namespace Value

/-- The one of two functions that fits the sorts of the arguments. -/
def onSort (a b : Value) (onElements : Int → Int → α) (onSets : List Value → List Value → α) :
    Except ModelError α :=
  match a.view, b.view with
  | .element m, .element n => .ok (onElements m n)
  | .set xs, .set ys => .ok (onSets xs ys)
  | _, _ => .error .illSorted

/-- Union of sets, bitwise disjunction of integers. -/
def union (a b : Value) : Except ModelError Value :=
  onSort a b (fun m n => element (Bits.either m n)) fun xs ys => ofList (xs ++ ys)

/-- Intersection of sets, bitwise conjunction of integers. -/
def inter (a b : Value) : Except ModelError Value :=
  onSort a b (fun m n => element (Bits.both m n)) fun xs ys => ofList (xs.filter (ys.contains ·))

/-- Difference. -/
def diff (a b : Value) : Except ModelError Value :=
  onSort a b (fun m n => element (m - n)) fun xs ys => ofList (xs.filter (!ys.contains ·))

/-- Inclusion of sets, order of integers. -/
def isSubset (a b : Value) : Except ModelError Bool :=
  onSort a b (fun m n => decide (m ≤ n)) fun xs ys => xs.all (ys.contains ·)

def isMember (a b : Value) : Except ModelError Bool :=
  match b.view with
  | .element _ => .error .illSorted
  | .set ys => .ok (ys.contains a)

/-- The empty set and zero. -/
def isVoid (a : Value) : Bool :=
  match a.view with
  | .element n => n == 0
  | .set xs => xs.isEmpty

end Value

/-! ## Interpretations -/

structure Interpretation where
  domain : List Int := []
  elements : List (String × Int) := []
  /-- The variables that denote sets. Such a name hides the same name in `elements`. -/
  sets : List (String × Value) := []
  predicates : String → Option (List Value → Bool) := fun _ => none
  /-- The functions by symbol and number of arguments. -/
  functions : String → Nat → Option (List Value → Value) := fun _ _ => none

namespace Interpretation

def lookup (I : Interpretation) (x : String) : Except ModelError Value :=
  match I.sets.lookup x with
  | some s => .ok s
  | none =>
    match I.elements.lookup x with
    | some n => .ok (.element n)
    | none => .error (.unbound x)

/-- The interpretation in which `x` denotes the integer `n`, unless it denotes a set. -/
def bind (I : Interpretation) (x : String) (n : Int) : Interpretation :=
  { I with elements := (x, n) :: I.elements }

mutual

/-- The value of a term. The base of `add` and `remove` is evaluated before the element. -/
def eval (I : Interpretation) : Term → Except ModelError Value
  | .var x => I.lookup x
  | .app f args =>
    match I.functions f args.length with
    | none => .error (.noFunction (.app f args))
    | some g => do return g (← evalAll I args)
  | .empty => .ok (.ofList [])
  | .singleton e => do return .ofList [← eval I e]
  | .add e s => do
    let base ← eval I s
    let member ← eval I e
    base.union (.ofList [member])
  | .remove e s => do
    let base ← eval I s
    let member ← eval I e
    base.diff (.ofList [member])
  | .union s t => do
    let a ← eval I s
    let b ← eval I t
    a.union b
  | .inter s t => do
    let a ← eval I s
    let b ← eval I t
    a.inter b
  | .diff s t => do
    let a ← eval I s
    let b ← eval I t
    a.diff b

def evalAll (I : Interpretation) : List Term → Except ModelError (List Value)
  | [] => .ok []
  | t :: ts => do
    let v ← eval I t
    let vs ← evalAll I ts
    return v :: vs

end

def holdsAtom (I : Interpretation) : Atom → Except ModelError Bool
  | .eq l r | .setEq l r => do
    let a ← I.eval l
    let b ← I.eval r
    return a == b
  | .mem e s => do
    let a ← I.eval e
    let b ← I.eval s
    a.isMember b
  | .isEmpty s => do return (← I.eval s).isVoid
  | .subset s t => do
    let a ← I.eval s
    let b ← I.eval t
    a.isSubset b
  | .pred p args => do
    let vs ← I.evalAll args
    match I.predicates p with
    | none => .error (.unknownPredicate p)
    | some r => return r vs

/-- A connective applied to a truth value and to one that is computed only if it matters; an
equivalence always needs it. -/
def connect (c : Connective) (left : Bool) (right : Except ModelError Bool) :
    Except ModelError Bool :=
  match c, left with
  | .and, false => .ok false
  | .and, true => right
  | .or, true => .ok true
  | .or, false => right
  | .implies, false => .ok true
  | .implies, true => right
  | .iff, b => do return b == (← right)

/-- The truth of a formula. A quantifier ranges over the domain in its order, up to the first
counterexample. -/
def holds (I : Interpretation) : Formula → Except ModelError Bool
  | .top => .ok true
  | .bot => .ok false
  | .atom a => I.holdsAtom a
  | .not f => do return !(← I.holds f)
  | .connect c l r => do
    let left ← I.holds l
    connect c left (I.holds r)
  | .all x f => I.domain.allM fun n => (I.bind x n).holds f

/-! ## Written form -/

/-- Pairs in ascending order of their names. -/
def sortByName (pairs : List (String × α)) : List (String × α) :=
  pairs.mergeSort fun a b => !decide (b.1 < a.1)

end Interpretation

mutual

def Tree.text : Tree → String
  | .leaf n => toString n
  | .branch ms => "\x7b" ++ Tree.listText ms ++ "\x7d"

def Tree.listText : List Tree → String
  | [] => ""
  | [t] => t.text
  | t :: ts => t.text ++ ", " ++ Tree.listText ts

end

def Value.text (v : Value) : String := v.tree.text

/-- The elements and then the sets, each by name: `x=0, s={0, 2}`. -/
def Interpretation.text (I : Interpretation) : String :=
  let elements := (sortByName I.elements).map fun (x, n) => x ++ "=" ++ toString n
  let sets := (sortByName I.sets).map fun (x, s) => x ++ "=" ++ s.text
  ", ".intercalate (elements ++ sets)

end SetSequent.Model
