import SetSequent.Formula

/-!
# Nodes and their shapes

* `Shape` — the heads that a term or a formula can have, with the names they are listed under.
* `Node` — a term or a formula, for the operations that take either.
* `Node.occursIn` — whether one node is part of another.
-/

namespace SetSequent

inductive Shape where
  | var
  | app
  | emptySet
  | singleton
  | add
  | remove
  | union
  | inter
  | diff
  | top
  | bot
  | eq
  | mem
  | isEmpty
  | subset
  | setEq
  | pred
  | not
  | and
  | or
  | implies
  | iff
  | all
  deriving DecidableEq, Repr

namespace Shape

def name : Shape → String
  | .var => "Var"
  | .app => "App"
  | .emptySet => "EmptySet"
  | .singleton => "Singleton"
  | .add => "Add"
  | .remove => "Remove"
  | .union => "Union"
  | .inter => "Inter"
  | .diff => "Diff"
  | .top => "Top"
  | .bot => "Bottom"
  | .eq => "Eq"
  | .mem => "In"
  | .isEmpty => "IsEmpty"
  | .subset => "Subset"
  | .setEq => "SetEq"
  | .pred => "Pred"
  | .not => "Not"
  | .and => "And"
  | .or => "Or"
  | .implies => "Implies"
  | .iff => "Iff"
  | .all => "ForAll"

def every : List Shape :=
  [.var, .app, .emptySet, .singleton, .add, .remove, .union, .inter, .diff, .top, .bot, .eq, .mem,
   .isEmpty, .subset, .setEq, .pred, .not, .and, .or, .implies, .iff, .all]

def ofName? (s : String) : Option Shape := every.find? (·.name == s)

theorem ofName?_name (s : Shape) : ofName? s.name = some s := by cases s <;> decide

def isTerm : Shape → Bool
  | .var | .app | .emptySet | .singleton | .add | .remove | .union | .inter | .diff => true
  | _ => false

end Shape

def Term.shape : Term → Shape
  | .var _ => .var
  | .app .. => .app
  | .empty => .emptySet
  | .singleton _ => .singleton
  | .add .. => .add
  | .remove .. => .remove
  | .union .. => .union
  | .inter .. => .inter
  | .diff .. => .diff

def Atom.shape : Atom → Shape
  | .eq .. => .eq
  | .mem .. => .mem
  | .isEmpty _ => .isEmpty
  | .subset .. => .subset
  | .setEq .. => .setEq
  | .pred .. => .pred

def Connective.shape : Connective → Shape
  | .and => .and
  | .or => .or
  | .implies => .implies
  | .iff => .iff

def Formula.shape : Formula → Shape
  | .top => .top
  | .bot => .bot
  | .atom a => a.shape
  | .not _ => .not
  | .connect c _ _ => c.shape
  | .all .. => .all

inductive Node where
  | term (t : Term)
  | formula (f : Formula)
  deriving DecidableEq

/-! ## Parts -/

namespace Formula

/-- The terms of a formula, each before its own parts; a quantifier counts its variable. -/
def subterms : Formula → List Term
  | .top | .bot => []
  | .atom a => Term.listSubterms a.args
  | .not f => f.subterms
  | .connect _ l r => l.subterms ++ r.subterms
  | .all x f => .var x :: f.subterms

/-- The formula and its parts. -/
def subformulas : Formula → List Formula
  | .not f => .not f :: f.subformulas
  | .connect c l r => .connect c l r :: l.subformulas ++ r.subformulas
  | .all x f => .all x f :: f.subformulas
  | f => [f]

end Formula

namespace Node

def text : Node → String
  | .term t => t.text
  | .formula f => f.text

/-- The immediate parts. The variable of a quantifier comes before its body. -/
def children : Node → List Node
  | .term t => t.children.map .term
  | .formula f =>
    match f with
    | .top | .bot => []
    | .atom a => a.args.map .term
    | .not f => [.formula f]
    | .connect _ l r => [.formula l, .formula r]
    | .all x f => [.term (.var x), .formula f]

def subterms : Node → List Term
  | .term t => t.subterms
  | .formula f => f.subterms

def vars : Node → List String
  | .term t => t.vars
  | .formula f => f.vars

/-- Whether `part` is `node` or a part of it. -/
def occursIn (part node : Node) : Bool :=
  match part, node with
  | .term p, .term t => p.occursIn t
  | .term p, .formula f => f.subterms.contains p
  | .formula p, .formula f => f.subformulas.contains p
  | .formula _, .term _ => false

end Node

end SetSequent
