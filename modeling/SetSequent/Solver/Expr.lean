/-!
# Solver expressions

The language of a solver with an uninterpreted sort of elements, sets of them, and truth values.

* `Domain` — the three sorts.
* `Expr` — symbols, variables bound by position, quantifiers and the operators of the solver.
* `Expr.domain` — the sort of an expression.
* `Expr.operator`, `Expr.operands` — the written form of the head and what it applies to.
-/

namespace SetSequent.Solver

/-- The sorts of the solver. -/
inductive Domain where
  | elem
  | set
  | bool
  deriving DecidableEq, Inhabited

def Domain.name : Domain → String
  | .elem => "Elem"
  | .set => "Set"
  | .bool => "Bool"

inductive Expr where
  /-- A declared symbol applied to its arguments; `domain` is the sort of the result. -/
  | symbol (name : String) (domain : Domain) (args : List Expr)
  /-- The variable of the quantifier that is `index` quantifiers further out. -/
  | bound (index : Nat)
  | all (name : String) (body : Expr)
  | truth (value : Bool)
  | emptySet
  /-- The set with an element put in or taken out. -/
  | store (set elem : Expr) (present : Bool)
  | union (left right : Expr)
  | inter (left right : Expr)
  | diff (left right : Expr)
  | select (set elem : Expr)
  | subset (left right : Expr)
  | equal (left right : Expr)
  | not (body : Expr)
  | and (left right : Expr)
  | or (left right : Expr)
  | implies (left right : Expr)
  deriving Inhabited

namespace Expr

def domain : Expr → Domain
  | .symbol _ d _ => d
  | .bound _ => .elem
  | .emptySet | .store .. | .union .. | .inter .. | .diff .. => .set
  | .all .. | .truth _ | .select .. | .subset .. | .equal .. | .not _ | .and .. | .or ..
  | .implies .. => .bool

def isQuantifier : Expr → Bool
  | .all .. => true
  | _ => false

/-- The name of the operator at the head. -/
def operator : Expr → String
  | .symbol name _ _ => name
  | .bound _ => "bound"
  | .all .. => "forall"
  | .truth true => "true"
  | .truth false => "false"
  | .emptySet => "const"
  | .store .. => "store"
  | .union .. => "union"
  | .inter .. => "intersection"
  | .diff .. => "setminus"
  | .select .. => "select"
  | .subset .. => "subset"
  | .equal .. => "="
  | .not _ => "not"
  | .and .. => "and"
  | .or .. => "or"
  | .implies .. => "=>"

/-- What the head applies to. A set is a function to truth values: the empty set is the constant
one, and `store` takes the new truth value of the element. -/
def operands : Expr → List Expr
  | .symbol _ _ args => args
  | .bound _ | .truth _ => []
  | .all _ body | .not body => [body]
  | .emptySet => [.truth false]
  | .store s e present => [s, e, .truth present]
  | .union l r | .inter l r | .diff l r | .select l r | .subset l r | .equal l r | .and l r
  | .or l r | .implies l r => [l, r]

end Expr

end SetSequent.Solver
