import SetSequent.Formula
import SetSequent.Solver.Expr

/-!
# Formulas as solver expressions

* `Vocabulary` — the names that a list of formulas uses as sets.
* `Declarations` — the symbols in use with the sorts that their first use gave them.
* `Encoder` — a computation that may declare symbols and may meet sorts that do not fit. A
  declaration stays, also when the computation fails later.
* `encodeTerm`, `encodeFormula` — the expression of a term and of a formula.
* `encode` — the expressions of a list of formulas over shared declarations.

Variables and constants share one table of names, functions and predicates one table of names with
a number of arguments. A predicate without arguments is a truth value and stands in no table.
-/

namespace SetSequent.Solver

/-- The variables and the function symbols that denote sets. -/
structure Vocabulary where
  setNames : List String
  setFunctions : List String

def Vocabulary.ofFormulas (fs : List Formula) : Vocabulary :=
  ⟨setVarNames fs, setFunctionNames fs⟩

def Vocabulary.variableDomain (v : Vocabulary) (x : String) : Domain :=
  if v.setNames.contains x then .set else .elem

def Vocabulary.functionDomain (v : Vocabulary) (f : String) : Domain :=
  if v.setFunctions.contains f then .set else .elem

/-- The sorts of the arguments and of the result of a function. -/
structure Arrow where
  args : List Domain
  result : Domain
  deriving DecidableEq

/-- The symbols in use; a name has the sort of its first use. -/
structure Declarations where
  constants : List (String × Domain) := []
  functions : List ((String × Nat) × Arrow) := []

/-- Sorts that do not fit together. -/
inductive SortMismatch where
  | mismatch
  deriving DecidableEq

abbrev Encoder := ExceptT SortMismatch (StateM Declarations)

/-! ## Symbols -/

/-- Goes on only if the condition holds. -/
def ensure (condition : Bool) : Encoder Unit :=
  if condition then pure () else throw .mismatch

/-- A name without arguments: the innermost quantifier that binds it, the constant declared for it,
or a new constant of the given sort. -/
def constant (scope : List String) (name : String) (domain : Domain) : Encoder Expr := do
  match scope.idxOf? name with
  | some k => return .bound k
  | none =>
    let declared ← get
    match declared.constants.lookup name with
    | some d => return .symbol name d []
    | none =>
      set { declared with constants := (name, domain) :: declared.constants }
      return .symbol name domain []

/-- The sorts declared for a function, or those of this first use. -/
def arrow (name : String) (args : List Domain) (result : Domain) : Encoder Arrow := do
  let declared ← get
  match declared.functions.lookup (name, args.length) with
  | some a => return a
  | none =>
    let a : Arrow := ⟨args, result⟩
    set { declared with functions := ((name, args.length), a) :: declared.functions }
    return a

/-- A function applied to arguments of the sorts it is declared for. -/
def apply (name : String) (args : List Expr) (result : Domain) : Encoder Expr := do
  let domains := args.map Expr.domain
  let a ← arrow name domains result
  ensure (domains = a.args)
  return .symbol name a.result args

/-! ## Operators -/

def store (s e : Expr) (present : Bool) : Encoder Expr := do
  ensure (s.domain = .set && e.domain = .elem)
  return .store s e present

def onSets (op : Expr → Expr → Expr) (s t : Expr) : Encoder Expr := do
  ensure (s.domain = .set && t.domain = .set)
  return op s t

def equal (a b : Expr) : Encoder Expr := do
  ensure (a.domain = b.domain)
  return .equal a b

/-- A connective. An equivalence is an equation, with a quantifier in front of what is none. -/
def connect (c : Connective) (a b : Expr) : Encoder Expr :=
  match c with
  | .iff => if b.isQuantifier && !a.isQuantifier then equal b a else equal a b
  | .and => onTruth .and
  | .or => onTruth .or
  | .implies => onTruth .implies
where
  onTruth (op : Expr → Expr → Expr) : Encoder Expr := do
    ensure (a.domain = .bool && b.domain = .bool)
    return op a b

/-! ## Terms and formulas -/

mutual

/-- The expression of a term in the scope of quantifiers, the innermost first. The base of `add` and
`remove` comes before the element. -/
def encodeTerm (v : Vocabulary) (scope : List String) : Term → Encoder Expr
  | .var x => constant scope x (v.variableDomain x)
  | .app f [] => constant scope f (v.functionDomain f)
  | .app f args => do
    let args ← encodeTerms v scope args
    apply f args (v.functionDomain f)
  | .empty => return .emptySet
  | .singleton e => do
    let e ← encodeTerm v scope e
    store .emptySet e true
  | .add e s => do
    let s ← encodeTerm v scope s
    let e ← encodeTerm v scope e
    store s e true
  | .remove e s => do
    let s ← encodeTerm v scope s
    let e ← encodeTerm v scope e
    store s e false
  | .union s t => do
    let s ← encodeTerm v scope s
    let t ← encodeTerm v scope t
    onSets .union s t
  | .inter s t => do
    let s ← encodeTerm v scope s
    let t ← encodeTerm v scope t
    onSets .inter s t
  | .diff s t => do
    let s ← encodeTerm v scope s
    let t ← encodeTerm v scope t
    onSets .diff s t

def encodeTerms (v : Vocabulary) (scope : List String) : List Term → Encoder (List Expr)
  | [] => return []
  | t :: ts => do
    let e ← encodeTerm v scope t
    let es ← encodeTerms v scope ts
    return e :: es

end

def encodeAtom (v : Vocabulary) (scope : List String) : Atom → Encoder Expr
  | .eq l r | .setEq l r => do
    let a ← encodeTerm v scope l
    let b ← encodeTerm v scope r
    equal a b
  | .mem e s => do
    let e ← encodeTerm v scope e
    let s ← encodeTerm v scope s
    ensure (s.domain = .set && e.domain = .elem)
    return .select s e
  | .isEmpty s => do
    let s ← encodeTerm v scope s
    equal s .emptySet
  | .subset s t => do
    let s ← encodeTerm v scope s
    let t ← encodeTerm v scope t
    onSets .subset s t
  | .pred p [] => return .symbol p .bool []
  | .pred p args => do
    let args ← encodeTerms v scope args
    apply p args .bool

def encodeFormula (v : Vocabulary) : (scope : List String) → Formula → Encoder Expr
  | _, .top => return .truth true
  | _, .bot => return .truth false
  | scope, .atom a => encodeAtom v scope a
  | scope, .not f => do
    let e ← encodeFormula v scope f
    ensure (e.domain = .bool)
    return .not e
  | scope, .connect c l r => do
    let a ← encodeFormula v scope l
    let b ← encodeFormula v scope r
    connect c a b
  | scope, .all x f => do
    let body ← encodeFormula v (x :: scope) f
    ensure (body.domain = .bool)
    return .all x body

/-- The formulas one after another over the same declarations; a formula that fails leaves a gap and
its declarations. -/
def encodeAll (v : Vocabulary) : List Formula → StateM Declarations (List (Except SortMismatch Expr))
  | [] => return []
  | f :: fs => do
    let e ← (encodeFormula v [] f).run
    let es ← encodeAll v fs
    return e :: es

/-- The expressions of a list of formulas, whose own use of names as sets fixes the sorts. -/
def encode (fs : List Formula) : List (Except SortMismatch Expr) :=
  ((encodeAll (.ofFormulas fs) fs).run {}).1

end SetSequent.Solver
