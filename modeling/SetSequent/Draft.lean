import SetSequent.Node
import SetSequent.Text.Quoted

/-!
# Drafts

A draft is an expression that nobody has checked: a shape with any operands. Building it reports
the first fault, operands before the node that holds them, from left to right.

* `Draft.fault?` — the first fault of a draft.
* `Draft.build` — the node a faultless draft stands for.
* `Node.replace` — replacement of one node by another of any kind: replace in the draft, then build.
-/

namespace SetSequent

inductive Draft where
  | absent
  | truth (b : Bool)
  | number (n : Int)
  | text (s : String)
  | unknown
  | node (shape : Shape) (operands : List Draft)
  deriving Inhabited

/-- What an operand has to be. -/
inductive Kind where
  | term
  | formula
  | variable
  deriving DecidableEq, Repr

def Kind.name : Kind → String
  | .term => "Term"
  | .formula => "Formula"
  | .variable => "Var"

/-- The operands that a shape takes. -/
inductive Signature where
  | name
  | nameAndTerms
  | operands (kinds : List Kind)

def Shape.signature : Shape → Signature
  | .var => .name
  | .app | .pred => .nameAndTerms
  | .emptySet | .top | .bot => .operands []
  | .singleton | .isEmpty => .operands [.term]
  | .add | .remove | .union | .inter | .diff | .eq | .mem | .subset | .setEq =>
      .operands [.term, .term]
  | .not => .operands [.formula]
  | .and | .or | .implies | .iff => .operands [.formula, .formula]
  | .all => .operands [.variable, .formula]

/-- The names of the fields of a shape. -/
def Shape.fields : Shape → List String
  | .var => ["name"]
  | .app | .pred => ["name", "args"]
  | .emptySet | .top | .bot => []
  | .singleton => ["elem"]
  | .add | .remove => ["elem", "base"]
  | .union | .inter | .diff | .eq | .subset | .setEq => ["left", "right"]
  | .mem => ["elem", "container"]
  | .isEmpty => ["container"]
  | .not => ["body"]
  | .and | .or | .implies | .iff => ["left", "right"]
  | .all => ["variable", "body"]

/-! ## Description -/

namespace Draft

/-- A list of descriptions between parentheses; one alone is followed by a comma. -/
def describeTuple : List String → String
  | [] => "()"
  | [d] => "(" ++ d ++ ",)"
  | ds => "(" ++ ", ".intercalate ds ++ ")"

/-- A shape with its fields, each field by name. Operands past the last field form its tuple. -/
def describeNode (s : Shape) (operands : List String) : String :=
  let values :=
    match s.signature, operands with
    | .nameAndTerms, name :: args => [name, describeTuple args]
    | _, operands => operands
  let fields := List.zipWith (fun field value => field ++ "=" ++ value) s.fields values
  s.name ++ "(" ++ ", ".intercalate fields ++ ")"

mutual

/-- The description of a draft in a message. -/
def describe : Draft → String
  | .absent | .unknown => "None"
  | .truth b => if b then "True" else "False"
  | .number n => toString n
  | .text s => Text.quoted s
  | .node s operands => describeNode s (describeAll operands)

def describeAll : List Draft → List String
  | [] => []
  | d :: ds => describe d :: describeAll ds

end

end Draft

/-! ## Faults -/

inductive Fault where
  | unknownShape
  | wrongCount (shape : Shape)
  | wrongKind (shape : Shape) (expected : Kind) (found : Draft)
  | unnamed

def Fault.message : Fault → String
  | .unknownShape => "unknown shape"
  | .wrongCount s => s.name ++ " has the wrong number of arguments"
  | .wrongKind s k d => s.name ++ " expects " ++ k.name ++ " arguments, got " ++ d.describe
  | .unnamed => "a name has to be a text"

namespace Draft

def hasKind (d : Draft) (k : Kind) : Bool :=
  match d, k with
  | .node s _, .term => s.isTerm
  | .node s _, .formula => !s.isTerm
  | .node s _, .variable => s == .var
  | _, _ => false

/-- The fault of a node whose operands have none. -/
def ownFault? (s : Shape) (operands : List Draft) : Option Fault :=
  let mismatch (k : Kind) (d : Draft) : Option Fault :=
    if d.hasKind k then none else some (.wrongKind s k d)
  match s.signature, operands with
  | .name, [_] => none
  | .name, _ => some (.wrongCount s)
  | .nameAndTerms, _ :: args => args.findSome? (mismatch .term)
  | .nameAndTerms, [] => some (.wrongCount s)
  | .operands kinds, operands =>
    if operands.length = kinds.length then
      (kinds.zip operands).findSome? fun (k, d) => mismatch k d
    else some (.wrongCount s)

mutual

/-- The first fault of a draft, operands first. -/
def fault? : Draft → Option Fault
  | .unknown => some .unknownShape
  | .node s operands => (firstFault? operands).or (ownFault? s operands)
  | _ => none

def firstFault? : List Draft → Option Fault
  | [] => none
  | d :: ds => (fault? d).or (firstFault? ds)

end

/-! ## Building -/

mutual

def toTerm? : Draft → Option Term
  | .node .var [.text x] => some (.var x)
  | .node .app (.text f :: args) => (toTerms? args).map (.app f)
  | .node .emptySet [] => some .empty
  | .node .singleton [e] => do return .singleton (← toTerm? e)
  | .node .add [e, s] => do return .add (← toTerm? e) (← toTerm? s)
  | .node .remove [e, s] => do return .remove (← toTerm? e) (← toTerm? s)
  | .node .union [s, t] => do return .union (← toTerm? s) (← toTerm? t)
  | .node .inter [s, t] => do return .inter (← toTerm? s) (← toTerm? t)
  | .node .diff [s, t] => do return .diff (← toTerm? s) (← toTerm? t)
  | _ => none

def toTerms? : List Draft → Option (List Term)
  | [] => some []
  | d :: ds => do return (← toTerm? d) :: (← toTerms? ds)

end

def toFormula? : Draft → Option Formula
  | .node .top [] => some .top
  | .node .bot [] => some .bot
  | .node .eq [a, b] => do return .atom (.eq (← a.toTerm?) (← b.toTerm?))
  | .node .mem [a, b] => do return .atom (.mem (← a.toTerm?) (← b.toTerm?))
  | .node .isEmpty [a] => do return .atom (.isEmpty (← a.toTerm?))
  | .node .subset [a, b] => do return .atom (.subset (← a.toTerm?) (← b.toTerm?))
  | .node .setEq [a, b] => do return .atom (.setEq (← a.toTerm?) (← b.toTerm?))
  | .node .pred (.text p :: args) => do return .atom (.pred p (← toTerms? args))
  | .node .not [f] => do return .not (← toFormula? f)
  | .node .and [f, g] => do return .and (← toFormula? f) (← toFormula? g)
  | .node .or [f, g] => do return .or (← toFormula? f) (← toFormula? g)
  | .node .implies [f, g] => do return .implies (← toFormula? f) (← toFormula? g)
  | .node .iff [f, g] => do return .iff (← toFormula? f) (← toFormula? g)
  | .node .all [.node .var [.text x], f] => do return .all x (← toFormula? f)
  | _ => none

/-- The node that a draft stands for, or its first fault. -/
def build (d : Draft) : Except Fault Node :=
  match d.fault? with
  | some fault => .error fault
  | none =>
    match d.toTerm?, d.toFormula? with
    | some t, _ => .ok (.term t)
    | none, some f => .ok (.formula f)
    | none, none => .error .unnamed

end Draft

/-! ## Drafts of nodes and replacement -/

namespace Term

mutual

/-- The draft of a term in which each part `p` with `cut p = some d` is left as `d`. -/
def draftWith (cut : Term → Option Draft) : Term → Draft
  | .var x => (cut (.var x)).getD (.node .var [.text x])
  | .app f args => (cut (.app f args)).getD (.node .app (.text f :: listDraftWith cut args))
  | .empty => (cut .empty).getD (.node .emptySet [])
  | .singleton e => (cut (.singleton e)).getD (.node .singleton [draftWith cut e])
  | .add e s => (cut (.add e s)).getD (.node .add [draftWith cut e, draftWith cut s])
  | .remove e s => (cut (.remove e s)).getD (.node .remove [draftWith cut e, draftWith cut s])
  | .union s t => (cut (.union s t)).getD (.node .union [draftWith cut s, draftWith cut t])
  | .inter s t => (cut (.inter s t)).getD (.node .inter [draftWith cut s, draftWith cut t])
  | .diff s t => (cut (.diff s t)).getD (.node .diff [draftWith cut s, draftWith cut t])

def listDraftWith (cut : Term → Option Draft) : List Term → List Draft
  | [] => []
  | t :: ts => draftWith cut t :: listDraftWith cut ts

end

def toDraft (t : Term) : Draft := t.draftWith fun _ => none

end Term

namespace Atom

def draftWith (cut : Term → Option Draft) (a : Atom) : Draft :=
  let operands := Term.listDraftWith cut a.args
  match a with
  | .pred p _ => .node .pred (.text p :: operands)
  | a => .node a.shape operands

end Atom

namespace Formula

def toDraft : Formula → Draft
  | .top => .node .top []
  | .bot => .node .bot []
  | .atom a => a.draftWith fun _ => none
  | .not f => .node .not [f.toDraft]
  | .connect c l r => .node c.shape [l.toDraft, r.toDraft]
  | .all x f => .node .all [(Term.var x).toDraft, f.toDraft]

/-- The draft of a formula in which `new` stands for each part equal to `old`. A quantifier is
never replaced itself, and one that binds the variable `old` is left as it is. -/
def draftReplacing (old : Node) (new : Draft) : Formula → Draft
  | .all x f =>
    if old = .term (.var x) then toDraft (.all x f)
    else .node .all [(Term.var x).toDraft, f.draftReplacing old new]
  | .top => if old = .formula .top then new else toDraft .top
  | .bot => if old = .formula .bot then new else toDraft .bot
  | .atom a =>
    if old = .formula (.atom a) then new
    else a.draftWith fun t => if old = .term t then some new else none
  | .not f =>
    if old = .formula (.not f) then new else .node .not [f.draftReplacing old new]
  | .connect c l r =>
    if old = .formula (.connect c l r) then new
    else .node c.shape [l.draftReplacing old new, r.draftReplacing old new]

end Formula

namespace Node

def toDraft : Node → Draft
  | .term t => t.toDraft
  | .formula f => f.toDraft

/-- Replaces every occurrence of `old` by `new` and checks the result. -/
def replace (node old new : Node) : Except Fault Node :=
  match node with
  | .term t =>
    (t.draftWith fun u => if old = .term u then some new.toDraft else none).build
  | .formula f => (f.draftReplacing old new.toDraft).build

end Node

end SetSequent
