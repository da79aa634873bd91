import SetSequent.Node

/-!
# Decidability tables

A rule that holds only classically may be used on a formula that the table knows to be decidable.

* `DecidabilityTable` — a strategy for each shape of atom, and a reason for each declared predicate.
* `DecidabilityTable.reason` — why a formula is decidable, if the table can tell.
* `DecidabilityTable.standard` — equations and memberships are decidable.

A later registration replaces an earlier one. A compound formula has a reason when both sides have
one that is not the empty text.
-/

namespace SetSequent

/-- Strategies and reasons, the latest first. -/
structure DecidabilityTable where
  strategies : List (Shape × (Atom → Option String)) := []
  predicates : List (String × String) := []

namespace DecidabilityTable

def register (t : DecidabilityTable) (shape : Shape) (strategy : Atom → Option String) :
    DecidabilityTable :=
  { t with strategies := (shape, strategy) :: t.strategies }

/-- Declares the atoms of a predicate decidable. Without a reason that says something, the reason is
the name followed by `_dec`. -/
def registerPredicate (t : DecidabilityTable) (name : String) (reason : Option String) :
    DecidabilityTable :=
  let reason :=
    match reason with
    | none | some "" => name ++ "_dec"
    | some r => r
  { t with predicates := (name, reason) :: t.predicates }

def standard : DecidabilityTable :=
  (({} : DecidabilityTable).register .eq fun _ => some "eq_dec").register .mem fun _ =>
    some "mem_dec"

/-- Whether the table has an entry for the shape of `f`, or for its predicate. -/
def declares (t : DecidabilityTable) : Formula → Bool
  | .atom (.pred p _) => (t.predicates.lookup p).isSome
  | f => (t.strategies.lookup f.shape).isSome

def atomReason (t : DecidabilityTable) : Atom → Option String
  | .pred p _ => t.predicates.lookup p
  | a => (t.strategies.lookup a.shape).bind fun strategy => strategy a

/-- Whether there is a reason and it says something. -/
def speaks : Option String → Bool
  | none | some "" => false
  | some _ => true

def reason (t : DecidabilityTable) : Formula → Option String
  | .top | .bot => some "constant"
  | .atom a => t.atomReason a
  | .not f => t.reason f
  | .connect _ l r => if speaks (t.reason l) && speaks (t.reason r) then some "compound" else none
  | .all .. => none

def isDecidable (t : DecidabilityTable) (f : Formula) : Bool := (t.reason f).isSome

end DecidabilityTable

end SetSequent
