import SetSequent.Membership

/-!
# Equations

Equations of elements and of sets are eliminated alike: a side that is a variable is replaced by the
other side, where it does not occur.

* `Equation.elimination?` — the variable to eliminate and its replacement.
* `Sequent.substitute` — eliminates until no hypothesis is trivial or offers a variable.
-/

namespace SetSequent

inductive EquationKind where
  | element
  | set
  deriving DecidableEq, Repr

structure Equation where
  kind : EquationKind
  lhs : Term
  rhs : Term
  deriving DecidableEq

namespace Equation

def ofAtom? : Atom → Option Equation
  | .eq l r => some ⟨.element, l, r⟩
  | .setEq l r => some ⟨.set, l, r⟩
  | _ => none

def ofFormula? : Formula → Option Equation
  | .atom a => ofAtom? a
  | _ => none

def toAtom (e : Equation) : Atom :=
  match e.kind with
  | .element => .eq e.lhs e.rhs
  | .set => .setEq e.lhs e.rhs

def isTrivial (e : Equation) : Bool := e.lhs == e.rhs

/-- The variable that `side` is, if it does not occur in `other`. -/
def solve? (side other : Term) : Option (String × Term) :=
  match side with
  | .var x => if other.vars.contains x then none else some (x, other)
  | _ => none

/-- The variable to eliminate and its replacement; the right side comes first. -/
def elimination? (e : Equation) : Option (String × Term) :=
  (solve? e.rhs e.lhs).or (solve? e.lhs e.rhs)

theorem eq_of_solve? {side other : Term} {x : String} {t : Term}
    (h : solve? side other = some (x, t)) : side = .var x ∧ other = t ∧ x ∉ t.vars := by
  unfold solve? at h
  split at h
  · split at h
    · cases h
    · cases h; simp_all
  · cases h

/-- The eliminated variable is one side, its replacement the other, in which it does not occur. -/
theorem eq_of_elimination? {e : Equation} {x : String} {t : Term}
    (h : e.elimination? = some (x, t)) :
    ((e.rhs = .var x ∧ e.lhs = t) ∨ (e.lhs = .var x ∧ e.rhs = t)) ∧ x ∉ t.vars := by
  rcases Option.or_eq_some_iff.1 h with h | ⟨_, h⟩
  · have := eq_of_solve? h; exact ⟨.inl ⟨this.1, this.2.1⟩, this.2.2⟩
  · have := eq_of_solve? h; exact ⟨.inr ⟨this.1, this.2.1⟩, this.2.2⟩

end Equation

/-- Why a hypothesis can be taken away. -/
inductive Removal where
  | trivial
  | eliminate (x : String) (t : Term)
  deriving DecidableEq

def Formula.removal? (f : Formula) : Option Removal :=
  match Equation.ofFormula? f with
  | none => none
  | some e => if e.isTrivial then some .trivial else e.elimination?.map fun (x, t) => .eliminate x t

/-- The first hypothesis that can be taken away, why, and the others. -/
def findRemoval : List Hypothesis → Option (Hypothesis × Removal × List Hypothesis)
  | [] => none
  | h :: rest =>
    match h.formula.removal? with
    | some r => some (h, r, rest)
    | none => (findRemoval rest).map fun (h', r, others) => (h', r, h :: others)

theorem length_findRemoval {hs others : List Hypothesis} {h : Hypothesis} {r : Removal}
    (hr : findRemoval hs = some (h, r, others)) : hs.length = others.length + 1 := by
  induction hs generalizing others with
  | nil => cases hr
  | cons h' hs ih =>
    rw [findRemoval] at hr
    split at hr
    · cases hr; rfl
    · obtain ⟨⟨_, _, others'⟩, found, he⟩ := Option.map_eq_some_iff.1 hr
      cases he
      simp [ih found]

namespace Sequent

def substitute (s : Sequent) : Noted Sequent :=
  match _h : findRemoval s.hypotheses with
  | none => return s
  | some (h, .trivial, others) => do
    noteStep "substitute" ("clear trivial " ++ h.text)
    substitute { s with hypotheses := others }
  | some (h, .eliminate x t, others) => do
    noteStep "substitute" ("subst " ++ x ++ " := " ++ t.text ++ " using " ++ h.name)
    substitute
      { hypotheses := others.map fun h => { h with formula := h.formula.eliminate x t }
        goal := s.goal.eliminate x t }
termination_by s.hypotheses.length
decreasing_by
  · simp [length_findRemoval _h]
  · simp [length_findRemoval _h]

end Sequent

end SetSequent
