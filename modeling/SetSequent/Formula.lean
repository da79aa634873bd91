import SetSequent.Term

/-!
# Formulas

* `Atom` — equations, memberships, the three set relations, and atoms of named predicates.
* `Formula` — constants, atoms, negation, the four binary connectives and quantification.
* `Atom.text`, `Formula.text` — the written form.
* `Atom.orient` — an equation with the side that is first in text order on the left.
* `Formula.vars`, `Formula.freeVars`, `Formula.subst` — names and replacement of a free variable.

Equality of formulas is equality of trees: `x = y` and `y = x` differ until they are oriented.
-/

namespace SetSequent

inductive Atom where
  | eq (left right : Term)
  | mem (elem container : Term)
  | isEmpty (container : Term)
  | subset (left right : Term)
  | setEq (left right : Term)
  | pred (name : String) (args : List Term)
  deriving DecidableEq, Inhabited

inductive Connective where
  | and
  | or
  | implies
  | iff
  deriving DecidableEq, Inhabited

inductive Formula where
  | top
  | bot
  | atom (a : Atom)
  | not (body : Formula)
  | connect (c : Connective) (left right : Formula)
  | all (name : String) (body : Formula)
  deriving DecidableEq, Inhabited

namespace Formula

@[match_pattern] abbrev and (l r : Formula) : Formula := .connect .and l r

@[match_pattern] abbrev or (l r : Formula) : Formula := .connect .or l r

@[match_pattern] abbrev implies (l r : Formula) : Formula := .connect .implies l r

@[match_pattern] abbrev iff (l r : Formula) : Formula := .connect .iff l r

/-- The conjunction of a list, nested to the right; `true` for the empty list. -/
def conjunction : List Formula → Formula
  | [] => .top
  | [f] => f
  | f :: fs => .and f (conjunction fs)

/-- The disjunction of a list, nested to the right; `false` for the empty list. -/
def disjunction : List Formula → Formula
  | [] => .bot
  | [f] => f
  | f :: fs => .or f (disjunction fs)

end Formula

/-! ## Written form -/

def Atom.text : Atom → String
  | .eq l r => l.text ++ " = " ++ r.text
  | .mem e s => e.text ++ " in " ++ s.text
  | .isEmpty s => "Empty(" ++ s.text ++ ")"
  | .subset s t => "Subset(" ++ s.text ++ ", " ++ t.text ++ ")"
  | .setEq s t => "Equal(" ++ s.text ++ ", " ++ t.text ++ ")"
  | .pred p [] => p
  | .pred p args => p ++ "(" ++ Term.listText args ++ ")"

def Connective.word : Connective → String
  | .and => "and"
  | .or => "or"
  | .implies => "implies"
  | .iff => "iff"

def Formula.text : Formula → String
  | .top => "true"
  | .bot => "false"
  | .atom a => a.text
  | .not f => "not " ++ f.text
  | .connect c l r => "(" ++ l.text ++ " " ++ c.word ++ " " ++ r.text ++ ")"
  | .all x f => "(forall " ++ x ++ ". " ++ f.text ++ ")"

/-- The formulas in the order of their written forms; equal forms keep their order. -/
def Formula.sortByText (fs : List Formula) : List Formula :=
  fs.mergeSort fun f g => !decide (g.text < f.text)

/-! ## Atoms -/

namespace Atom

def args : Atom → List Term
  | .eq a b | .mem a b | .subset a b | .setEq a b => [a, b]
  | .isEmpty s => [s]
  | .pred _ args => args

def mapArgs (g : Term → Term) : Atom → Atom
  | .eq a b => .eq (g a) (g b)
  | .mem a b => .mem (g a) (g b)
  | .isEmpty s => .isEmpty (g s)
  | .subset a b => .subset (g a) (g b)
  | .setEq a b => .setEq (g a) (g b)
  | .pred p args => .pred p (args.map g)

@[simp] theorem args_mapArgs (g : Term → Term) (a : Atom) : (a.mapArgs g).args = a.args.map g := by
  cases a <;> rfl

def vars (a : Atom) : List String := a.args.flatMap Term.vars

@[simp] theorem mem_vars_eq {x : String} {l r : Term} :
    x ∈ (eq l r).vars ↔ x ∈ l.vars ∨ x ∈ r.vars := by
  simp [vars, args]

@[simp] theorem mem_vars_mem {x : String} {e s : Term} :
    x ∈ (mem e s).vars ↔ x ∈ e.vars ∨ x ∈ s.vars := by
  simp [vars, args]

/-- Puts the side of an equation that is first in text order on the left. -/
def orient : Atom → Atom
  | .eq l r => if r.text < l.text then .eq r l else .eq l r
  | a => a

theorem mem_vars_orient {x : String} {a : Atom} : x ∈ a.orient.vars ↔ x ∈ a.vars := by
  cases a with
  | eq l r =>
    simp only [orient]
    split <;> simp [or_comm]
  | _ => rfl

/-- Whether the atom is an equation between a term and itself. -/
def isReflexive : Atom → Bool
  | .eq l r => l == r
  | _ => false

def isSetRelation : Atom → Bool
  | .isEmpty _ | .subset .. | .setEq .. => true
  | _ => false

/-- The arguments that stand in a set position. -/
def setArgs : Atom → List Term
  | .mem _ s | .isEmpty s => [s]
  | .subset s t | .setEq s t => [s, t]
  | .eq .. | .pred .. => []

/-- The element terms of an atom: the sides of an equation, the element of a membership, and the
elements inside the sets. Arguments of predicates do not count. -/
def elementTerms : Atom → List Term
  | .eq l r => [l, r]
  | .mem e s => e :: s.constructorElements
  | .isEmpty s => s.constructorElements
  | .subset s t | .setEq s t => s.constructorElements ++ t.constructorElements
  | .pred .. => []

end Atom

/-! ## Parts of formulas -/

namespace Formula

/-- The atoms from left to right, with repetitions. -/
def atoms : Formula → List Atom
  | .top | .bot => []
  | .atom a => [a]
  | .not f => f.atoms
  | .connect _ l r => l.atoms ++ r.atoms
  | .all _ f => f.atoms

def orient : Formula → Formula
  | .atom a => .atom a.orient
  | f => f

def isSetRelation : Formula → Bool
  | .atom a => a.isSetRelation
  | _ => false

def negationCount : Formula → Nat
  | .top | .bot | .atom _ => 0
  | .not f => f.negationCount + 1
  | .connect _ l r => l.negationCount + r.negationCount
  | .all _ f => f.negationCount

/-- The element terms of the atoms, each once, in order of appearance. -/
def elementTerms (f : Formula) : List Term := (f.atoms.flatMap Atom.elementTerms).eraseDups

/-- The names of the variables, bound ones included, from left to right with repetitions. -/
def vars : Formula → List String
  | .top | .bot => []
  | .atom a => a.vars
  | .not f => f.vars
  | .connect _ l r => l.vars ++ r.vars
  | .all x f => x :: f.vars

/-- The names of the variables that occur free, with repetitions. -/
def freeVars : Formula → List String
  | .top | .bot => []
  | .atom a => a.vars
  | .not f => f.freeVars
  | .connect _ l r => l.freeVars ++ r.freeVars
  | .all x f => f.freeVars.filter (· ≠ x)

/-- Replaces the free occurrences of the variable `x` by `t`. A quantifier may capture a variable
of `t`. -/
def subst (x : String) (t : Term) : Formula → Formula
  | .top => .top
  | .bot => .bot
  | .atom a => .atom (a.mapArgs (·.subst x t))
  | .not f => .not (f.subst x t)
  | .connect c l r => .connect c (l.subst x t) (r.subst x t)
  | .all y f => if y = x then .all y f else .all y (f.subst x t)

theorem mem_vars_of_mem_freeVars {f : Formula} {x : String} (h : x ∈ f.freeVars) :
    x ∈ f.vars := by
  induction f with
  | top | bot | atom => exact h
  | not f ih => exact ih h
  | connect c l r ihl ihr => exact List.mem_append.2 ((List.mem_append.1 h).imp ihl ihr)
  | all y f ih => exact .tail _ (ih (List.mem_filter.1 h).1)

theorem mem_freeVars_orient {x : String} {f : Formula} :
    x ∈ f.orient.freeVars ↔ x ∈ f.freeVars := by
  cases f <;> simp [orient, freeVars, Atom.mem_vars_orient]

theorem mem_freeVars_subst {x y : String} {t : Term} {f : Formula}
    (h : y ∈ (f.subst x t).freeVars) : (y ∈ f.freeVars ∧ y ≠ x) ∨ y ∈ t.vars := by
  induction f with
  | top | bot => simp [subst, freeVars] at h
  | atom a =>
    simp only [subst, freeVars, Atom.vars, Atom.args_mapArgs, List.mem_flatMap, List.mem_map] at h ⊢
    obtain ⟨_, ⟨u, hu, rfl⟩, h⟩ := h
    rcases Term.mem_vars_subst u h with ⟨h, hx⟩ | h
    · exact .inl ⟨⟨u, hu, h⟩, hx⟩
    · exact .inr h
  | not f ih => exact ih h
  | connect c l r ihl ihr =>
    simp only [subst, freeVars, List.mem_append] at h ⊢
    rcases h with h | h
    · rcases ihl h with ⟨h, hx⟩ | h
      · exact .inl ⟨.inl h, hx⟩
      · exact .inr h
    · rcases ihr h with ⟨h, hx⟩ | h
      · exact .inl ⟨.inr h, hx⟩
      · exact .inr h
  | all z f ih =>
    by_cases hz : z = x
    · subst hz
      simp only [subst, if_pos, freeVars, List.mem_filter] at h ⊢
      exact .inl ⟨h, by simpa using h.2⟩
    · simp only [subst, if_neg hz, freeVars, List.mem_filter] at h ⊢
      rcases ih h.1 with ⟨hf, hx⟩ | ht
      · exact .inl ⟨⟨hf, h.2⟩, hx⟩
      · exact .inr ht

end Formula

/-! ## Names used as sets -/

/-- The variables that some atom of `fs` uses as a set, with repetitions. -/
def setVarNames (fs : List Formula) : List String :=
  fs.flatMap fun f => f.atoms.flatMap fun a => a.setArgs.flatMap Term.setVars

/-- The function symbols whose applications some atom of `fs` uses as a set, with repetitions. -/
def setFunctionNames (fs : List Formula) : List String :=
  fs.flatMap fun f => f.atoms.flatMap fun a => a.setArgs.flatMap Term.setFunctions

/-- Each name once, in ascending order. -/
def sortedNames (names : List String) : List String :=
  names.eraseDups.mergeSort fun a b => !decide (b < a)

end SetSequent
