/-!
# Terms

A term denotes an element or a set; the two are told apart by the position a term stands in, not by
its type.

* `Term` — variables, applications of function symbols, and the set constructors.
* `Term.text` — the written form.
* `Term.vars`, `Term.subterms`, `Term.subst` — variables, parts, replacement of a variable.
* `Term.isSetTerm`, `Term.isElementTerm` — the terms that the procedure understands.

An application holds a list of terms, so each recursion has a companion on lists.
-/

namespace SetSequent

inductive Term where
  | var (name : String)
  | app (name : String) (args : List Term)
  | empty
  | singleton (elem : Term)
  | add (elem base : Term)
  | remove (elem base : Term)
  | union (left right : Term)
  | inter (left right : Term)
  | diff (left right : Term)
  deriving Inhabited

namespace Term

/-! ## Equality -/

mutual

/-- Whether two terms are the same tree. -/
def same : Term → Term → Bool
  | .var x, .var y => x == y
  | .app f as, .app g bs => f == g && sameAll as bs
  | .empty, .empty => true
  | .singleton a, .singleton b => same a b
  | .add a s, .add b t => same a b && same s t
  | .remove a s, .remove b t => same a b && same s t
  | .union s t, .union u v => same s u && same t v
  | .inter s t, .inter u v => same s u && same t v
  | .diff s t, .diff u v => same s u && same t v
  | _, _ => false

def sameAll : List Term → List Term → Bool
  | [], [] => true
  | a :: as, b :: bs => same a b && sameAll as bs
  | _, _ => false

end

mutual

theorem same_iff : (a b : Term) → (same a b = true ↔ a = b)
  | .var x, b => by cases b <;> simp [same]
  | .app f as, b => by cases b <;> simp [same, sameAll_iff as]
  | .empty, b => by cases b <;> simp [same]
  | .singleton a, b => by cases b <;> simp [same, same_iff a]
  | .add a s, b => by cases b <;> simp [same, same_iff a, same_iff s]
  | .remove a s, b => by cases b <;> simp [same, same_iff a, same_iff s]
  | .union s t, b => by cases b <;> simp [same, same_iff s, same_iff t]
  | .inter s t, b => by cases b <;> simp [same, same_iff s, same_iff t]
  | .diff s t, b => by cases b <;> simp [same, same_iff s, same_iff t]

theorem sameAll_iff : (as bs : List Term) → (sameAll as bs = true ↔ as = bs)
  | [], bs => by cases bs <;> simp [sameAll]
  | a :: as, bs => by cases bs <;> simp [sameAll, same_iff a, sameAll_iff as]

end

instance : DecidableEq Term := fun a b => decidable_of_iff _ (same_iff a b)

/-! ## Written form -/

mutual

def text : Term → String
  | .var x => x
  | .app f args => f ++ "(" ++ listText args ++ ")"
  | .empty => "empty"
  | .singleton e => "singleton(" ++ text e ++ ")"
  | .add e s => "add(" ++ text e ++ ", " ++ text s ++ ")"
  | .remove e s => "remove(" ++ text e ++ ", " ++ text s ++ ")"
  | .union s t => "union(" ++ text s ++ ", " ++ text t ++ ")"
  | .inter s t => "inter(" ++ text s ++ ", " ++ text t ++ ")"
  | .diff s t => "diff(" ++ text s ++ ", " ++ text t ++ ")"

/-- The terms with a comma and a space between neighbours. -/
def listText : List Term → String
  | [] => ""
  | [t] => text t
  | t :: ts => text t ++ ", " ++ listText ts

end

/-! ## Parts -/

def children : Term → List Term
  | .var _ | .empty => []
  | .app _ args => args
  | .singleton e => [e]
  | .add a b | .remove a b | .union a b | .inter a b | .diff a b => [a, b]

mutual

/-- The proper parts of a term, each before its own parts. -/
def subterms : Term → List Term
  | .var _ | .empty => []
  | .app _ args => listSubterms args
  | .singleton e => e :: subterms e
  | .add a b | .remove a b | .union a b | .inter a b | .diff a b =>
      a :: subterms a ++ b :: subterms b

/-- The terms of a list and their parts, each before its own parts. -/
def listSubterms : List Term → List Term
  | [] => []
  | t :: ts => t :: subterms t ++ listSubterms ts

end

mutual

/-- The names of the variables, from left to right, with repetitions. -/
def vars : Term → List String
  | .var x => [x]
  | .app _ args => listVars args
  | .empty => []
  | .singleton e => vars e
  | .add a b | .remove a b | .union a b | .inter a b | .diff a b => vars a ++ vars b

def listVars : List Term → List String
  | [] => []
  | t :: ts => vars t ++ listVars ts

end

/-- Whether `part` is `t` or a part of it. -/
def occursIn (part t : Term) : Bool := (t :: t.subterms).contains part

/-! ## Replacement of a variable -/

mutual

/-- Replaces the variable `x` by `r` everywhere. -/
def subst : Term → (x : String) → (r : Term) → Term
  | .var y, x, r => if y = x then r else .var y
  | .app f args, x, r => .app f (listSubst args x r)
  | .empty, _, _ => .empty
  | .singleton e, x, r => .singleton (subst e x r)
  | .add e s, x, r => .add (subst e x r) (subst s x r)
  | .remove e s, x, r => .remove (subst e x r) (subst s x r)
  | .union s t, x, r => .union (subst s x r) (subst t x r)
  | .inter s t, x, r => .inter (subst s x r) (subst t x r)
  | .diff s t, x, r => .diff (subst s x r) (subst t x r)

def listSubst : List Term → (x : String) → (r : Term) → List Term
  | [], _, _ => []
  | t :: ts, x, r => subst t x r :: listSubst ts x r

end

mutual

theorem mem_vars_subst {x y : String} {r : Term} :
    (t : Term) → y ∈ (t.subst x r).vars → (y ∈ t.vars ∧ y ≠ x) ∨ y ∈ r.vars
  | .var z, h => by
    by_cases hz : z = x
    · simp [subst, hz] at h; exact .inr h
    · simp [subst, hz, vars] at h; subst h; simp [vars, hz]
  | .app _ args, h => by simpa [vars] using mem_listVars_listSubst args (by simpa [subst, vars] using h)
  | .empty, h => by simp [subst, vars] at h
  | .singleton e, h => by simpa [vars] using mem_vars_subst e (by simpa [subst, vars] using h)
  | .add a b, h | .remove a b, h | .union a b, h | .inter a b, h | .diff a b, h => by
    simp only [subst, vars, List.mem_append] at h ⊢
    rcases h with h | h
    · rcases mem_vars_subst a h with ⟨h, hx⟩ | h
      · exact .inl ⟨.inl h, hx⟩
      · exact .inr h
    · rcases mem_vars_subst b h with ⟨h, hx⟩ | h
      · exact .inl ⟨.inr h, hx⟩
      · exact .inr h

theorem mem_listVars_listSubst {x y : String} {r : Term} :
    (ts : List Term) → y ∈ listVars (listSubst ts x r) → (y ∈ listVars ts ∧ y ≠ x) ∨ y ∈ r.vars
  | [], h => by simp [listSubst, listVars] at h
  | t :: ts, h => by
    simp only [listSubst, listVars, List.mem_append] at h ⊢
    rcases h with h | h
    · rcases mem_vars_subst t h with ⟨h, hx⟩ | h
      · exact .inl ⟨.inl h, hx⟩
      · exact .inr h
    · rcases mem_listVars_listSubst ts h with ⟨h, hx⟩ | h
      · exact .inl ⟨.inr h, hx⟩
      · exact .inr h

end

@[simp] theorem listSubst_eq_map (ts : List Term) (x : String) (r : Term) :
    listSubst ts x r = ts.map (·.subst x r) := by
  induction ts with
  | nil => rfl
  | cons t ts ih => simp [listSubst, ih]

@[simp] theorem mem_listVars {x : String} {ts : List Term} :
    x ∈ listVars ts ↔ ∃ t ∈ ts, x ∈ t.vars := by
  induction ts with
  | nil => simp [listVars]
  | cons t ts ih => simp [listVars, ih]

/-! ## Sorts -/

/-- Variables and applications: the terms that no set constructor heads. -/
def isAtomic : Term → Bool
  | .var _ | .app .. => true
  | _ => false

mutual

/-- Whether a term can denote a set: what stands in an element position is atomic. An argument of
an application may stand in either. -/
def isSetTerm : Term → Bool
  | .var _ | .empty => true
  | .app _ args => allSetTerms args
  | .singleton e => e.isAtomic && isSetTerm e
  | .add e s | .remove e s => e.isAtomic && isSetTerm e && isSetTerm s
  | .union s t | .inter s t | .diff s t => isSetTerm s && isSetTerm t

def allSetTerms : List Term → Bool
  | [] => true
  | t :: ts => isSetTerm t && allSetTerms ts

end

/-- Whether a term can denote an element. -/
def isElementTerm (t : Term) : Bool := t.isAtomic && t.isSetTerm

/-! ## Elements and names inside a set term -/

/-- The element arguments of the constructors of a set term. -/
def constructorElements : Term → List Term
  | .singleton e => [e]
  | .add e s | .remove e s => e :: constructorElements s
  | .union s t | .inter s t | .diff s t => constructorElements s ++ constructorElements t
  | .var _ | .app .. | .empty => []

/-- The variables that a set term uses as sets. -/
def setVars : Term → List String
  | .var x => [x]
  | .add _ s | .remove _ s => setVars s
  | .union s t | .inter s t | .diff s t => setVars s ++ setVars t
  | .app .. | .empty | .singleton _ => []

/-- The function symbols whose applications a set term uses as sets. -/
def setFunctions : Term → List String
  | .app f _ => [f]
  | .add _ s | .remove _ s => setFunctions s
  | .union s t | .inter s t | .diff s t => setFunctions s ++ setFunctions t
  | .var _ | .empty | .singleton _ => []

end Term

end SetSequent
