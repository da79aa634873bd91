import SetSequent.Proofs.Positions

/-!
# Which names a truth value depends on

A quantifier gives its variable elements, and a name that denotes a set keeps doing so inside of the
quantifier. So the truth of a formula depends on the values of its free variables, and for a bound variable
on whether it denotes a set outside, and which.

* `Formula.boundVars` — the variables that occur bound.
* `Interpretation.SameReading` — two interpretations agree on what a formula uses.
* `eval_congr`, `holdsAtom_congr`, `holds_congr` — then the evaluator gives the same answer, failures
  included.
* `holds_of_same_names` — the values of other names, and of bound names as elements, do not matter.
* `holds_hidden_variable` — the value of a bound name as a set does.
-/

namespace SetSequent

/-- The names of the variables that occur bound, with repetitions. -/
def Formula.boundVars : Formula → List String
  | .top | .bot | .atom _ => []
  | .not f => f.boundVars
  | .connect _ l r => l.boundVars ++ r.boundVars
  | .all x f => f.freeVars.filter (· = x) ++ f.boundVars

namespace Model.Interpretation

variable {I J : Interpretation}

/-! ## Names inside of a quantifier -/

theorem lookup_bind_of_ne {x y : String} (h : y ≠ x) (n : Int) :
    (I.bind x n).lookup y = I.lookup y := by
  simp only [lookup, Interpretation.bind, lookup_cons_of_ne h]

/-- A quantifier hides what its variable is as an element, and not what it is as a set. -/
theorem lookup_bind_congr {x : String} (h : I.sets.lookup x = J.sets.lookup x) (n : Int) :
    (I.bind x n).lookup x = (J.bind x n).lookup x := by
  simp only [lookup, Interpretation.bind, h, List.lookup_cons_self]

/-! ## Terms and atoms -/

theorem evalAll_congr {ts : List Term} (h : ∀ t ∈ ts, I.eval t = J.eval t) :
    I.evalAll ts = J.evalAll ts := by
  induction ts with
  | nil => simp only [evalAll]
  | cons t ts ih => simp only [evalAll, h t (.head _), ih fun u hu => h u (.tail _ hu)]

/-- The value of a term depends on the names and symbols in it. -/
theorem eval_congr {t : Term} (names : ∀ x ∈ t.vars, I.lookup x = J.lookup x)
    (functions : ∀ g args, .app g args ∈ t :: t.subterms →
      I.functions g args.length = J.functions g args.length) :
    I.eval t = J.eval t := by
  induction t using Term.children_induction with
  | step t ih =>
    have child : ∀ c ∈ t.children, I.eval c = J.eval c := by
      intro c hc
      refine ih c hc (fun x hx => names x ?_) fun g args hg => functions g args ?_
      · exact t.mem_vars_iff.2 (.tail _ (Term.mem_subterms_of_child hc (c.mem_vars_iff.1 hx)))
      · exact .tail _ (Term.mem_subterms_of_child hc hg)
    cases t with
    | var x => simpa only [eval] using names x (.head _)
    | app g args =>
      have values : I.evalAll args = J.evalAll args := evalAll_congr child
      simp only [eval, functions g args (.head _), values]
    | empty => simp only [eval]
    | singleton e => simp only [eval, child e (.head _)]
    | add a b | remove a b | union a b | inter a b | diff a b =>
      simp only [eval, child a (.head _), child b (.tail _ (.head _))]

theorem holdsAtom_congr {a : Atom} (args : ∀ t ∈ a.args, I.eval t = J.eval t)
    (predicates : I.predicates = J.predicates) : I.holdsAtom a = J.holdsAtom a := by
  cases a with
  | eq s t | mem s t | subset s t | setEq s t =>
    simp only [holdsAtom, args s (.head _), args t (.tail _ (.head _))]
  | isEmpty s => simp only [holdsAtom, args s (.head _)]
  | pred p ts =>
    have values : I.evalAll ts = J.evalAll ts := evalAll_congr args
    simp only [holdsAtom, values, predicates]

/-! ## Formulas -/

/-- The interpretations agree on the domain, on the symbols and the free variables of the formula, and on
what its bound variables denote as sets. -/
structure SameReading (I J : Interpretation) (f : Formula) : Prop where
  domain : I.domain = J.domain
  predicates : I.predicates = J.predicates
  functions : ∀ g args, .app g args ∈ f.terms → I.functions g args.length = J.functions g args.length
  names : ∀ x ∈ f.freeVars, I.lookup x = J.lookup x
  binders : ∀ x ∈ f.boundVars, I.sets.lookup x = J.sets.lookup x

namespace SameReading

variable {f l r : Formula} {c : Connective} {x : String}

theorem left (h : I.SameReading J (.connect c l r)) : I.SameReading J l where
  domain := h.domain
  predicates := h.predicates
  functions g args hg := h.functions g args (by simp_all [Formula.terms, Formula.atoms])
  names x hx := h.names x (List.mem_append_left _ hx)
  binders x hx := h.binders x (List.mem_append_left _ hx)

theorem right (h : I.SameReading J (.connect c l r)) : I.SameReading J r where
  domain := h.domain
  predicates := h.predicates
  functions g args hg := h.functions g args (by simp_all [Formula.terms, Formula.atoms])
  names x hx := h.names x (List.mem_append_right _ hx)
  binders x hx := h.binders x (List.mem_append_right _ hx)

theorem bind (h : I.SameReading J (.all x f)) (n : Int) :
    (I.bind x n).SameReading (J.bind x n) f where
  domain := h.domain
  predicates := h.predicates
  functions := h.functions
  names y hy := by
    by_cases he : y = x
    · subst he
      exact lookup_bind_congr
        (h.binders y (List.mem_append_left _ (List.mem_filter.2 ⟨hy, by simp⟩))) n
    · rw [lookup_bind_of_ne he, lookup_bind_of_ne he]
      exact h.names y (List.mem_filter.2 ⟨hy, by simpa using he⟩)
  binders y hy := h.binders y (List.mem_append_right _ hy)

end SameReading

/-- **The answer depends on the reading of the formula alone.** -/
theorem holds_congr {f : Formula} (h : I.SameReading J f) : I.holds f = J.holds f := by
  induction f generalizing I J with
  | top | bot => rfl
  | atom a =>
    refine holdsAtom_congr (fun t ht => eval_congr (fun x hx => ?_) fun g args hg => ?_) h.predicates
    · exact h.names x (List.mem_flatMap.2 ⟨t, ht, hx⟩)
    · refine h.functions g args (List.mem_flatMap.2 ⟨a, List.mem_singleton_self a, ?_⟩)
      exact Term.mem_listSubterms.2 ⟨t, ht, hg⟩
  | not f ih =>
    have same := ih ⟨h.domain, h.predicates, h.functions, h.names, h.binders⟩
    simp only [holds, same]
  | connect c l r ihl ihr => simp only [holds, ihl h.left, ihr h.right]
  | all x f ih =>
    have same : (fun n => (I.bind x n).holds f) = fun n => (J.bind x n).holds f :=
      funext fun n => ih (h.bind n)
    simp only [holds, same, h.domain]

/-- **The values that matter.** Let two interpretations have the same domain and predicates, and let them
give the same values to the free variables of a formula without applications. If they also agree on what
its bound variables denote as sets, if anything, then the evaluator gives the same answer in both: the
values of all other names, and those of bound variables as elements, do not matter. -/
theorem holds_of_same_names {f : Formula} (plain : ∀ g args, .app g args ∉ f.terms)
    (domain : I.domain = J.domain) (predicates : I.predicates = J.predicates)
    (names : ∀ x ∈ f.freeVars, I.lookup x = J.lookup x)
    (binders : ∀ x ∈ f.boundVars, I.sets.lookup x = J.sets.lookup x) : I.holds f = J.holds f :=
  holds_congr ⟨domain, predicates, fun g args hg => absurd hg (plain g args), names, binders⟩

/-- Everything is in `s`. -/
def allInS : Formula := .all "x" (.atom (.mem (.var "x") (.var "s")))

theorem no_application_allInS (g : String) (args : List Term) : .app g args ∉ allInS.terms := by
  simp [allInS, Formula.terms, Formula.atoms, Atom.args, Term.listSubterms, Term.subterms]

/-- There is one element, and `s` holds it. -/
def fullS : Interpretation where
  domain := [0]
  sets := [("s", .ofInts [0])]

/-- As `fullS`, with values for `x` and `y` as elements and for `r` as a set. -/
def fullSWithMore : Interpretation where
  domain := [0]
  elements := [("x", 7), ("y", 3)]
  sets := [("r", .ofInts []), ("s", .ofInts [0])]

theorem holds_of_same_names_more :
    (∀ x ∈ allInS.freeVars, fullS.lookup x = fullSWithMore.lookup x) ∧
      (∀ x ∈ allInS.boundVars, fullS.sets.lookup x = fullSWithMore.sets.lookup x) ∧
      fullS.holds allInS = fullSWithMore.holds allInS := by
  have names : ∀ x ∈ allInS.freeVars, fullS.lookup x = fullSWithMore.lookup x :=
    List.forall_mem_singleton.2 rfl
  have binders : ∀ x ∈ allInS.boundVars, fullS.sets.lookup x = fullSWithMore.sets.lookup x :=
    List.forall_mem_singleton.2 rfl
  exact ⟨names, binders, holds_of_same_names no_application_allInS rfl rfl names binders⟩

/-- As `fullS`, with a value for `x` as a set. -/
def fullSHidingX : Interpretation where
  domain := [0]
  sets := [("x", .ofInts []), ("s", .ofInts [0])]

/-- **A set hides a bound variable.** The two interpretations differ in the bound variable only, which
denotes a set in one of them, and the evaluator gives different answers. -/
theorem holds_hidden_variable :
    (∀ g args, .app g args ∉ allInS.terms) ∧ fullS.domain = fullSHidingX.domain ∧
      fullS.predicates = fullSHidingX.predicates ∧
      (∀ x ∈ allInS.freeVars, fullS.lookup x = fullSHidingX.lookup x) ∧
      fullS.holds allInS = .ok true ∧ fullSHidingX.holds allInS = .ok false :=
  ⟨no_application_allInS, rfl, rfl, List.forall_mem_singleton.2 rfl, rfl, rfl⟩

end Model.Interpretation

end SetSequent
