import SetSequent.Proofs.RelevantElements

/-!
# The form of a prepared sequent

What the search can rely on, whatever the sequent was.

* `Atom.IsNormal` — an oriented equation, a membership in a variable or an application, or a predicate.
* `Atom.Within` — all variables of an atom satisfy a property.
* `every_normal_unfold`, `every_within_unfold` — unfolding brings atoms into the normal form and brings no
  variables.
* `removal?_substitute` — after the elimination of equations none is left that could be eliminated.
* `prepare_normal` — the atoms, the equations and the variables of a prepared sequent.
-/

namespace SetSequent

/-! ## Normal atoms -/

theorem Atom.orient_orient (a : Atom) : a.orient.orient = a.orient := by
  cases a with
  | eq l r =>
    by_cases h : r.text < l.text
    · have back : ¬ l.text < r.text := String.lt_asymm h
      simp [orient, h, back]
    · simp [orient, h]
  | _ => rfl

/-- Oriented equations, memberships in a variable or an application, and predicates. -/
def Atom.IsNormal : Atom → Prop
  | .eq l r => (Atom.eq l r).orient = .eq l r
  | .mem _ s => s.isAtomic = true
  | .pred .. => True
  | .isEmpty _ | .subset .. | .setEq .. => False

namespace Atom.IsNormal

variable {a : Atom}

theorem ordinary (h : a.IsNormal) : a.isSetRelation = false := by
  cases a with
  | eq | mem | pred => rfl
  | isEmpty | subset | setEq => exact h.elim

theorem orient_eq (h : a.IsNormal) : a.orient = a := by
  cases a with
  | eq => exact h
  | mem | pred | isEmpty | subset | setEq => rfl

end Atom.IsNormal

theorem Atom.isNormal_equation (l r : Term) : (Atom.eq l r).orient.IsNormal := by
  have again := Atom.orient_orient (.eq l r)
  rw [orient] at again ⊢
  split at again
  · rename_i h
    rw [if_pos h]
    exact again
  · rename_i h
    rw [if_neg h]
    exact again

theorem every_normal_unfoldMember (e s : Term) : (unfoldMember e s).Every Atom.IsNormal := by
  induction s using unfoldMember.induct with
  | case1 | case2 => rfl
  | case3 => trivial
  | case4 a => exact Atom.isNormal_equation e a
  | case5 a s ih | case6 a s ih => exact ⟨Atom.isNormal_equation e a, ih⟩
  | case7 s t ihs iht | case8 s t ihs iht | case9 s t ihs iht => exact ⟨ihs, iht⟩

/-- **All atoms but set relations unfold to normal ones.** -/
theorem every_normal_unfold {a : Atom} (h : a.isSetRelation = false) :
    (Formula.atom a).unfold.Every Atom.IsNormal := by
  cases a with
  | mem e s => exact every_normal_unfoldMember e s
  | eq l r => exact Atom.isNormal_equation l r
  | pred => trivial
  | isEmpty | subset | setEq => cases h

/-- Replacement may spoil the form of a normal atom, and unfolding restores it. -/
theorem every_normal_eliminate {a : Atom} {x : String} {r : Term} (h : a.IsNormal) :
    ((Formula.atom a).eliminate x r).Every Atom.IsNormal := by
  have ordinary : (a.mapArgs (·.subst x r)).isSetRelation = false := by
    rw [← h.ordinary]
    cases a <;> rfl
  exact every_normal_unfold ordinary

/-! ## Variables -/

/-- All variables of the atom satisfy `V`. -/
def Atom.Within (V : String → Prop) (a : Atom) : Prop := ∀ x ∈ a.vars, V x

section Within

variable {V : String → Prop} {f : Formula} {x : String}

/-- Without quantifiers, the variables of a formula are those of its atoms. -/
theorem every_within (he : f.Every fun _ => True) (h : ∀ x ∈ f.freeVars, V x) :
    f.Every (Atom.Within V) :=
  Formula.every_of_atoms he fun _ ha _ hx => h _ (he.mem_freeVars ha hx)

theorem Formula.Every.of_mem_vars (h : f.Every (Atom.Within V)) (hx : x ∈ f.vars) : V x := by
  induction f with
  | top | bot => cases hx
  | atom a => exact h x hx
  | not f ih => exact ih h hx
  | connect c l r ihl ihr =>
    rcases List.mem_append.1 hx with hx | hx
    · exact ihl h.1 hx
    · exact ihr h.2 hx
  | all y f => exact h.elim

theorem every_within_unfold {a : Atom} (h : a.Within V) :
    (Formula.atom a).unfold.Every (Atom.Within V) :=
  every_within (Formula.every_unfold_atom a) fun x hx => h x (Formula.mem_freeVars_unfold hx)

theorem every_within_eliminate {a : Atom} {r : Term} (h : a.Within V) (hr : ∀ y ∈ r.vars, V y) :
    ((Formula.atom a).eliminate x r).Every (Atom.Within V) := by
  refine every_within (Formula.every_unfold_atom _) fun y hy => ?_
  rcases Formula.mem_freeVars_eliminate hy with ⟨hy, _⟩ | hy
  · exact h y hy
  · exact hr y hy

/-- The replacement of a variable is a side of the equation that offers it. -/
theorem within_of_eliminate {r : Term} (h : f.Every (Atom.Within V))
    (hr : f.removal? = some (.eliminate x r)) : ∀ y ∈ r.vars, V y := by
  intro y hy
  obtain ⟨_, rfl | rfl | rfl | rfl⟩ := Formula.equation_of_eliminate hr <;>
    exact h y (by simp [Atom.vars, Atom.args, hy])

theorem every_within_instance {a : Atom} {e : Term} (ha : a.Within V) (he : ∀ x ∈ e.vars, V x)
    (h : a.instanceAt? e = some f) : f.Every (Atom.Within V) := by
  have member {s : Term} (hs : s ∈ a.args) : (Atom.mem e s).Within V := by
    intro x hx
    rcases Atom.mem_vars_mem.1 hx with hx | hx
    · exact he x hx
    · exact ha x (List.mem_flatMap.2 ⟨s, hs, hx⟩)
  cases a with
  | isEmpty s => cases h; exact member (.head _)
  | subset s t | setEq s t => cases h; exact ⟨member (.head _), member (.tail _ (.head _))⟩
  | eq | mem | pred => cases h

theorem freeVars_conjuncts :
    (∀ x ∈ f.freeVars, V x) ↔ ∀ g ∈ f.conjuncts, ∀ x ∈ g.freeVars, V x := by
  induction f using Formula.conjuncts.induct with
  | case1 l r ihl ihr =>
    simp only [Formula.conjuncts, Formula.freeVars, List.forall_mem_append, ihl, ihr]
  | case2 f hf =>
    have whole : f.conjuncts = [f] := by rw [Formula.conjuncts]; exact hf
    simp [whole]

end Within

/-- The name is the stem with a number. -/
theorem exists_fresh (taken : List String) (stem : String) :
    ∃ i : Nat, fresh taken stem = stem ++ toString i := by
  have go (tries i : Nat) : ∃ j : Nat, fresh.go taken stem tries i = stem ++ toString j := by
    induction tries generalizing i with
    | zero => exact ⟨i, rfl⟩
    | succ tries ih =>
      rw [fresh.go]
      split
      · exact ih (i + 1)
      · exact ⟨i, rfl⟩
  exact go taken.length 0

/-! ## Equations that are left -/

/-- The sides differ, and no variable that is one side is missing in the other. -/
def Equation.IsSettled (e : Equation) : Prop :=
  e.lhs ≠ e.rhs ∧ ∀ x, (e.lhs = .var x → x ∈ e.rhs.vars) ∧ (e.rhs = .var x → x ∈ e.lhs.vars)

theorem Equation.mem_vars_of_solve? {side other : Term} {x : String} (h : solve? side other = none)
    (hs : side = .var x) : x ∈ other.vars := by
  subst hs
  by_cases hx : x ∈ other.vars
  · exact hx
  · simp [solve?, hx] at h

theorem Formula.isSettled_of_removal? {f : Formula} {e : Equation} (h : f.removal? = none)
    (he : Equation.ofFormula? f = some e) : e.IsSettled := by
  rw [removal?, he] at h
  dsimp only at h
  split at h
  · cases h
  · rename_i differ
    rw [Option.map_eq_none_iff, Equation.elimination?, Option.or_eq_none_iff] at h
    refine ⟨by simpa [Equation.isTrivial] using differ, fun x => ⟨?_, ?_⟩⟩
    · exact Equation.mem_vars_of_solve? h.2
    · exact Equation.mem_vars_of_solve? h.1

theorem removal?_of_findRemoval {hs : List Hypothesis} (h : findRemoval hs = none) :
    ∀ g ∈ hs, g.formula.removal? = none := by
  induction hs with
  | nil => exact fun _ hg => (List.not_mem_nil hg).elim
  | cons h' hs ih =>
    rw [findRemoval] at h
    split at h
    · cases h
    · rename_i first
      rw [Option.map_eq_none_iff] at h
      exact List.forall_mem_cons.2 ⟨first, ih h⟩

namespace Sequent

variable {s : Sequent} {t : DecidabilityTable} {V : String → Prop} {stem : String}

/-- Elimination ends when there is nothing to eliminate. -/
theorem removal?_substitute (s : Sequent) :
    ∀ h ∈ s.substitute.value.hypotheses, h.formula.removal? = none :=
  substitute_induction (R := fun _ r => ∀ h ∈ r.hypotheses, h.formula.removal? = none)
    (fun _ => removal?_of_findRemoval) (fun _ _ _ _ _ _ ih => ih) (fun _ _ _ _ _ _ _ _ ih => ih) s

theorem removal?_inject (h : ∀ h ∈ s.hypotheses, h.formula.removal? = none) :
    ∀ h ∈ (s.inject t).value.hypotheses, h.formula.removal? = none := by
  intro g hg
  rcases mem_injectAll hg with hg | ⟨a, _, _, he⟩
  · exact h g hg
  · rw [he]
    rfl

/-! ## Variables through the stages -/

theorem freeVars_opened (h : ∀ f ∈ s.formulas, ∀ x ∈ f.freeVars, V x) :
    ∀ f ∈ s.opened.formulas, ∀ x ∈ f.freeVars, V x := by
  refine forall_formulas.2 ((satisfies_opened (fun hs premise goal => ?_) (fun hs premise => ?_)
    fun h => ?_).2 (forall_formulas.1 h))
  · simp [introduce.assume, Formula.freeVars, or_imp, forall_and]
  · simp [introduce.assume, Formula.freeVars]
  · exact h.forall_split (R := fun f => ∀ x ∈ f.freeVars, V x) fun _ => freeVars_conjuncts

/-- A formula that is kept is one of the opened sequent, or `false` in the place of the goal. -/
theorem mem_formulas_classify {f : Formula} (hf : f ∈ (s.classify t).value.formulas) :
    f.isRelevant t true = true ∧ (f ∈ s.opened.formulas ∨ f = .bot) := by
  rw [value_classify, mem_formulas] at hf
  rcases hf with ⟨h, hh, rfl⟩ | rfl
  · obtain ⟨hh, hr⟩ := List.mem_filter.1 hh
    exact ⟨hr, .inl (mem_formulas.2 (.inl ⟨h, hh, rfl⟩))⟩
  · dsimp only
    split
    · rename_i hr
      exact ⟨hr, .inl (mem_formulas.2 (.inr rfl))⟩
    · exact ⟨rfl, .inr rfl⟩

theorem layered_classify : ∀ f ∈ (s.classify t).value.formulas, f.Layered :=
  fun _ hf => Formula.layered_of_isRelevant (mem_formulas_classify hf).1

theorem within_classify (h : ∀ f ∈ s.formulas, ∀ x ∈ f.freeVars, V x) :
    (s.classify t).value.Every (Atom.Within V) := by
  intro f hf
  refine every_within (every_classify f hf) fun x hx => ?_
  rcases (mem_formulas_classify hf).2 with hf | rfl
  · exact freeVars_opened h f hf x hx
  · cases hx

theorem within_substitute (h : s.Every (Atom.Within V)) : s.substitute.value.Every (Atom.Within V) :=
  every_substitute (fun _ _ _ hf hr _ ha => every_within_eliminate ha (within_of_eliminate hf hr)) h

/-- The opened goal has one variable more. -/
theorem within_openGoal (h : s.Every (Atom.Within V)) :
    (s.openGoal stem).value.Every (Atom.Within fun x => V x ∨ x = s.freshVariable stem) := by
  have wider : s.Every (Atom.Within fun x => V x ∨ x = s.freshVariable stem) :=
    h.imp fun _ ha x hx => .inl (ha x hx)
  rcases openGoal_cases stem s with ⟨_, ho⟩ | ⟨a, g, ha, hi, ho⟩ <;> rw [ho]
  · exact wider
  · obtain ⟨hh, hg⟩ := every_iff.1 wider
    rw [ha] at hg
    refine every_iff.2 ⟨hh, every_within_instance hg (fun x hx => ?_) hi⟩
    exact .inr (List.mem_singleton.1 hx)

/-! ## The prepared sequent -/

/-- Normal atoms with variables in `V`: what the stages establish with the instances and keep. -/
theorem normal_instantiate {maxRounds : Int} (hl : ∀ f ∈ s.formulas, f.Layered)
    (h : s.Every (Atom.Within V)) :
    (s.instantiate stem maxRounds).value.Every fun a =>
      a.IsNormal ∧ a.Within fun x => V x ∨ x = s.freshVariable stem := by
  refine every_instantiate_of_layered (E := fun e => ∀ x ∈ e.vars, V x ∨ x = s.freshVariable stem)
    hl (within_openGoal h) ?normal ?unfold ?elements ?instances
  case normal => exact fun a ha => ⟨ha.2, ha.1.ordinary⟩
  case unfold => exact fun a ha ho => (every_normal_unfold ho).and (every_within_unfold ha)
  case elements => exact fun a ha e he x hx => ha x (Atom.mem_vars_of_elementTerms he hx)
  case instances => exact fun a e f ha he hi => every_within_instance ha he hi

theorem normal_substitute (h : s.Every fun a => a.IsNormal ∧ a.Within V) :
    s.substitute.value.Every fun a => a.IsNormal ∧ a.Within V := by
  refine every_substitute (fun f x r hf hr a ha => ?_) h
  have replacement := within_of_eliminate (hf.imp fun _ => And.right) hr
  exact (every_normal_eliminate ha.1).and (every_within_eliminate ha.2 replacement)

/-- **The form of a prepared sequent**, for every sequent and all options. It has no quantifier and no set
relation; containers are variables or applications, and equations are oriented. No hypothesis is an
equation between equal sides or one that a variable can be eliminated from. And every variable occurs free
in the sequent it was made of, except for at most one with the stem of the options, which is not in use
where the goal is opened. -/
theorem prepare_normal (o : Options) (s : Sequent) :
    (s.prepare o).value.Every Atom.IsNormal ∧
      (∀ h ∈ (s.prepare o).value.hypotheses, ∀ e,
        Equation.ofFormula? h.formula = some e → e.IsSettled) ∧
      ∃ i : Nat,
        (∀ f ∈ (s.classify o.table).value.substitute.value.formulas,
          o.freshStem ++ toString i ∉ f.vars) ∧
        ∀ f ∈ (s.prepare o).value.formulas, ∀ x ∈ f.vars,
          (∃ g ∈ s.formulas, x ∈ g.freeVars) ∨ x = o.freshStem ++ toString i := by
  let s₂ := (s.classify o.table).value.substitute.value
  let s₃ := (s₂.instantiate o.freshStem o.maxRounds).value
  let s₄ := (s₃.normalize o.table o.usePull).value
  obtain ⟨i, hi⟩ := exists_fresh (s₂.formulas.flatMap (·.vars)) o.freshStem
  let V (x : String) : Prop := ∃ g ∈ s.formulas, x ∈ g.freeVars
  have h₂ : s₂.Every (Atom.Within V) :=
    within_substitute (within_classify fun f hf x hx => ⟨f, hf, hx⟩)
  let P (a : Atom) : Prop := a.IsNormal ∧ a.Within fun x => V x ∨ x = s₂.freshVariable o.freshStem
  have h₃ : s₃.Every P := normal_instantiate (layered_substitute layered_classify) h₂
  have h₄ : s₄.Every P := every_normalize h₃
  have normal : (s.prepare o).value.Every P := by
    refine every_inject (fun a ha => ?_) (normal_substitute h₄)
    rwa [ha.1.orient_eq]
  refine ⟨normal.imp fun _ => And.left, fun h hh e he => ?_, i, fun f hf hx => ?_, fun f hf x hx => ?_⟩
  · exact Formula.isSettled_of_removal? (removal?_inject (removal?_substitute s₄) h hh) he
  · rw [← hi] at hx
    exact fresh_not_mem _ _ (List.mem_flatMap.2 ⟨f, hf, hx⟩)
  · rw [← hi]
    exact ((normal f hf).imp fun _ => And.right).of_mem_vars hx

end Sequent

end SetSequent
