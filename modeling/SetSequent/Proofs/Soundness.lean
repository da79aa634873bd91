import Mathlib
import SetSequent.Proofs.BranchModels
import SetSequent.Proofs.Certified
import SetSequent.Proofs.Definedness
import SetSequent.Proofs.Instances

/-!
# The procedure is sound

A countermodel of a sequent is carried through the stages, each of which keeps it or changes it into a
countermodel of its own result. The search refutes what has a countermodel never.

* `Interpretation.SetSorted` — names and function symbols that stand in set positions denote sets.
* `refutes_prepare` — a countermodel of a sequent gives one of the prepared sequent.
* `decide_sound` — a proved sequent has no countermodel.
-/

namespace SetSequent

open Model

namespace Model.Interpretation

/-- The names and function symbols that the formulas use in set positions denote sets. -/
structure SetSorted (I : Interpretation) (fs : List Formula) : Prop where
  names : ∀ x ∈ setVarNames fs, ∃ v, I.lookup x = .ok v ∧ v.isSet = true
  functions : ∀ g ∈ setFunctionNames fs, ∀ n h, I.functions g n = some h →
    ∀ vs, (h vs).isSet = true

theorem SetSorted.isSet {I : Interpretation} {fs : List Formula} (h : I.SetSorted fs) {f : Formula}
    (hf : f ∈ fs) {a : Atom} (ha : a ∈ f.atoms) {u : Term} (hu : u ∈ a.setArgs) :
    (I.value u).isSet = true := by
  refine isSet_value u (fun x hx => ?_) fun g hg n vs => ?_
  · have hm : x ∈ setVarNames fs :=
      List.mem_flatMap.2 ⟨f, hf, List.mem_flatMap.2 ⟨a, ha, List.mem_flatMap.2 ⟨u, hu, hx⟩⟩⟩
    obtain ⟨v, hv, hs⟩ := h.names x hm
    simpa [denote, hv] using hs
  · have hm : g ∈ setFunctionNames fs :=
      List.mem_flatMap.2 ⟨f, hf, List.mem_flatMap.2 ⟨a, ha, List.mem_flatMap.2 ⟨u, hu, hg⟩⟩⟩
    rw [function]
    cases hf : I.functions g n with
    | none => rfl
    | some k => exact h.functions g hm n k hf vs

end Model.Interpretation

namespace Sequent

variable {I : Interpretation} {s : Sequent} {o : Options} {t : DecidabilityTable}

/-- The goal that is left when premises are introduced is a part of the goal. -/
theorem atoms_introduce (hs : List Hypothesis) (goal : Formula) :
    (introduce hs goal).value.goal.atoms ⊆ goal.atoms := by
  induction hs, goal using introduce.induct with
  | case1 hs premise goal =>
    rename_i ih
    rw [introduce]
    exact fun a ha => List.mem_append_right _ (ih ha)
  | case2 hs premise =>
    rw [introduce]
    exact List.nil_subset _
  | case3 hs goal hi hn =>
    rw [introduce]
    · exact List.Subset.refl _
    · exact hi
    · exact hn

theorem relatesSets_classify (h : I.SetSorted s.formulas) :
    I.RelatesSets (s.classify t).value.goal := by
  intro a ha _ u hu
  rw [value_classify] at ha
  dsimp only at ha
  split at ha
  · have hm : a ∈ s.goal.atoms := by
      refine atoms_introduce s.hypotheses s.goal ?_
      change a ∈ s.opened.goal.atoms
      rw [ha]
      exact List.mem_singleton_self a
    exact h.isSet (mem_formulas.2 (.inr rfl)) hm hu
  · cases ha

/-- **The stages keep countermodels.** -/
theorem refutes_prepare (hs : I.SetSorted s.formulas) (h : I.Refutes s) :
    (∃ J : Interpretation, J.Refutes (s.prepare o).value) ∧
      (s.prepare o).value.Every fun _ => True := by
  let s₁ := (s.classify o.table).value
  let s₂ := s₁.substitute.value
  let s₃ := (s₂.instantiate o.freshStem o.maxRounds).value
  let s₄ := (s₃.normalize o.table o.usePull).value
  have e₁ : s₁.Every fun _ => True := every_classify
  have e₂ : s₂.Every fun _ => True := every_substitute_true e₁
  have e₃ : s₃.Every fun _ => True := every_instantiate e₂
  have e₄ : s₄.Every fun _ => True := every_normalize e₃
  obtain ⟨r₂, g₂⟩ := refutes_substitute (K := I.RelatesSets)
    (fun _ _ _ hx => Interpretation.relatesSets_eliminate hx) e₁ (refutes_classify h)
    (relatesSets_classify hs)
  obtain ⟨J, r₃⟩ := refutes_instantiate o.freshStem o.maxRounds e₂ g₂ r₂
  have r₅ := (refutes_substitute (K := fun _ => True) (fun _ _ _ _ _ => trivial) e₄
    (refutes_normalize.2 r₃) trivial).1
  exact ⟨⟨J, refutes_inject.2 r₅⟩, every_inject (fun _ _ => trivial) (every_substitute_true e₄)⟩

/-- **A proved sequent is valid.** Whatever the table, the budget and the other options are, an
interpretation in which all hypotheses of a proved sequent hold does not make the goal false, if the
names and symbols in set positions denote sets; and if the goal has a truth value at all, because its
names and symbols have a meaning and its operations are applied to sets, the goal holds. -/
theorem decide_sound (h : (s.decide o).verdict = .proved) (hs : I.SetSorted s.formulas)
    (hyps : ∀ f ∈ s.facts, I.holds f = .ok true) :
    I.holds s.goal ≠ .ok false ∧ (I.Interprets s.goal → I.holds s.goal = .ok true) := by
  have hgoal : I.truth s.goal ≠ false := by
    intro hg
    have hI : I.Refutes s := ⟨fun f hf => Interpretation.truth_of_holds (hyps f hf), hg⟩
    obtain ⟨⟨J, hJ⟩, he⟩ := refutes_prepare (o := o) hs hI
    rcases decide_cases o s with ⟨tree, steps, hr, ht, _⟩ | ⟨_, hv, _⟩
    · exact Search.not_refutes_of_refute hr ht he hJ
    · rw [h] at hv; cases hv
  refine ⟨fun hf => hgoal (Interpretation.truth_of_holds hf), fun hi => ?_⟩
  rw [Interpretation.holds_of_interprets hi, Bool.ne_false_iff.1 hgoal]

/-- An element of `s` is one of `t` if `s` is included in `t`. -/
def inclusion : Sequent where
  hypotheses :=
    [{ name := "H", formula := .atom (.subset (.var "s") (.var "t")) },
      { name := "K", formula := .atom (.mem (.var "x") (.var "s")) }]
  goal := .atom (.mem (.var "x") (.var "t"))

/-- What the stages make of `inclusion`. -/
def preparedInclusion : Sequent where
  hypotheses :=
    [{ name := "K", formula := .atom (.mem (.var "x") (.var "s")) },
      { name := "H[x]"
        formula := .implies (.atom (.mem (.var "x") (.var "s"))) (.atom (.mem (.var "x") (.var "t"))) },
      { name := "D0"
        formula := Formula.excludedMiddle (.atom (.mem (.var "x") (.var "t")))
        injected := true }]
  goal := .atom (.mem (.var "x") (.var "t"))

theorem value_prepare_inclusion : (inclusion.prepare {}).value = preparedInclusion := by cbv

theorem verdict_inclusion : (inclusion.decide {}).verdict = .proved := by
  have closes : ∃ leaf substitutions,
      (Search.propagate .standard (.ofSequent preparedInclusion)).value = .closed leaf substitutions ∧
        (Search.underSubstitutions substitutions (.leaf leaf)).isStuck = false :=
    ⟨_, _, by cbv, rfl⟩
  obtain ⟨leaf, substitutions, hp, hs⟩ := closes
  rw [← value_prepare_inclusion] at hp
  rw [verdict_of_explores rfl (.closed hp), hs]
  rfl

/-- `x` is `0`, `s` holds `0`, and `t` holds `0` and `1`. -/
def inclusionModel : Interpretation where
  domain := [0, 1]
  elements := [("x", 0)]
  sets := [("s", .ofInts [0]), ("t", .ofInts [0, 1])]

theorem decide_sound_inclusion :
    (inclusion.decide {}).verdict = .proved ∧ inclusionModel.SetSorted inclusion.formulas ∧
      (∀ f ∈ inclusion.facts, inclusionModel.holds f = .ok true) ∧
      inclusionModel.Interprets inclusion.goal ∧ inclusionModel.holds inclusion.goal = .ok true := by
  have sets (x : String) (hx : x = "s" ∨ x = "t") :
      ∃ v, inclusionModel.sets.lookup x = some v ∧ v.isSet = true := by
    rcases hx with rfl | rfl <;> exact ⟨_, rfl, rfl⟩
  have sorted : inclusionModel.SetSorted inclusion.formulas := by
    refine ⟨fun x hx => ?_, fun g hg => by cases hg⟩
    obtain ⟨v, hv, hs⟩ := sets x (by revert x; decide)
    exact ⟨v, by rw [Interpretation.lookup, hv], hs⟩
  have facts : ∀ f ∈ inclusion.facts, inclusionModel.holds f = .ok true := by
    intro f hf
    simp only [Sequent.facts, inclusion, List.map_cons, List.map_nil, List.mem_cons,
      List.not_mem_nil, or_false] at hf
    rcases hf with rfl | rfl <;> rfl
  have positions : ∀ u ∈ inclusion.goal.setPositions, u = .var "t" := by decide
  have interprets : inclusionModel.Interprets inclusion.goal := by
    refine ⟨fun x hx => ?_, fun g args hm => ?_, fun p args hm => ?_, fun u hu x hx => ?_,
      fun u hu g hg => ?_⟩
    · obtain rfl | rfl : x = "x" ∨ x = "t" := by revert x; decide
      · exact ⟨_, rfl⟩
      · exact ⟨_, rfl⟩
    · simp [Formula.terms, inclusion, Formula.atoms, Atom.args, Term.listSubterms, Term.subterms] at hm
    · simp [inclusion, Formula.atoms] at hm
    · obtain rfl := positions u hu
      exact sets x (.inr (List.mem_singleton.1 hx))
    · obtain rfl := positions u hu
      cases hg
  exact ⟨verdict_inclusion, sorted, facts, interprets,
    (decide_sound verdict_inclusion sorted facts).2 interprets⟩

end Sequent

end SetSequent
