import SetSequent.Proofs.Positions
import SetSequent.Proofs.PreparedForm

/-!
# The elimination of equations is exact

Each round of elimination takes one hypothesis away: an equation between equal sides, or one that gives a
variable the value of a term. A countermodel gives the variable that value, so it is one of what is left;
and what is left does not mention the variable, so each of its countermodels can be given the value of the
term. Only the sorts have to be watched: a formula that is replaced has to have a truth value.

* `Sequent.removals`, `Sequent.eliminated` — what is taken away, and the variables eliminated by it.
* `Sequent.Round`, `removals_induction` — one round, and induction along the rounds.
* `isCountermodel_substitute`, `exists_refutes_of_substitute` — countermodels forth and back.
* `substitute_exact` — what elimination returns.
* `substitute_loses_sorts` — a variable that stands for an element may have to be a set.
-/

namespace SetSequent

open Model

/-! ## Rounds -/

namespace Removal

/-- What is noted when the hypothesis is taken away. -/
def text (h : Hypothesis) : Removal → String
  | .trivial => "clear trivial " ++ h.text
  | .eliminate x t => "subst " ++ x ++ " := " ++ t.text ++ " using " ++ h.name

/-- What becomes of the other formulas. -/
def apply : Removal → Sequent → Sequent
  | .trivial, s => s
  | .eliminate x t, s => s.eliminate x t

def eliminated? : Removal → Option String
  | .trivial => none
  | .eliminate x _ => some x

theorem length_apply (r : Removal) (s : Sequent) :
    (r.apply s).hypotheses.length = s.hypotheses.length := by
  cases r with
  | trivial => rfl
  | eliminate x t => simp [apply, Sequent.eliminate]

end Removal

namespace Sequent

variable {I J : Interpretation} {s s' : Sequent}

/-- The hypotheses that are taken away, in order, as they are then, and why. -/
def removals (s : Sequent) : List (Hypothesis × Removal) :=
  match _h : findRemoval s.hypotheses with
  | none => []
  | some (h, r, others) => (h, r) :: removals (r.apply { s with hypotheses := others })
termination_by s.hypotheses.length
decreasing_by
  rw [Removal.length_apply, length_findRemoval _h]
  exact Nat.lt_succ_self _

/-- The eliminated variables, in order. -/
def eliminated (s : Sequent) : List String := s.removals.filterMap (·.2.eliminated?)

/-- One round: the hypothesis `h` is taken away, which is noted, and `s'` has the others. -/
structure Round (h : Hypothesis) (r : Removal) (s' s : Sequent) : Prop where
  without : Without h s' s
  length : s.hypotheses.length = s'.hypotheses.length + 1
  removal : h.formula.removal? = some r
  substitute : s.substitute = noteStep "substitute" (r.text h) >>= fun _ => (r.apply s').substitute
  removals : s.removals = (h, r) :: (r.apply s').removals

theorem round_of_findRemoval {h : Hypothesis} {r : Removal} {others : List Hypothesis}
    (hr : findRemoval s.hypotheses = some (h, r, others)) :
    Round h r { s with hypotheses := others } s := by
  obtain ⟨removal, same⟩ := mem_of_findRemoval hr
  refine ⟨⟨same, rfl⟩, length_findRemoval hr, removal, ?_, ?_⟩
  · rw [Sequent.substitute]
    split
    · simp_all
    · rename_i found
      cases hr.symm.trans found
      rfl
    · rename_i found
      cases hr.symm.trans found
      rfl
  · rw [Sequent.removals]
    split <;> simp_all

/-- What holds of a sequent with nothing to remove, and holds of a sequent if it holds after a round,
holds of all sequents. -/
theorem removals_induction {R : Sequent → Prop}
    (done : ∀ s, s.substitute = pure s → s.removals = [] → R s)
    (round : ∀ s s' h r, Round h r s' s → R (r.apply s') → R s) (s : Sequent) : R s := by
  induction s using removals.induct with
  | case1 s hn =>
    refine done s ?_ ?_
    · rw [Sequent.substitute]
      split <;> simp_all
    · rw [removals]
      split <;> simp_all
  | case2 s h r others hr ih => exact round s _ h r (round_of_findRemoval hr) ih

theorem Round.value_substitute {h : Hypothesis} {r : Removal} (hr : Round h r s' s) :
    s.substitute.value = (r.apply s').substitute.value := by
  rw [hr.substitute]
  rfl

theorem Round.eliminated_of_trivial {h : Hypothesis} (hr : Round h .trivial s' s) :
    s.eliminated = s'.eliminated := by
  rw [eliminated, hr.removals]
  rfl

theorem Round.eliminated_of_eliminate {h : Hypothesis} {x : String} {t : Term}
    (hr : Round h (.eliminate x t) s' s) : s.eliminated = x :: (s'.eliminate x t).eliminated := by
  rw [eliminated, hr.removals]
  rfl

/-- The notes tell what was taken away. -/
theorem notes_substitute (s : Sequent) : s.substitute.notes =
    s.removals.map fun p => .step { stage := "substitute", description := p.2.text p.1 } := by
  induction s using removals_induction with
  | done s hs hr =>
    rw [hs, hr]
    rfl
  | round s s' h r hr ih =>
    rw [hr.substitute, hr.removals, List.map_cons, ← ih]
    rfl

/-- Each round takes one hypothesis away. -/
theorem length_removals (s : Sequent) :
    s.removals.length + s.substitute.value.hypotheses.length = s.hypotheses.length := by
  induction s using removals_induction with
  | done s hs hr =>
    rw [hs, hr]
    exact Nat.zero_add _
  | round s s' h r hr ih =>
    rw [hr.value_substitute, hr.removals, hr.length, List.length_cons, ← r.length_apply s', ← ih]
    omega

/-! ## Eliminated variables are gone -/

theorem every_apply (r : Removal) (he : s.Every fun _ => True) : (r.apply s).Every fun _ => True := by
  cases r with
  | trivial => exact he
  | eliminate x t => exact every_eliminate he fun _ _ => Formula.every_unfold_atom _

theorem within_of_eliminated (he : s.Every fun _ => True) {x : String} (hx : x ∈ s.eliminated) :
    s.substitute.value.Every (Atom.Within (· ≠ x)) := by
  induction s using removals_induction with
  | done s _ hr =>
    rw [eliminated, hr] at hx
    cases hx
  | round s s' h r hr ih =>
    have he' := (hr.without.every.1 he).2
    rw [hr.value_substitute]
    cases r with
    | trivial =>
      rw [hr.eliminated_of_trivial] at hx
      exact ih he' hx
    | eliminate y t =>
      have plain : (s'.eliminate y t).Every fun _ => True := every_apply (.eliminate y t) he'
      rw [hr.eliminated_of_eliminate] at hx
      rcases List.mem_cons.1 hx with rfl | hx
      · -- It is gone after this round, and no later round brings variables.
        have absent := (Formula.equation_of_eliminate hr.removal).1
        refine within_substitute fun f hf => every_within (plain f hf) fun z hz e => ?_
        exact not_mem_freeVars_eliminate absent hf (e ▸ hz)
      · exact ih plain hx

end Sequent

/-! ## Countermodels forth -/

namespace Model.Interpretation

/-- The evaluator finds the facts true and the goal false. -/
def IsCountermodel (I : Interpretation) (s : Sequent) : Prop :=
  (∀ f ∈ s.facts, I.holds f = .ok true) ∧ I.holds s.goal = .ok false

theorem isCountermodel_iff {I : Interpretation} {s : Sequent} : I.IsCountermodel s ↔
    s.Satisfies (I.holds ·.formula = .ok true) (I.holds · = .ok false) := by
  simp [IsCountermodel, Sequent.Satisfies, Sequent.facts]

theorem IsCountermodel.refutes {I : Interpretation} {s : Sequent} (h : I.IsCountermodel s) :
    I.Refutes s :=
  ⟨fun f hf => truth_of_holds (h.1 f hf), truth_of_holds h.2⟩

/-- Where its equation is true, a variable has the value of its replacement. -/
theorem reassigns_of_removal {I : Interpretation} {f : Formula} {x : String} {t : Term}
    (hf : f.removal? = some (.eliminate x t)) (h : I.holds f = .ok true) : I.Reassigns I x t := by
  refine ⟨rfl, rfl, fun v hv => ?_, fun _ _ => rfl⟩
  have hx : I.eval (.var x) = .ok v := by
    rw [eval]
    exact hv
  obtain ⟨_, rfl | rfl | rfl | rfl⟩ := Formula.equation_of_eliminate hf
  all_goals
    obtain ⟨a, ha, h⟩ := ok_of_bind h
    obtain ⟨b, hb, h⟩ := ok_of_bind h
    have same : a = b := by simpa using Except.ok.inj h
    subst same
  · rw [ha, ← hb, hx]
  · rw [hb, ← ha, hx]
  · rw [ha, ← hb, hx]
  · rw [hb, ← ha, hx]

end Model.Interpretation

namespace Sequent

variable {I : Interpretation} {s s' : Sequent}

theorem isCountermodel_eliminate {x : String} {t : Term} (hr : I.Reassigns I x t)
    (he : s.Every fun _ => True) (h : I.IsCountermodel s) : I.IsCountermodel (s.eliminate x t) := by
  rw [Interpretation.isCountermodel_iff] at h ⊢
  obtain ⟨hh, hg⟩ := every_iff.1 he
  refine ⟨List.forall_mem_map.2 fun g hm => ?_, Interpretation.holds_eliminate hr hg h.2⟩
  exact Interpretation.holds_eliminate hr (hh g hm) (h.1 g hm)

/-- **Elimination keeps countermodels**, whatever the sorts. -/
theorem isCountermodel_substitute (he : s.Every fun _ => True) (h : I.IsCountermodel s) :
    I.IsCountermodel s.substitute.value := by
  induction s using removals_induction with
  | done s hs _ =>
    rw [hs]
    exact h
  | round s s' g r hr ih =>
    have he' := (hr.without.every.1 he).2
    obtain ⟨hg, h'⟩ := hr.without.satisfies.1 (Interpretation.isCountermodel_iff.1 h)
    have h' := Interpretation.isCountermodel_iff.2 h'
    rw [hr.value_substitute]
    refine ih (every_apply r he') ?_
    cases r with
    | trivial => exact h'
    | eliminate x t =>
      exact isCountermodel_eliminate (Interpretation.reassigns_of_removal hr.removal hg) he' h'

end Sequent

/-! ## Countermodels back -/

namespace Model.Interpretation

/-- The two differ in the values of the names only. -/
structure SameOutside (I J : Interpretation) (names : List String) : Prop where
  domain : J.domain = I.domain
  functions : J.functions = I.functions
  predicates : J.predicates = I.predicates
  lookup : ∀ x, x ∉ names → J.lookup x = I.lookup x

theorem SameOutside.assign {I J : Interpretation} {names : List String} (h : I.SameOutside J names)
    (x : String) (v : Value) : I.SameOutside (J.assign x v) (x :: names) := by
  refine ⟨?_, ?_, ?_, fun y hy => ?_⟩
  · rw [domain_assign, h.domain]
  · rw [functions_assign, h.functions]
  · rw [predicates_assign, h.predicates]
  · rw [lookup_assign, if_neg (List.ne_of_not_mem_cons hy),
      h.lookup y (List.not_mem_of_not_mem_cons hy)]

end Model.Interpretation

namespace Sequent

variable {I : Interpretation} {s s' : Sequent} {L : Layout}

/-- **Countermodels are carried back**: an eliminated variable gets the value of its replacement. -/
theorem exists_refutes_of_substitute (he : s.Every (Atom.Placed L))
    (hI : I.Suits (L.without s.eliminated)) (h : I.Refutes s.substitute.value) :
    ∃ J : Interpretation, J.Suits L ∧ J.Refutes s ∧ I.SameOutside J s.eliminated := by
  induction s using removals_induction generalizing L with
  | done s hs hr =>
    rw [hs] at h
    refine ⟨I, ⟨fun σ hσ => hI.symbols σ ⟨hσ, ?_⟩, hI.predicates⟩, h, rfl, rfl, rfl, fun _ _ => rfl⟩
    rw [eliminated, hr]
    exact fun _ hx => (List.not_mem_nil hx).elim
  | round s s' g r hr ih =>
    obtain ⟨hg, he'⟩ := hr.without.every.1 he
    rw [hr.value_substitute] at h
    cases r with
    | trivial =>
      rw [hr.eliminated_of_trivial] at hI ⊢
      obtain ⟨J, hJ, refutes, same⟩ := ih he' hI h
      exact ⟨J, hJ, hr.without.refutes.2 ⟨Formula.truth_of_trivial hr.removal, refutes⟩, same⟩
    | eliminate x t =>
      rw [hr.eliminated_of_eliminate] at hI ⊢
      have replaces := replaces_of_placed hg hr.removal
      have placed : (s'.eliminate x t).Every (Atom.Placed (L.without [x])) :=
        every_eliminate he' fun a ha => every_placed_eliminate ha replaces
      have suits : I.Suits ((L.without [x]).without (s'.eliminate x t).eliminated) := by
        refine ⟨fun σ hσ => hI.symbols σ ⟨hσ.1.1, List.forall_mem_cons.2 ⟨?_, hσ.2⟩⟩, hI.predicates⟩
        exact hσ.1.2 x (List.mem_singleton_self x)
      obtain ⟨J, hJ, refutes, same⟩ := ih placed suits h
      refine ⟨_, hJ.assign replaces, ?_, same.assign x (J.value t)⟩
      exact hr.without.refutes_assign hr.removal (he.imp fun _ _ => trivial) refutes

theorem isCountermodel_of_refutes {L : Layout} (he : s.Every (Atom.Placed L)) (hI : I.Suits L)
    (hr : I.Refutes s) : I.IsCountermodel s := by
  have result (f : Formula) (hf : f ∈ s.formulas) : I.holds f = .ok (I.truth f) :=
    hI.evaluates (he f hf)
  refine ⟨fun f hf => ?_, ?_⟩
  · rw [result f (List.mem_append_left _ hf), hr.1 f hf]
  · rw [result s.goal (mem_formulas.2 (.inr rfl)), hr.2]

/-- **The elimination of equations is exact.** Let a sequent have no quantifiers, and no symbol in positions
of both sorts. Elimination takes one hypothesis away in each round, and notes it. What is left has no
equation between equal sides, none that a variable can be eliminated from, and no eliminated variable. Every
countermodel of the sequent is one of what is left. And every countermodel of what is left that gives values
of their sorts to the symbols of the sequent, the eliminated variables aside, becomes one of the sequent when
only these get other values.

The countermodel of the sequent has sets in set positions. That it has elements in element positions is
shown for flat sequents only, where no set constructor stands in such a position. This is a restriction:
elsewhere a variable that stands for an element may have to be a set, as in `singletonEquation` below. -/
theorem substitute_exact {s : Sequent} (plain : s.Every fun _ => True) (separate : s.Separated) :
    s.removals.length + s.substitute.value.hypotheses.length = s.hypotheses.length ∧
      (s.substitute.notes =
        s.removals.map fun p => .step { stage := "substitute", description := p.2.text p.1 }) ∧
      (∀ h ∈ s.substitute.value.hypotheses, ∀ e,
        Equation.ofFormula? h.formula = some e → e.IsSettled) ∧
      (∀ f ∈ s.substitute.value.formulas, ∀ x ∈ s.eliminated, x ∉ f.vars) ∧
      (∀ I : Interpretation, I.IsCountermodel s → I.IsCountermodel s.substitute.value) ∧
      ∀ (carrier : Carrier) (I : Interpretation), I.SortedFor carrier s s.eliminated →
        I.IsCountermodel s.substitute.value →
        ∃ J : Interpretation, J.IsCountermodel s ∧ I.SameOutside J s.eliminated ∧
          J.SortedFor .any s [] ∧ (s.Flat → J.SortedFor carrier s []) := by
  refine ⟨length_removals s, notes_substitute s, fun h hh e he => ?_, fun f hf x hx hm => ?_,
    fun I => isCountermodel_substitute plain, fun carrier I hI h => ?_⟩
  · exact Formula.isSettled_of_removal? (removal?_substitute s h hh) he
  · exact (within_of_eliminated plain hx f hf).of_mem_vars hm rfl
  · by_cases flat : s.Flat
    · have placed : s.Every (Atom.Placed (s.layout separate carrier False False.elim)) :=
        every_placed plain (.inr flat)
      obtain ⟨J, hJ, refutes, same⟩ := exists_refutes_of_substitute placed hI.suits h.refutes
      have sorted : J.SortedFor carrier s [] := .of_suits hJ
      exact ⟨J, isCountermodel_of_refutes placed hJ refutes, same, sorted.any, fun _ => sorted⟩
    · have placed : s.Every (Atom.Placed (s.layout separate .any True fun _ _ => trivial)) :=
        every_placed plain (.inl trivial)
      obtain ⟨J, hJ, refutes, same⟩ := exists_refutes_of_substitute placed hI.any.suits h.refutes
      exact ⟨J, isCountermodel_of_refutes placed hJ refutes, same, .of_suits hJ,
        fun h => absurd h flat⟩

/-- `x` and `y` are equal, `s` is `t` with `x`, and `y` is in `s`. -/
def chained : Sequent where
  hypotheses := [
    { name := "H0", formula := .atom (.eq (.var "x") (.var "y")) },
    { name := "H1", formula := .atom (.setEq (.var "s") (.union (.var "t") (.singleton (.var "x")))) },
    { name := "H2", formula := .atom (.mem (.var "y") (.var "s")) }]
  goal := .atom (.mem (.var "x") (.var "t"))

/-- `x` is `0`, and `t` is empty; `y` and `s` have no value. -/
def chainedModel : Interpretation where
  domain := [0]
  elements := [("x", 0)]
  sets := [("t", .ofInts [])]

/-- What is left: `x` is in `t` or equal to itself. -/
def chainedRest : Sequent where
  hypotheses := [
    { name := "H2"
      formula := .or (.atom (.mem (.var "x") (.var "t"))) (.atom (.eq (.var "x") (.var "x"))) }]
  goal := .atom (.mem (.var "x") (.var "t"))

theorem value_substitute_chained : chained.substitute.value = chainedRest := by
  rw [value_substitute_of_eliminate (x := "y") (t := .var "x") rfl]
  rw [value_substitute_of_eliminate (x := "s") (t := .union (.var "t") (.singleton (.var "x"))) rfl]
  rw [value_substitute_of_none rfl]
  rfl

theorem eliminated_chained : chained.eliminated = ["y", "s"] := by
  have first : Round _ (.eliminate "y" (.var "x")) _ chained := round_of_findRemoval rfl
  have second : Round _ (.eliminate "s" (.union (.var "t") (.singleton (.var "x")))) _ _ :=
    round_of_findRemoval (s := Sequent.eliminate "y" (.var "x")
      { chained with hypotheses := chained.hypotheses.tail }) rfl
  have last : chainedRest.eliminated = [] := by
    rw [eliminated, removals]
    rfl
  rw [first.eliminated_of_eliminate]
  exact congrArg ("y" :: ·) (second.eliminated_of_eliminate.trans (congrArg ("s" :: ·) last))

theorem sortedFor_chainedModel :
    chainedModel.SortedFor (Carrier.within chainedModel.domain) chained ["y", "s"] := by
  refine ⟨fun σ hσ unset => ?_, fun f hf p args ha => ?_⟩
  · obtain rfl | rfl | rfl | rfl : σ = .var "x" ∨ σ = .var "y" ∨ σ = .var "s" ∨ σ = .var "t" := by
      revert σ; decide
    · exact ⟨.element 0, rfl, fun set => absurd set (by decide), fun _ => ⟨0, by decide, rfl⟩⟩
    · exact absurd rfl (unset "y" (by decide))
    · exact absurd rfl (unset "s" (by decide))
    · exact ⟨.ofInts [], rfl, fun _ => Value.isSetOf_ofList (by simp),
        fun element => absurd element (by decide)⟩
  · have shapes : ∀ f ∈ chained.formulas, ∀ a ∈ f.atoms, a.shape ≠ .pred := by decide
    exact absurd rfl (shapes f hf _ ha)

/-- The eliminated variables get the values that the equations ask for. -/
theorem substitute_exact_chained :
    (chained.Every fun _ => True) ∧ chained.Separated ∧ chained.eliminated = ["y", "s"] ∧
      chainedModel.IsCountermodel chained.substitute.value ∧
      ∃ J : Interpretation, J.IsCountermodel chained ∧ chainedModel.SameOutside J ["y", "s"] ∧
        J.SortedFor (Carrier.within chainedModel.domain) chained [] := by
  have plain : chained.Every fun _ => True := by simp [Every, chained, formulas, facts, Formula.Every]
  have separate : chained.Separated := by decide
  have countermodel : chainedModel.IsCountermodel chained.substitute.value := by
    rw [value_substitute_chained]
    exact ⟨List.forall_mem_singleton.2 rfl, rfl⟩
  obtain ⟨_, _, _, _, _, back⟩ := substitute_exact plain separate
  rw [eliminated_chained] at back
  obtain ⟨J, hJ, same, _, sorted⟩ := back _ chainedModel sortedFor_chainedModel countermodel
  exact ⟨plain, separate, eliminated_chained, countermodel, J, hJ, same, sorted (by decide)⟩

/-- `x` stands in an element position, and is the set of `y`. -/
def singletonEquation : Sequent where
  hypotheses := [{ name := "H0", formula := .atom (.eq (.var "x") (.singleton (.var "y"))) }]
  goal := .bot

/-- `y` is `0`; `x` has no value. -/
def singletonModel : Interpretation where
  domain := [0]
  elements := [("y", 0)]

theorem eliminated_singletonEquation : singletonEquation.eliminated = ["x"] := by
  have round : Round _ (.eliminate "x" (.singleton (.var "y"))) { singletonEquation with hypotheses := [] }
      singletonEquation := round_of_findRemoval rfl
  rw [round.eliminated_of_eliminate, eliminated, removals]
  rfl

theorem sortedFor_singletonModel :
    singletonModel.SortedFor (Carrier.within singletonModel.domain) singletonEquation ["x"] := by
  refine ⟨fun σ hσ unset => ?_, fun f hf p args ha => ?_⟩
  · obtain rfl | rfl : σ = .var "x" ∨ σ = .var "y" := by revert σ; decide
    · exact absurd rfl (unset "x" (by decide))
    · exact ⟨.element 0, rfl, fun set => absurd set (by decide), fun _ => ⟨0, by decide, rfl⟩⟩
  · have shapes : ∀ f ∈ singletonEquation.formulas, ∀ a ∈ f.atoms, a.shape ≠ .pred := by decide
    exact absurd rfl (shapes f hf _ ha)

/-- **Elimination may lose the sorts**: what is left of `x = {y}` has countermodels with elements for all
symbols, but `x = {y}` has none, since no element is a set. -/
theorem substitute_loses_sorts :
    (singletonEquation.Every fun _ => True) ∧ singletonEquation.Separated ∧
      singletonModel.SortedFor (Carrier.within singletonModel.domain) singletonEquation
        singletonEquation.eliminated ∧
      singletonModel.IsCountermodel singletonEquation.substitute.value ∧
      ∀ (domain : List Int) (J : Interpretation),
        J.SortedFor (Carrier.within domain) singletonEquation [] → ¬ J.IsCountermodel singletonEquation := by
  refine ⟨?_, by decide, ?_, ?_, fun domain J sorted countermodel => ?_⟩
  · simp [Every, singletonEquation, formulas, facts, Formula.Every]
  · rw [eliminated_singletonEquation]
    exact sortedFor_singletonModel
  · rw [value_substitute_of_eliminate (x := "x") (t := .singleton (.var "y")) rfl,
      value_substitute_of_none rfl]
    exact ⟨fun _ h => absurd h List.not_mem_nil, rfl⟩
  · obtain ⟨v, hv, -, element⟩ := sorted.symbols (.var "x") (by decide) (by simp)
    obtain ⟨n, _, rfl⟩ := element (by decide)
    have equal : J.value (.var "x") = J.value (.singleton (.var "y")) := by
      simpa [Interpretation.truth, Interpretation.truthAtom] using
        Interpretation.truth_of_holds (countermodel.1 _ (.head _))
    have set : (J.value (.var "x")).isSet = true := equal ▸ Value.isSet_ofList _
    rw [Interpretation.value, Interpretation.denote, hv] at set
    cases set

end Sequent

end SetSequent
