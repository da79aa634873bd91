import SetSequent.Proofs.TruthRules

/-!
# Countermodels through the stages

What each stage before the search does to the countermodels of a sequent.

* `Sequent.Every` — every atom of a sequent has a property; no formula has a quantifier.
* `refutes_classify` — countermodels are kept when formulas outside the fragment are dropped.
* `substitute_induction` — elimination of equations, one hypothesis at a time. A step keeps exactly the
  countermodels in which the variable has the value of its replacement.
* `refutes_unfold`, `refutes_normalize`, `refutes_inject` — these stages keep the countermodels
  exactly.
* `Sequent.Asserted` — no hypothesis only offers a split; the stages before injection keep that.
* `fresh_not_mem` — a fresh name is not taken.
* `exists_injectAll` — what injection appends: one hypothesis for each open atom, with a name of its own.
-/

namespace SetSequent

open Model

/-! ## Sequents by their hypotheses -/

namespace Sequent

variable {I : Interpretation} {s : Sequent} {P Q : Atom → Prop} {t : DecidabilityTable}

theorem mem_formulas {f : Formula} :
    f ∈ s.formulas ↔ (∃ h ∈ s.hypotheses, h.formula = f) ∨ f = s.goal := by
  simp [formulas, facts]

/-- Every hypothesis satisfies `R`, and the goal satisfies `G`. -/
def Satisfies (R : Hypothesis → Prop) (G : Formula → Prop) (s : Sequent) : Prop :=
  (∀ h ∈ s.hypotheses, R h) ∧ G s.goal

theorem forall_formulas {K : Formula → Prop} :
    (∀ f ∈ s.formulas, K f) ↔ s.Satisfies (K ·.formula) K := by
  simp [Satisfies, mem_formulas, or_imp, forall_and]

/-- No formula of the sequent has a quantifier, and every atom satisfies `P`. -/
def Every (P : Atom → Prop) (s : Sequent) : Prop := ∀ f ∈ s.formulas, f.Every P

theorem every_iff :
    s.Every P ↔ (∀ h ∈ s.hypotheses, h.formula.Every P) ∧ s.goal.Every P := forall_formulas

theorem Every.imp (h : s.Every P) (hq : ∀ a, P a → Q a) : s.Every Q :=
  fun f hf => (h f hf).imp hq

theorem refutes_iff :
    I.Refutes s ↔ (∀ h ∈ s.hypotheses, I.truth h.formula = true) ∧ I.truth s.goal = false := by
  simp [Interpretation.Refutes, facts]

theorem refutes_congr {J : Interpretation} (he : s.Every fun _ => True)
    (h : ∀ f ∈ s.formulas, I.Agrees J (· ∈ f.freeVars)) : I.Refutes s ↔ J.Refutes s := by
  have same (f : Formula) (hf : f ∈ s.formulas) : I.truth f = J.truth f :=
    Interpretation.truth_congr (he f hf) (h f hf)
  rw [Interpretation.Refutes, Interpretation.Refutes, same s.goal (mem_formulas.2 (.inr rfl))]
  exact and_congr_left fun _ => forall₂_congr fun f hf =>
    by rw [same f (List.mem_append_left _ hf)]

end Sequent

/-! ## Restriction to the fragment -/

/-- The fragment has no quantifiers. -/
theorem Formula.every_of_isRelevant {t : DecidabilityTable} {top : Bool} {f : Formula}
    (h : f.isRelevant t top = true) : f.Every fun _ => True := by
  induction f generalizing top with
  | top | bot | atom => trivial
  | not f ih => exact ih h
  | connect c l r ihl ihr =>
    rw [isRelevant, Bool.and_eq_true] at h
    exact ⟨ihl h.1, ihr h.2⟩
  | all x f => cases h

/-- What a formula shares with its conjuncts, a hypothesis shares with its parts. -/
theorem Hypothesis.forall_split {R : Formula → Prop} (hR : ∀ f, R f ↔ ∀ g ∈ f.conjuncts, R g)
    (h : Hypothesis) : (∀ h' ∈ h.split, R h'.formula) ↔ R h.formula := by
  rw [hR h.formula, split]
  split
  · rename_i g hg
    rw [hg, List.forall_mem_singleton, List.forall_mem_singleton, hR h.formula, hg,
      List.forall_mem_singleton]
  · simp only [List.mem_mapIdx, forall_exists_index]
    constructor
    · intro hp g hg
      obtain ⟨i, hi, rfl⟩ := List.mem_iff_getElem.1 hg
      exact hp _ i hi rfl
    · rintro hp h' i hi rfl
      exact hp _ (List.getElem_mem hi)

theorem Hypothesis.injected_split {h h' : Hypothesis} (hm : h' ∈ h.split) :
    h'.injected = h.injected := by
  unfold split at hm
  split at hm
  · rw [List.mem_singleton.1 hm]
  · obtain ⟨i, hi, rfl⟩ := List.mem_mapIdx.1 hm
    rfl

namespace Sequent

variable {I : Interpretation} {s : Sequent} {P : Atom → Prop} {t : DecidabilityTable}

variable {R : Hypothesis → Prop} {G : Formula → Prop}

/-- What a goal shares with a premise and the rest, a sequent shares with the introduced one. -/
theorem satisfies_introduce
    (hi : ∀ hs premise goal, G (.implies premise goal) ↔ R (introduce.assume hs premise) ∧ G goal)
    (hn : ∀ hs premise, G (.not premise) ↔ R (introduce.assume hs premise) ∧ G .bot)
    (hs : List Hypothesis) (goal : Formula) :
    (introduce hs goal).value.Satisfies R G ↔ Satisfies R G ⟨hs, goal⟩ := by
  have step {hs : List Hypothesis} {premise goal rest : Formula}
      (h : G goal ↔ R (introduce.assume hs premise) ∧ G rest) :
      Satisfies R G ⟨hs ++ [introduce.assume hs premise], rest⟩ ↔ Satisfies R G ⟨hs, goal⟩ := by
    simp only [Satisfies, List.forall_mem_append, List.forall_mem_singleton, h, and_assoc]
  induction hs, goal using introduce.induct with
  | case1 hs premise goal =>
    rename_i ih
    rw [introduce]
    exact ih.trans (step (hi ..))
  | case2 hs premise =>
    rw [introduce]
    exact step (hn ..)
  | case3 hs goal hi hn =>
    rw [introduce] <;> first | rfl | assumption

theorem satisfies_splitConjunctions (hR : ∀ h : Hypothesis, (∀ h' ∈ h.split, R h') ↔ R h) :
    s.splitConjunctions.Satisfies R G ↔ s.Satisfies R G := by
  refine and_congr_left fun _ => ?_
  simp only [splitConjunctions, List.forall_mem_flatMap]
  exact forall₂_congr fun h _ => hR h

theorem value_keepRelevant (hs : List Hypothesis) :
    (keepRelevant t hs).value = hs.filter (·.formula.isRelevant t true) := by
  induction hs with
  | nil => rfl
  | cons h hs ih =>
    cases hr : h.formula.isRelevant t true <;> simp [keepRelevant, hr, ih]

theorem value_relevantGoal (goal : Formula) :
    (relevantGoal t goal).value = if goal.isRelevant t true then goal else .bot := by
  unfold relevantGoal
  split <;> rfl

/-- The premises of the goal and the conjuncts of each hypothesis stand apart. -/
def opened (s : Sequent) : Sequent := s.introduceGoal.value.splitConjunctions

theorem satisfies_opened
    (hi : ∀ hs premise goal, G (.implies premise goal) ↔ R (introduce.assume hs premise) ∧ G goal)
    (hn : ∀ hs premise, G (.not premise) ↔ R (introduce.assume hs premise) ∧ G .bot)
    (hR : ∀ h : Hypothesis, (∀ h' ∈ h.split, R h') ↔ R h) :
    s.opened.Satisfies R G ↔ s.Satisfies R G :=
  (satisfies_splitConjunctions hR).trans (satisfies_introduce hi hn ..)

theorem refutes_opened : I.Refutes s.opened ↔ I.Refutes s := by
  rw [refutes_iff, refutes_iff]
  refine satisfies_opened (R := (I.truth ·.formula = true)) (G := (I.truth · = false))
    (fun hs premise goal => ?_) (fun hs premise => ?_) fun h => ?_
  · simp [introduce.assume, Interpretation.truth, Connective.combine]
  · simp [introduce.assume, Interpretation.truth]
  · exact h.forall_split fun _ => Interpretation.truth_conjuncts

theorem every_opened : s.opened.Every P ↔ s.Every P := by
  rw [every_iff, every_iff]
  refine satisfies_opened (R := (·.formula.Every P)) (G := (·.Every P))
    (fun _ _ _ => Iff.rfl) (fun _ _ => (and_iff_left trivial).symm) fun h => ?_
  exact h.forall_split fun _ => Formula.every_conjuncts

theorem value_classify :
    (s.classify t).value =
      ⟨s.opened.hypotheses.filter (·.formula.isRelevant t true),
        if s.opened.goal.isRelevant t true then s.opened.goal else .bot⟩ := by
  simp only [classify, Noted.value_bind, Noted.value_pure, value_keepRelevant, value_relevantGoal]
  rfl

/-- What is dropped only makes a sequent harder to prove. -/
theorem refutes_classify (h : I.Refutes s) : I.Refutes (s.classify t).value := by
  obtain ⟨hf, hg⟩ := refutes_iff.1 (refutes_opened.2 h)
  rw [value_classify, refutes_iff]
  refine ⟨fun h hh => hf h (List.mem_filter.1 hh).1, ?_⟩
  dsimp only
  split
  · exact hg
  · rfl

theorem every_classify : (s.classify t).value.Every fun _ => True := by
  rw [value_classify, every_iff]
  refine ⟨fun h hh => Formula.every_of_isRelevant (List.mem_filter.1 hh).2, ?_⟩
  dsimp only
  split
  · rename_i hr
    exact Formula.every_of_isRelevant hr
  · trivial

end Sequent

/-! ## Elimination of equations -/

theorem Formula.truth_of_trivial {I : Interpretation} {f : Formula}
    (h : f.removal? = some .trivial) : I.truth f = true := by
  unfold removal? at h
  split at h
  · cases h
  · rename_i e he
    split at h
    · rename_i ht
      have ht : e.lhs = e.rhs := by simpa [Equation.isTrivial] using ht
      unfold Equation.ofFormula? at he
      split at he
      · rename_i a
        cases a <;> cases he <;> simp_all [Interpretation.truth, Interpretation.truthAtom]
      · cases he
    · obtain ⟨_, _, h⟩ := Option.map_eq_some_iff.1 h
      cases h

/-- The equation that offers a variable, as an atom, with its two sides. -/
theorem Formula.equation_of_eliminate {f : Formula} {x : String} {r : Term}
    (h : f.removal? = some (.eliminate x r)) :
    x ∉ r.vars ∧ (f = .atom (.eq r (.var x)) ∨ f = .atom (.eq (.var x) r) ∨
      f = .atom (.setEq r (.var x)) ∨ f = .atom (.setEq (.var x) r)) := by
  unfold removal? at h
  split at h
  · cases h
  · rename_i e he
    split at h
    · cases h
    · obtain ⟨⟨y, r'⟩, hs, h⟩ := Option.map_eq_some_iff.1 h
      cases h
      obtain ⟨hs, hn⟩ := Equation.eq_of_elimination? hs
      refine ⟨hn, ?_⟩
      unfold Equation.ofFormula? at he
      split at he
      · rename_i a
        cases a <;> cases he <;> rcases hs with ⟨rfl, rfl⟩ | ⟨rfl, rfl⟩ <;> simp
      · cases he

theorem Formula.truth_iff_of_eliminate {I : Interpretation} {f : Formula} {x : String} {r : Term}
    (h : f.removal? = some (.eliminate x r)) : I.truth f = true ↔ I.denote x = I.value r := by
  obtain ⟨_, rfl | rfl | rfl | rfl⟩ := equation_of_eliminate h <;>
    simp only [Interpretation.truth, Interpretation.truthAtom, Interpretation.value, beq_iff_eq]
  all_goals exact eq_comm

theorem mem_of_findRemoval {hs others : List Hypothesis} {h : Hypothesis} {r : Removal}
    (hr : findRemoval hs = some (h, r, others)) :
    h.formula.removal? = some r ∧ ∀ g, g ∈ hs ↔ g = h ∨ g ∈ others := by
  induction hs generalizing others with
  | nil => cases hr
  | cons h' hs ih =>
    rw [findRemoval] at hr
    split at hr
    · rename_i r' hr'
      cases hr
      exact ⟨hr', fun g => List.mem_cons⟩
    · obtain ⟨⟨_, _, others'⟩, h', he⟩ := Option.map_eq_some_iff.1 hr
      simp only [Prod.mk.injEq] at he
      obtain ⟨rfl, rfl, rfl⟩ := he
      obtain ⟨hf, hm⟩ := ih h'
      refine ⟨hf, fun g => ?_⟩
      simp only [List.mem_cons, hm g]
      grind

namespace Sequent

variable {I : Interpretation} {s : Sequent} {P : Atom → Prop}
variable {R : Hypothesis → Prop} {G : Formula → Prop}

/-- Replaces a variable by a term in every formula. -/
def eliminate (x : String) (r : Term) (s : Sequent) : Sequent where
  hypotheses := s.hypotheses.map fun h => { h with formula := h.formula.eliminate x r }
  goal := s.goal.eliminate x r

theorem refutes_eliminate {x : String} {r : Term} (he : s.Every fun _ => True)
    (hx : I.denote x = I.value r) : I.Refutes (s.eliminate x r) ↔ I.Refutes s := by
  obtain ⟨hh, hg⟩ := every_iff.1 he
  rw [refutes_iff, refutes_iff, eliminate, Interpretation.truth_eliminate hx hg]
  refine and_congr_left fun _ => ?_
  simp only [List.forall_mem_map]
  exact forall₂_congr fun h hm => by rw [Interpretation.truth_eliminate hx (hh h hm)]

theorem every_eliminate {Q : Atom → Prop} {x : String} {r : Term} (he : s.Every P)
    (h : ∀ a, P a → ((Formula.atom a).eliminate x r).Every Q) : (s.eliminate x r).Every Q := by
  obtain ⟨hh, hg⟩ := every_iff.1 he
  refine every_iff.2 ⟨?_, Formula.every_eliminate hg h⟩
  simp only [eliminate, List.forall_mem_map]
  exact fun h' hm => Formula.every_eliminate (hh h' hm) h

theorem not_mem_freeVars_eliminate {x : String} {r : Term} (hx : x ∉ r.vars) {f : Formula}
    (hf : f ∈ (s.eliminate x r).formulas) : x ∉ f.freeVars := by
  have gone (g : Formula) : x ∉ (g.eliminate x r).freeVars := fun h =>
    (Formula.mem_freeVars_eliminate h).elim (fun h => h.2 rfl) hx
  rcases mem_formulas.1 hf with ⟨h, hh, rfl⟩ | rfl
  · obtain ⟨g, _, rfl⟩ := List.mem_map.1 hh
    exact gone _
  · exact gone _

/-- The sequent without a hypothesis: `h` stands in `s`, and `s'` has the others. -/
structure Without (h : Hypothesis) (s' s : Sequent) : Prop where
  hypotheses : ∀ g, g ∈ s.hypotheses ↔ g = h ∨ g ∈ s'.hypotheses
  goal : s'.goal = s.goal

theorem Without.satisfies {h : Hypothesis} {s' : Sequent} (hw : Without h s' s) :
    s.Satisfies R G ↔ R h ∧ s'.Satisfies R G := by
  simp only [Satisfies, hw.hypotheses, hw.goal, forall_eq_or_imp, and_assoc]

theorem Without.refutes {h : Hypothesis} {s' : Sequent} (hw : Without h s' s) :
    I.Refutes s ↔ I.truth h.formula = true ∧ I.Refutes s' := by
  rw [refutes_iff, refutes_iff]
  exact hw.satisfies (R := (I.truth ·.formula = true)) (G := (I.truth · = false))

theorem Without.every {h : Hypothesis} {s' : Sequent} (hw : Without h s' s) :
    s.Every P ↔ h.formula.Every P ∧ s'.Every P := by
  rw [every_iff, every_iff]
  exact hw.satisfies (R := (·.formula.Every P)) (G := (·.Every P))

theorem value_substitute_of_none (h : findRemoval s.hypotheses = none) : s.substitute.value = s := by
  rw [substitute]
  split <;> simp_all

theorem value_substitute_of_trivial {h : Hypothesis} {others : List Hypothesis}
    (hr : findRemoval s.hypotheses = some (h, .trivial, others)) :
    s.substitute.value = (substitute { s with hypotheses := others }).value := by
  rw [substitute]
  split <;> simp_all

theorem value_substitute_of_eliminate {h : Hypothesis} {x : String} {t : Term}
    {others : List Hypothesis} (hr : findRemoval s.hypotheses = some (h, .eliminate x t, others)) :
    s.substitute.value =
      (substitute (Sequent.eliminate x t { s with hypotheses := others })).value := by
  rw [substitute]
  split <;> simp_all [Sequent.eliminate]

/-- What holds of a sequent with nothing to remove, and is kept when a trivial equation is dropped and
when a variable is eliminated, relates every sequent to what elimination makes of it. -/
theorem substitute_induction {R : Sequent → Sequent → Prop}
    (done : ∀ s, findRemoval s.hypotheses = none → R s s)
    (drop : ∀ s s' r h, Without h s' s → h.formula.removal? = some .trivial → R s' r → R s r)
    (eliminate : ∀ s s' r h x t, Without h s' s → h.formula.removal? = some (.eliminate x t) →
      R (s'.eliminate x t) r → R s r) (s : Sequent) : R s s.substitute.value := by
  induction s using substitute.induct with
  | case1 s hn =>
    rw [value_substitute_of_none hn]
    exact done s hn
  | case2 s h others hr ih =>
    rw [value_substitute_of_trivial hr]
    obtain ⟨hf, hm⟩ := mem_of_findRemoval hr
    exact drop _ { s with hypotheses := others } _ h ⟨hm, rfl⟩ hf ih
  | case3 s h x t others hr ih =>
    rw [value_substitute_of_eliminate hr]
    obtain ⟨hf, hm⟩ := mem_of_findRemoval hr
    exact eliminate _ { s with hypotheses := others } _ h x t ⟨hm, rfl⟩ hf ih

/-- What is kept by each elimination that an equation of the sequent allows is kept by all of them. -/
theorem satisfies_substitute
    (hR : ∀ (g : Hypothesis) x t, R g → g.formula.removal? = some (.eliminate x t) →
      ∀ h, R h → R { h with formula := h.formula.eliminate x t })
    (hG : ∀ (g : Hypothesis) x t, R g → g.formula.removal? = some (.eliminate x t) →
      ∀ f, G f → G (f.eliminate x t))
    (hs : s.Satisfies R G) : s.substitute.value.Satisfies R G := by
  refine substitute_induction (R := fun s r => s.Satisfies R G → r.Satisfies R G)
    ?done ?drop ?eliminate s hs
  case done => exact fun _ _ hs => hs
  case drop =>
    intro s s' r g hw _ ih hs
    exact ih (hw.satisfies.1 hs).2
  case eliminate =>
    intro s s' r g x t hw hf ih hs
    obtain ⟨hg, hh, hgoal⟩ := hw.satisfies.1 hs
    refine ih ⟨?_, hG g x t hg hf _ hgoal⟩
    exact List.forall_mem_map.2 fun h hm => hR g x t hg hf h (hh h hm)

theorem every_substitute
    (hP : ∀ (f : Formula) x r, f.Every P → f.removal? = some (.eliminate x r) →
      ∀ a, P a → ((Formula.atom a).eliminate x r).Every P)
    (he : s.Every P) : s.substitute.value.Every P := by
  rw [every_iff] at he ⊢
  refine satisfies_substitute (R := (·.formula.Every P)) (G := (·.Every P))
    (fun g x t hg hf h hh => ?_) (fun g x t hg hf f hh => ?_) he
  · exact Formula.every_eliminate hh (hP _ x t hg hf)
  · exact Formula.every_eliminate hh (hP _ x t hg hf)

theorem every_substitute_true (he : s.Every fun _ => True) :
    s.substitute.value.Every fun _ => True :=
  every_substitute (fun _ _ _ _ _ _ _ => Formula.every_unfold_atom _) he

/-- A countermodel gives an eliminated variable the value of its replacement, so it is kept, and so is
every property of the goal that depends on values only. -/
theorem refutes_substitute {K : Formula → Prop}
    (hK : ∀ x r f, I.denote x = I.value r → K f → K (f.eliminate x r))
    (he : s.Every fun _ => True) (h : I.Refutes s) (hg : K s.goal) :
    I.Refutes s.substitute.value ∧ K s.substitute.value.goal := by
  refine substitute_induction (R := fun s r => (s.Every fun _ => True) → I.Refutes s → K s.goal →
      I.Refutes r ∧ K r.goal) ?done ?drop ?eliminate s he h hg
  case done =>
    intro s _ _ h hg
    exact ⟨h, hg⟩
  case drop =>
    intro s s' r g hw _ ih he h hg
    exact ih (hw.every.1 he).2 (hw.refutes.1 h).2 (hw.goal ▸ hg)
  case eliminate =>
    intro s s' r g x t hw hf ih he h hg
    have he' := (hw.every.1 he).2
    obtain ⟨hx, h'⟩ := hw.refutes.1 h
    have hx := (Formula.truth_iff_of_eliminate hf).1 hx
    exact ih (every_eliminate he' fun _ _ => Formula.every_unfold_atom _)
      ((refutes_eliminate he' hx).2 h') (hK x t _ hx (hw.goal ▸ hg))

/-! ## Changes of every formula -/

theorem value_mapFormulas (stage : String) (g : Formula → Noted Formula) (s : Sequent) :
    (s.mapFormulas stage g).value =
      ⟨s.hypotheses.map fun h => { h with formula := (g h.formula).value }, (g s.goal).value⟩ := by
  have on (hs : List Hypothesis) : (mapFormulas.onHypotheses stage g hs).value =
      hs.map fun h => { h with formula := (g h.formula).value } := by
    induction hs with
    | nil => rfl
    | cons h hs ih =>
      simp only [mapFormulas.onHypotheses, Noted.value_bind]
      split <;> simp [ih]
  simp only [mapFormulas, Noted.value_bind, on]
  split <;> rfl

theorem refutes_mapFormulas {stage : String} {g : Formula → Noted Formula}
    (hg : ∀ f, I.truth (g f).value = I.truth f) :
    I.Refutes (s.mapFormulas stage g).value ↔ I.Refutes s := by
  simp only [value_mapFormulas, refutes_iff, List.forall_mem_map, hg]

theorem every_mapFormulas {Q : Atom → Prop} {stage : String} {g : Formula → Noted Formula}
    (he : s.Every P) (hg : ∀ f, f.Every P → (g f).value.Every Q) :
    (s.mapFormulas stage g).value.Every Q := by
  obtain ⟨hh, hgoal⟩ := every_iff.1 he
  rw [value_mapFormulas, every_iff]
  simp only [List.forall_mem_map]
  exact ⟨fun h hm => hg _ (hh h hm), hg _ hgoal⟩

theorem refutes_unfold : I.Refutes s.unfold.value ↔ I.Refutes s :=
  refutes_mapFormulas fun f => Interpretation.truth_unfold f

theorem refutes_normalize {t : DecidabilityTable} {usePull : Bool} :
    I.Refutes (s.normalize t usePull).value ↔ I.Refutes s :=
  refutes_mapFormulas fun f => Interpretation.truth_normalize usePull f

theorem every_unfold (he : s.Every fun _ => True) : s.unfold.value.Every fun _ => True :=
  every_mapFormulas he fun _ hf => Formula.every_unfold hf fun _ _ => Formula.every_unfold_atom _

theorem every_normalize {t : DecidabilityTable} {usePull : Bool} (he : s.Every P) :
    (s.normalize t usePull).value.Every P :=
  every_mapFormulas he fun f hf => Formula.every_normalize usePull f hf

/-! ## Asserted hypotheses -/

/-- No hypothesis is injected: all of them are asserted. -/
def Asserted (s : Sequent) : Prop := ∀ h ∈ s.hypotheses, h.injected = false

theorem asserted_iff : s.Asserted ↔ s.Satisfies (·.injected = false) fun _ => True :=
  (and_iff_left trivial).symm

theorem Asserted.opened (h : s.Asserted) : s.opened.Asserted := by
  have premise (hs : List Hypothesis) (f : Formula) :
      True ↔ (introduce.assume hs f).injected = false ∧ True :=
    ⟨fun _ => ⟨rfl, trivial⟩, fun _ => trivial⟩
  have introduced : (introduce s.hypotheses s.goal).value.Asserted :=
    asserted_iff.2 <| (satisfies_introduce (fun hs f _ => premise hs f) premise ..).2 (asserted_iff.1 h)
  intro g hg
  obtain ⟨g', hg', hm⟩ := List.mem_flatMap.1 hg
  rw [Hypothesis.injected_split hm]
  exact introduced g' hg'

theorem Asserted.substitute (h : s.Asserted) : s.substitute.value.Asserted :=
  asserted_iff.2 <| satisfies_substitute (fun _ _ _ _ _ _ hh => hh) (fun _ _ _ _ _ _ _ => trivial)
    (asserted_iff.1 h)

theorem Asserted.mapFormulas (h : s.Asserted) (stage : String) (g : Formula → Noted Formula) :
    (s.mapFormulas stage g).value.Asserted := by
  rw [value_mapFormulas]
  exact List.forall_mem_map.2 h

end Sequent

/-! ## Fresh names -/

theorem eq_of_append_toString {stem : String} {m n : Nat}
    (h : stem ++ toString m = stem ++ toString n) : m = n := by
  have h : m.repr = n.repr := (String.append_right_inj stem).1 h
  rw [Nat.repr_eq_ofList_toDigits, Nat.repr_eq_ofList_toDigits] at h
  simpa using congrArg (Nat.ofDigitChars 10 · 0) (String.ofList_injective h)

/-- If the search for a name ends with one that is taken, every name it tried is taken. -/
theorem mem_of_fresh_go {taken : List String} {stem : String} {tries i : Nat}
    (h : fresh.go taken stem tries i ∈ taken) {n : Nat} (hi : i ≤ n) (hn : n ≤ i + tries) :
    stem ++ toString n ∈ taken := by
  induction tries generalizing i with
  | zero =>
    obtain rfl : n = i := by omega
    exact h
  | succ tries ih =>
    rw [fresh.go] at h
    split at h
    · rename_i hc
      by_cases he : n = i
      · rw [he]; exact List.contains_iff_mem.1 hc
      · exact ih h (by omega) (by omega)
    · rename_i hc
      exact absurd (List.contains_iff_mem.2 h) hc

/-- A list of names does not hold one more name than its length, so the search finds one. -/
theorem fresh_not_mem (taken : List String) (stem : String) : fresh taken stem ∉ taken := by
  intro h
  -- If the last name tried is taken, so are all of them, and no two of them are equal.
  let tried := (List.range (taken.length + 1)).map fun n => stem ++ toString n
  have hd : tried.Nodup :=
    List.Pairwise.map _ (fun _ _ => mt eq_of_append_toString) List.nodup_range
  have hs : tried ⊆ taken := by
    intro x hx
    obtain ⟨n, hn, rfl⟩ := List.mem_map.1 hx
    have := List.mem_range.1 hn
    exact mem_of_fresh_go h (Nat.zero_le n) (by omega)
  have := hd.length_le_of_subset hs
  simp only [tried, List.length_map, List.length_range] at this
  omega

/-! ## Excluded middle -/

theorem Formula.mem_atoms_of_negatedAtoms {f : Formula} {negated : Bool} {a : Atom}
    (h : a ∈ f.negatedAtoms negated) : ∃ b ∈ f.atoms, b.orient = a := by
  induction f generalizing negated with
  | top | bot => cases h
  | atom b =>
    simp only [negatedAtoms] at h
    split at h
    · exact ⟨b, List.mem_singleton_self b, (List.mem_singleton.1 h).symm⟩
    · cases h
  | not f ih | all x f ih => exact ih h
  | connect c l r ihl ihr =>
    have both (bl br : Bool) (h : a ∈ l.negatedAtoms bl ++ r.negatedAtoms br) :
        ∃ b ∈ l.atoms ++ r.atoms, b.orient = a := by
      rcases List.mem_append.1 h with h | h
      · obtain ⟨b, hb, he⟩ := ihl h
        exact ⟨b, List.mem_append_left _ hb, he⟩
      · obtain ⟨b, hb, he⟩ := ihr h
        exact ⟨b, List.mem_append_right _ hb, he⟩
    cases c <;> exact both _ _ h

namespace Sequent

variable {I : Interpretation} {s : Sequent} {P : Atom → Prop} {t : DecidabilityTable}

variable {facts : List Formula} {atoms : List Atom} {hs : List Hypothesis}

/-- The excluded middle of an atom, with a name that no hypothesis has. -/
def injection (hs : List Hypothesis) (a : Atom) : Hypothesis where
  name := fresh (hs.map (·.name)) "D"
  formula := Formula.excludedMiddle (.atom a)
  injected := true

/-- The atom is decidable, and no fact says whether it holds. -/
def isOpen (t : DecidabilityTable) (facts : List Formula) (a : Atom) : Bool :=
  t.isDecidable (.atom a) && !facts.contains (.atom a) && !facts.contains (.not (.atom a))

theorem isOpen_iff {a : Atom} :
    isOpen t facts a = true ↔
      t.isDecidable (.atom a) = true ∧ .atom a ∉ facts ∧ .not (.atom a) ∉ facts := by
  simp [isOpen, and_assoc]

/-- One atom adds its excluded middle if it is open, and nothing otherwise. -/
theorem value_injectAll_cons (t : DecidabilityTable) (facts : List Formula) (a : Atom) (rest : List Atom)
    (hs : List Hypothesis) :
    (injectAll t facts (a :: rest) hs).value =
      (injectAll t facts rest (if isOpen t facts a then hs ++ [injection hs a] else hs)).value := by
  rw [injectAll, isOpen]
  cases t.isDecidable (.atom a) <;> cases facts.contains (.atom a) <;>
    cases facts.contains (.not (.atom a)) <;> rfl

/-- **What the atoms add**: the excluded middles of the open ones, in their order, with names that differ
from those of the hypotheses and from each other. The induction is on the atoms, for all hypotheses: the
name of one injection is taken for the next ones. -/
theorem exists_injectAll (t : DecidabilityTable) (facts : List Formula) (atoms : List Atom)
    (hs : List Hypothesis) :
    ∃ added : List Hypothesis, (injectAll t facts atoms hs).value = hs ++ added ∧
      (∀ h ∈ added, h.injected = true) ∧
      added.map (·.formula) =
        (atoms.filter (isOpen t facts)).map (fun a => Formula.excludedMiddle (.atom a)) ∧
      (added.map (·.name)).Nodup ∧ ∀ h ∈ added, h.name ∉ hs.map (·.name) := by
  induction atoms generalizing hs with
  | nil => exact ⟨[], by simp [injectAll]⟩
  | cons a rest ih =>
    rw [value_injectAll_cons, List.filter_cons]
    cases isOpen t facts a with
    | false => exact ih hs
    | true =>
      obtain ⟨added, value, injected, formulas, nodup, apart⟩ := ih (hs ++ [injection hs a])
      simp only [List.map_append, List.mem_append, not_or] at apart
      have first : (injection hs a).name ∉ hs.map (·.name) := fresh_not_mem _ _
      have later : (injection hs a).name ∉ added.map (·.name) := by
        intro h
        obtain ⟨g, hg, he⟩ := List.mem_map.1 h
        exact (apart g hg).2 (he ▸ List.mem_singleton_self _)
      refine ⟨injection hs a :: added, ?_, ?_, ?_, ?_, ?_⟩
      · simpa using value
      · exact List.forall_mem_cons.2 ⟨rfl, injected⟩
      · simp only [List.map_cons, formulas, if_true]
        rfl
      · exact List.nodup_cons.2 ⟨later, nodup⟩
      · exact List.forall_mem_cons.2 ⟨first, fun h hh => (apart h hh).1⟩

theorem mem_injectAll {h : Hypothesis} (hh : h ∈ (injectAll t facts atoms hs).value) :
    h ∈ hs ∨ ∃ a ∈ atoms, t.isDecidable (.atom a) = true ∧
      h.formula = Formula.excludedMiddle (.atom a) := by
  obtain ⟨added, value, _, formulas, _⟩ := exists_injectAll t facts atoms hs
  rw [value] at hh
  refine (List.mem_append.1 hh).imp_right fun hm => ?_
  have formula : h.formula ∈ added.map (·.formula) := List.mem_map.2 ⟨h, hm, rfl⟩
  rw [formulas] at formula
  obtain ⟨a, ha, he⟩ := List.mem_map.1 formula
  obtain ⟨ha, isopen⟩ := List.mem_filter.1 ha
  exact ⟨a, ha, (isOpen_iff.1 isopen).1, he.symm⟩

theorem subset_injectAll : hs ⊆ (injectAll t facts atoms hs).value := by
  obtain ⟨added, value, _⟩ := exists_injectAll t facts atoms hs
  rw [value]
  exact List.subset_append_left hs added

/-- What is injected is a tautology. -/
theorem refutes_inject : I.Refutes (s.inject t).value ↔ I.Refutes s := by
  rw [refutes_iff, refutes_iff]
  refine and_congr_left fun _ =>
    ⟨fun hf h hh => hf h (subset_injectAll hh), fun hf h hh => ?_⟩
  rcases mem_injectAll hh with hm | ⟨a, _, _, he⟩
  · exact hf h hm
  · rw [he]
    exact Interpretation.truth_excludedMiddle _

theorem every_inject (ho : ∀ a, P a → P a.orient) (he : s.Every P) :
    (s.inject t).value.Every P := by
  obtain ⟨hf, hg⟩ := every_iff.1 he
  refine every_iff.2 ⟨fun h hh => ?_, hg⟩
  rcases mem_injectAll hh with hm | ⟨a, ha, _, hform⟩
  · exact hf h hm
  · have hp : P a := by
      rw [splitCandidates, List.mem_eraseDups, List.mem_append] at ha
      rcases ha with ha | ha
      · obtain ⟨f, hm, ha⟩ := List.mem_flatMap.1 ha
        obtain ⟨b, hb, rfl⟩ := Formula.mem_atoms_of_negatedAtoms ha
        exact ho b ((he f (List.mem_append_left _ hm)).of_mem_atoms hb)
      · obtain ⟨b, hb, rfl⟩ := List.mem_map.1 ha
        exact ho b (hg.of_mem_atoms hb)
    rw [hform]
    exact ⟨hp, hp⟩

end Sequent

end SetSequent
