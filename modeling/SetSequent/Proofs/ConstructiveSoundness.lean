import Mathlib
import SetSequent.Proofs.Certified
import SetSequent.Proofs.ConstructiveSearch
import SetSequent.Proofs.Instances

/-!
# The procedure is constructively sound

On plain sequents elimination and instances have nothing to do; the other stages are judged in a
Heyting algebra. The search refutes the negated goal, so what a proof gives is the double negation of the
goal, and the goal itself where it is decided.

* `Valuation.Entails` — the hypotheses lie below the double negation of the goal.
* `entails_of_classify`, `entails_normalize`, `entails_of_explores` — the stages, from last to first.
* `decide_constructive` — the hypotheses of a proved sequent entail its goal.
-/

namespace SetSequent

/-! ## Plain sequents -/

namespace Formula

variable {f : Formula}

theorem unfold_of_isPlain (h : f.Every (·.isPlain = true)) : f.unfold = f := by
  induction f using unfold.induct with
  | case1 e s => cases s <;> first | rfl | cases h
  | case2 a ha =>
    rw [unfold.eq_2 a ha, Atom.orient_of_isPlain h]
  | case3 f ih => rw [unfold, ih h]
  | case4 c l r ihl ihr => rw [unfold, ihl h.1, ihr h.2]
  | case5 f => rw [unfold] <;> assumption

theorem removal?_of_isPlain (h : f.Every (·.isPlain = true)) : f.removal? = none := by
  cases f with
  | atom a => cases a <;> first | rfl | cases h
  | _ => rfl

theorem isSetRelation_of_isPlain (h : f.Every (·.isPlain = true)) : f.isSetRelation = false := by
  cases f with
  | atom a => cases a <;> first | rfl | cases h
  | _ => rfl

end Formula

namespace Sequent

variable {s : Sequent} {t : DecidabilityTable}

theorem substitute_of_isPlain (he : s.Every (·.isPlain = true)) : s.substitute.value = s := by
  refine substitute_induction (R := fun s r => s.Every (·.isPlain = true) → r = s)
    ?done ?drop ?eliminate s he
  case done => exact fun _ _ _ => rfl
  case drop =>
    intro s s' r h hw hf _ he
    rw [Formula.removal?_of_isPlain (hw.every.1 he).1] at hf
    cases hf
  case eliminate =>
    intro s s' r h x u hw hf _ he
    rw [Formula.removal?_of_isPlain (hw.every.1 he).1] at hf
    cases hf

theorem unfold_of_isPlain (he : s.Every (·.isPlain = true)) : s.unfold.value = s := by
  obtain ⟨hh, hg⟩ := every_iff.1 he
  have same (h : Hypothesis) (hm : h ∈ s.hypotheses) :
      { h with formula := h.formula.unfold } = id h := by
    rw [Formula.unfold_of_isPlain (hh h hm), id]
  have facts : s.hypotheses.map (fun h => { h with formula := h.formula.unfold }) = s.hypotheses :=
    (List.map_congr_left same).trans (List.map_id _)
  rw [unfold, value_mapFormulas]
  simp only [Noted.value_pure, facts, Formula.unfold_of_isPlain hg]

/-- Without set relations there is nothing to instantiate. -/
theorem instantiate_of_isPlain (he : s.Every (·.isPlain = true)) (stem : String) (maxRounds : Int) :
    (s.instantiate stem maxRounds).value = s := by
  obtain ⟨hh, hg⟩ := every_iff.1 he
  have open_eq : (s.openGoal stem).value = s := by
    rcases openGoal_cases stem s with ⟨_, h⟩ | ⟨a, g, ha, hi, _⟩
    · exact h
    · have := Formula.isSetRelation_of_isPlain hg
      rw [ha, Formula.isSetRelation, Atom.isSetRelation_of_instance hi] at this
      cases this
  have universals_eq : s.universals = [] :=
    List.filter_eq_nil_iff.2 fun h hm => by simp [Formula.isSetRelation_of_isPlain (hh h hm)]
  have ground_eq : s.ground = s := by
    have : s.hypotheses.filter (!·.formula.isSetRelation) = s.hypotheses :=
      List.filter_eq_self.2 fun h hm => by simp [Formula.isSetRelation_of_isPlain (hh h hm)]
    rw [ground, this]
    exact unfold_of_isPlain he
  have rounds (n : Nat) (done : List Term) : (instanceRounds [] n done s).value = s := by
    induction n generalizing done with
    | zero => rfl
    | succ n ih =>
      have : roundInstances [] done s = [] := rfl
      rw [value_instanceRounds_succ, this, List.append_nil, unfold_of_isPlain he, ih, ite_self]
  rw [value_instantiate, open_eq, universals_eq, ground_eq, rounds]

/-- On a plain sequent, what is left of the stages is the restriction to the fragment, the normal form
and excluded middle. -/
theorem prepare_of_isPlain {o : Options} (he : (s.classify o.table).value.Every (·.isPlain = true)) :
    (s.prepare o).value = ((((s.classify o.table).value.normalize o.table o.usePull).value).inject
      o.table).value := by
  simp only [prepare, Noted.value_bind, substitute_of_isPlain he, instantiate_of_isPlain he,
    substitute_of_isPlain (every_normalize he)]

theorem every_classify_of_every {P : Atom → Prop} (he : s.Every P) :
    (s.classify t).value.Every P := by
  obtain ⟨hh, hg⟩ := every_iff.1 (every_opened.2 he)
  rw [value_classify, every_iff]
  refine ⟨fun h hm => hh h (List.mem_filter.1 hm).1, ?_⟩
  dsimp only
  split
  · exact hg
  · trivial

theorem Asserted.classify (h : s.Asserted) : (s.classify t).value.Asserted := by
  rw [value_classify]
  exact fun g hg => h.opened g (List.mem_filter.1 hg).1

end Sequent

/-! ## Entailment -/

namespace Valuation

variable {H : Type*} [HeytingAlgebra H] {v : Valuation H} {t : DecidabilityTable} {s : Sequent}

/-- What lies below the hypotheses lies below the double negation of the goal. -/
def Entails (v : Valuation H) (s : Sequent) : Prop :=
  ∀ x, (∀ h ∈ s.hypotheses, x ≤ v.value h.formula) → x ≤ (v.value s.goal)ᶜᶜ

/-- Under a double negation, a premise of the goal is as good as a hypothesis. -/
theorem compl_compl_himp (a b : H) : (a ⇨ b)ᶜᶜ = a ⇨ bᶜᶜ := by
  rw [compl_compl_himp_distrib, himp_compl_comm, compl_compl_compl, himp_compl_comm]

theorem entails_of_introduce (hs : List Hypothesis) (goal : Formula)
    (h : v.Entails (Sequent.introduce hs goal).value) : v.Entails ⟨hs, goal⟩ := by
  have step {hs : List Hypothesis} {premise goal rest : Formula}
      (hg : (v.value goal)ᶜᶜ = v.value premise ⇨ (v.value rest)ᶜᶜ)
      (h : v.Entails ⟨hs ++ [Sequent.introduce.assume hs premise], rest⟩) :
      v.Entails ⟨hs, goal⟩ := by
    intro x hx
    rw [hg, le_himp_iff]
    refine h _ (List.forall_mem_append.2 ⟨fun h hm => ?_, List.forall_mem_singleton.2 inf_le_right⟩)
    exact inf_le_left.trans (hx h hm)
  induction hs, goal using Sequent.introduce.induct with
  | case1 hs premise goal =>
    rename_i ih
    rw [Sequent.introduce] at h
    exact step (compl_compl_himp _ _) (ih h)
  | case2 hs premise =>
    rw [Sequent.introduce] at h
    refine step ?_ h
    rw [value, value, ← compl_compl_himp, himp_bot]
  | case3 hs goal hi hn =>
    rw [Sequent.introduce] at h
    · exact h
    · exact hi
    · exact hn

theorem le_value_conjuncts {x : H} (f : Formula) :
    x ≤ v.value f ↔ ∀ g ∈ f.conjuncts, x ≤ v.value g := by
  induction f using Formula.conjuncts.induct with
  | case1 l r ihl ihr =>
    rw [Formula.conjuncts, List.forall_mem_append, ← ihl, ← ihr]
    exact le_inf_iff
  | case2 f hf =>
    rw [Formula.conjuncts, List.forall_mem_singleton]
    exact hf

/-- What is dropped only makes a sequent harder to prove. -/
theorem entails_of_classify (h : v.Entails (s.classify t).value) : v.Entails s := by
  have opened : v.Entails s.opened := by
    intro x hx
    rw [Sequent.value_classify] at h
    have hgoal := h x fun h hm => hx h (List.mem_filter.1 hm).1
    dsimp only at hgoal
    split at hgoal
    · exact hgoal
    · rw [value, compl_bot, compl_top] at hgoal
      exact hgoal.trans bot_le
  refine entails_of_introduce s.hypotheses s.goal fun x hx => opened x ?_
  exact List.forall_mem_flatMap.2 fun h hm => (h.forall_split le_value_conjuncts).2 (hx h hm)

theorem entails_normalize (hv : v.Respects t) {usePull : Bool} :
    v.Entails (s.normalize t usePull).value ↔ v.Entails s := by
  simp only [Entails, Sequent.normalize, Sequent.value_mapFormulas, List.forall_mem_map,
    value_normalize hv]

theorem value_excludedMiddle (hv : v.Respects t) {a : Atom} (ha : t.isDecidable (.atom a) = true) :
    v.value (Formula.excludedMiddle (.atom a)) = ⊤ := hv a ha

/-- What lies below the hypotheses and the negated goal forces the start of the search. -/
theorem forced_ofSequent {x : H} (hv : v.Respects t) (ha : s.Asserted)
    (he : s.Every (·.isPlain = true)) (hx : ∀ h ∈ s.hypotheses, x ≤ v.value h.formula) :
    (Search.Branch.ofSequent (s.inject t).value).Forced v (x ⊓ (v.value s.goal)ᶜ) := by
  have plain := (Sequent.every_iff.1 (Sequent.every_inject (t := t) Search.stable_isPlain.orient he)).1
  refine ⟨fun f hf => ?_, fun _ hf => (List.not_mem_nil hf).elim, fun f hf => ?_,
    fun _ ha => (List.not_mem_nil ha).elim, fun _ ha => (List.not_mem_nil ha).elim⟩
  · rcases Search.Branch.mem_pending_ofSequent.1 hf with ⟨h, hh, _, rfl⟩ | rfl
    · rcases Sequent.mem_injectAll hh with hm | ⟨a, _, hd, hform⟩
      · exact inf_le_left.trans (hx h hm)
      · rw [hform, value_excludedMiddle hv hd]
        exact le_top
    · exact inf_le_right
  · simp only [Search.Branch.front, Search.Branch.ofSequent, List.mem_eraseDups,
      List.mem_filterMap] at hf
    obtain ⟨h, hh, hf⟩ := hf
    obtain ⟨hi, l, r, hor, rfl⟩ := Search.Branch.formula_of_candidate? hf
    rcases Sequent.mem_injectAll hh with hm | ⟨a, _, hd, hform⟩
    -- A hypothesis of the sequent is not injected, so it offers no candidate.
    · rw [ha h hm] at hi
      cases hi
    · have hp := plain h hh
      rw [hform] at hor hp
      cases hor
      change Decided (v.atom a.orient)
      rw [Atom.orient_of_isPlain hp.1]
      exact hv a hd

/-- Only `⊥` is below the hypotheses and the negated goal of a sequent on which the search succeeds. -/
theorem entails_of_explores (hv : v.Respects t) (ha : s.Asserted) (he : s.Every (·.isPlain = true))
    {tree : ProofTree} {n : Nat} (h : Search.Explores t (.ofSequent (s.inject t).value) tree n)
    (hs : tree.isStuck = false) : v.Entails s := by
  intro x hx
  have plain := Search.Branch.every_ofSequent Search.stable_isPlain.orient
    (Sequent.every_inject (t := t) Search.stable_isPlain.orient he)
  rw [le_compl_iff_disjoint_right, disjoint_iff_inf_le]
  exact Search.le_bot_of_explores hv h hs plain (forced_ofSequent hv ha he hx)

/-- The meet of the values of formulas. -/
def meet (v : Valuation H) (fs : List Formula) : H := fs.foldr (v.value · ⊓ ·) ⊤

theorem meet_le {fs : List Formula} {f : Formula} (hf : f ∈ fs) : v.meet fs ≤ v.value f := by
  induction fs with
  | nil => cases hf
  | cons g fs ih =>
    rcases List.mem_cons.1 hf with rfl | hf
    · exact inf_le_left
    · exact inf_le_right.trans (ih hf)

end Valuation

namespace Sequent

variable {H : Type*} [HeytingAlgebra H] {v : Valuation H} {s : Sequent} {o : Options}

/-- **A proved sequent is constructively valid relative to the table.** Whatever the table and the
options are, if a sequent over predicates and memberships in variables or applications, without injected
hypotheses, is proved, then in every Heyting algebra in which excluded middle holds for the atoms that
the table calls decidable, the meet of the hypotheses lies below the double negation of the goal, and
below the goal itself if the table calls the goal decidable. -/
theorem decide_constructive (hv : v.Respects o.table) (asserted : s.Asserted)
    (plain : s.Every (·.isPlain = true)) (h : (s.decide o).verdict = .proved) :
    v.meet s.facts ≤ (v.value s.goal)ᶜᶜ ∧
      (o.table.isDecidable s.goal = true → v.meet s.facts ≤ v.value s.goal) := by
  have plain₁ : (s.classify o.table).value.Every (·.isPlain = true) := every_classify_of_every plain
  have entails : v.Entails s := by
    rcases decide_cases o s with ⟨tree, _, hr, hs, _⟩ | ⟨_, hn, _⟩
    · obtain ⟨n, hrun, _⟩ := Search.explores_of_search hr
      rw [prepare_of_isPlain plain₁] at hrun
      have searched : v.Entails ((s.classify o.table).value.normalize o.table o.usePull).value :=
        Valuation.entails_of_explores hv (asserted.classify.mapFormulas _ _) (every_normalize plain₁)
          hrun hs
      exact Valuation.entails_of_classify ((Valuation.entails_normalize hv).1 searched)
    · rw [h] at hn
      cases hn
  have below : v.meet s.facts ≤ (v.value s.goal)ᶜᶜ :=
    entails _ fun h hm => Valuation.meet_le (List.mem_map_of_mem hm)
  refine ⟨below, fun hd => ?_⟩
  rwa [(Valuation.decided_of_isDecidable hv hd).compl_compl] at below

/-- Membership is decidable, but not in `u`. -/
def exceptU : DecidabilityTable :=
  ({} : DecidabilityTable).register .mem fun
    | .mem _ (.var "u") => none
    | _ => some "mem_dec"

/-- On the chain `0 < 1 < 2 < 3`: membership in `u` lies in between, and nothing is in another set. -/
def middleU : Valuation (Fin 4) where
  atom
    | .mem _ (.var "u") => 1
    | _ => 0
  all _ _ := 0

/-- `x in u or not x in u`. -/
def middle : Formula := Formula.excludedMiddle (.atom (.mem (.var "x") (.var "u")))

/-- A decidable goal under a premise that is not. -/
def fromMiddle : Sequent where
  hypotheses := [{ name := "H", formula := .implies middle (.atom (.mem (.var "x") (.var "s"))) }]
  goal := .atom (.mem (.var "x") (.var "s"))

theorem respects_middleU : middleU.Respects exceptU := by
  have other (a : Atom) (ha : middleU.atom a = ⊥) : middleU.atom a ⊔ (middleU.atom a)ᶜ = ⊤ := by
    rw [ha]
    exact decided_bot
  intro a ha
  cases a with
  | mem e s =>
    cases s with
    | var y =>
      by_cases hy : y = "u"
      · subst hy
        cases ha
      · refine other _ ?_
        simp only [middleU]
        split
        · rename_i h
          cases h
          exact absurd rfl hy
        · rfl
    | _ => exact other _ rfl
  | _ => cases ha

theorem verdict_fromMiddle : (fromMiddle.decide { table := exceptU }).verdict = .proved :=
  verdict_of_closed rfl ⟨_, _, by cbv⟩

theorem verdict_middle : (Sequent.decide { table := exceptU } ⟨[], middle⟩).verdict = .proved :=
  verdict_of_closed rfl ⟨_, _, by cbv⟩

theorem decide_constructive_middle :
    middleU.Respects exceptU ∧ middleU.value middle ≠ ⊤ ∧
      (fromMiddle.Asserted ∧ fromMiddle.Every (·.isPlain = true)) ∧
      (fromMiddle.decide { table := exceptU }).verdict = .proved ∧
      exceptU.isDecidable fromMiddle.goal = true ∧
      middleU.meet fromMiddle.facts ≤ middleU.value fromMiddle.goal ∧
      (Sequent.decide { table := exceptU } ⟨[], middle⟩).verdict = .proved ∧
      middleU.meet [] ≤ (middleU.value middle)ᶜᶜ := by
  have asserted : fromMiddle.Asserted := fun _ h => by rw [List.mem_singleton.1 h]
  have plain : fromMiddle.Every (·.isPlain = true) :=
    every_iff.2 ⟨List.forall_mem_singleton.2 ⟨⟨rfl, rfl⟩, rfl⟩, rfl⟩
  have decidable : exceptU.isDecidable fromMiddle.goal = true := by cbv
  have proved := decide_constructive respects_middleU asserted plain verdict_fromMiddle
  have plain' : Every (·.isPlain = true) ⟨[], middle⟩ :=
    every_iff.2 ⟨fun _ h => (List.not_mem_nil h).elim, rfl, rfl⟩
  have proved' := decide_constructive respects_middleU (fun _ h => (List.not_mem_nil h).elim) plain'
    verdict_middle
  exact ⟨respects_middleU, by decide, ⟨asserted, plain⟩, verdict_fromMiddle, decidable,
    proved.2 decidable, verdict_middle, proved'.1⟩

end Sequent

end SetSequent
