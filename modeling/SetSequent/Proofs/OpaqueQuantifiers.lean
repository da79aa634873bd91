import Mathlib
import SetSequent.Proofs.BranchModels
import SetSequent.Proofs.Definedness

/-!
# The search on formulas with quantifiers

The search never opens a quantifier. A quantified part is no literal and is not evaluated, it may get
names captured when a variable is replaced, and no branch is closed because of it. So a formula is
judged by its surface: a quantified part has no value, and a compound formula has one if its other
parts decide it. What the search refutes is refuted on the surface.

* `Interpretation.surface` — the value on the surface, in three-valued logic.
* `truth_of_surface` — it is the truth, where there is one.
* `surface_eliminate`, `surface_pushStep`, `surface_simplify`, `surface_cases?`, `surface_literal?` — the
  rules of the search keep it. No formula is asked to be free of quantifiers.
* `Front.Allows` — nothing on a front is false on the surface; `allows_of_next` says that steps keep
  this, `not_allows_of_explores` that it never holds where the search closes.
* `refute_sound` — what the search refutes has no countermodel, on every sequent.
-/

namespace SetSequent

/-! ## Three values -/

namespace Connective

/-- The value of a compound formula whose parts may have none: the one that every choice of values for
the parts without a value leads to. -/
def combine? (c : Connective) : Option Bool → Option Bool → Option Bool
  | some a, some b => some (c.combine a b)
  | some a, none => if c.combine a true = c.combine a false then some (c.combine a true) else none
  | none, some b => if c.combine true b = c.combine false b then some (c.combine true b) else none
  | none, none => none

theorem combine?_some_left (c : Connective) (a : Bool) (v : Option Bool) :
    c.combine? (some a) v =
      if c.combine a true = c.combine a false then some (c.combine a true)
      else v.map fun b => c.combine a b := by
  cases c <;> revert a v <;> decide

theorem combine?_some_right (c : Connective) (u : Option Bool) (b : Bool) :
    c.combine? u (some b) =
      if c.combine true b = c.combine false b then some (c.combine true b)
      else u.map fun a => c.combine a b := by
  cases c <;> revert u b <;> decide

/-- What is decided stays so when the parts without a value get one. -/
theorem combine_of_combine? {c : Connective} {u v : Option Bool} {a b r : Bool}
    (ha : ∀ x, u = some x → a = x) (hb : ∀ x, v = some x → b = x) (h : c.combine? u v = some r) :
    c.combine a b = r := by
  rcases u with _ | u
  · rcases v with _ | v
    · cases h
    · obtain rfl := hb v rfl
      revert h
      cases c <;> revert a b r <;> decide
  · obtain rfl := ha u rfl
    rcases v with _ | v
    · revert h
      clear ha hb
      cases c <;> revert a b r <;> decide
    · obtain rfl := hb v rfl
      exact Option.some.inj h

end Connective

namespace Model.Interpretation

/-- The truth of a formula as far as it shows without a look under the quantifiers. -/
def surface (I : Interpretation) : Formula → Option Bool
  | .top => some true
  | .bot => some false
  | .atom a => some (I.truthAtom a)
  | .not f => (I.surface f).map (!·)
  | .connect c l r => c.combine? (I.surface l) (I.surface r)
  | .all .. => none

variable {I : Interpretation} {t : DecidabilityTable}

theorem truth_of_surface {f : Formula} {b : Bool} (h : I.surface f = some b) : I.truth f = b := by
  induction f generalizing b with
  | top | bot | atom => simpa [surface, truth] using h
  | not f ih =>
    obtain ⟨v, hv, rfl⟩ := Option.map_eq_some_iff.1 h
    rw [truth, ih hv]
  | connect c l r ihl ihr => exact Connective.combine_of_combine? (fun _ => ihl) (fun _ => ihr) h
  | all => cases h

/-- A formula without quantifiers is all surface. -/
theorem surface_of_every {f : Formula} (hf : f.Every fun _ => True) :
    I.surface f = some (I.truth f) := by
  induction f with
  | top | bot | atom => rfl
  | not f ih => simp [surface, truth, ih hf]
  | connect c l r ihl ihr => simp [surface, truth, ihl hf.1, ihr hf.2, Connective.combine?]
  | all => exact hf.elim

/-! ## The rules of the search -/

theorem surface_unfold (f : Formula) : I.surface f.unfold = I.surface f := by
  induction f with
  | top | bot | all => rfl
  | atom a => rw [surface_of_every (Formula.every_unfold_atom a), truth_unfold]; rfl
  | not f ih => simp only [Formula.unfold, surface, ih]
  | connect c l r ihl ihr => simp only [Formula.unfold, surface, ihl, ihr]

/-- Elimination of a variable by a term of its value keeps the surface, whatever is captured below
the quantifiers. -/
theorem surface_eliminate {x : String} {r : Term} (h : I.denote x = I.value r) (f : Formula) :
    I.surface (f.eliminate x r) = I.surface f := by
  rw [Formula.eliminate, surface_unfold]
  induction f with
  | top | bot => rfl
  | atom a => simp only [Formula.subst, surface, truthAtom_subst h]
  | not f ih => simp only [Formula.subst, surface, ih]
  | connect c l r ihl ihr => simp only [Formula.subst, surface, ihl, ihr]
  | all y f =>
    rw [Formula.subst]
    split <;> rfl

theorem surface_pushRule? {f : Formula} {r : NegationRule} (h : f.pushRule? = some r) :
    I.surface r.result = I.surface f := by
  unfold Formula.pushRule? at h
  split at h <;> cases h
  case h_1 | h_2 => rfl
  case h_3 a => simp [surface, Function.comp_def]
  all_goals
    rename_i a b
    simp only [surface]
    cases I.surface a <;> cases I.surface b <;> simp [Connective.combine?, Connective.combine] <;> grind

theorem surface_pushStep {f g : Formula} (h : (f.pushStep t).value = some g) :
    I.surface g = I.surface f := by
  obtain ⟨r, hr, _, rfl⟩ := NegationRule.value_fire?.1 h
  exact surface_pushRule? hr

theorem surface_fold (c : Connective) (l r : Formula) :
    I.surface (Formula.fold c l r) = c.combine? (I.surface l) (I.surface r) := by
  cases c <;>
    simp only [Formula.fold, Formula.foldAnd, Formula.foldOr, Formula.foldImplies,
      Formula.foldIff] <;>
    split <;>
    simp [surface, Connective.combine?_some_left, Connective.combine?_some_right,
      Connective.combine]

/-- Evaluation under true and false atoms keeps the surface. -/
theorem surface_simplify {trues falses : List Atom} (ht : ∀ a ∈ trues, I.truthAtom a = true)
    (hf : ∀ a ∈ falses, I.truthAtom a = false) (f : Formula) :
    I.surface (f.simplify trues falses) = I.surface f := by
  induction f with
  | top | bot | all => rfl
  | atom a =>
    have every : (Formula.simplify trues falses (.atom a)).Every fun _ => True :=
      Formula.every_simplify trivial fun _ _ => trivial
    rw [surface_of_every every, truth_simplify ht hf]
    rfl
  | not f ih =>
    rw [Formula.simplify, surface, ← ih]
    cases f.simplify trues falses <;> rfl
  | connect c l r ihl ihr => rw [Formula.simplify, surface_fold, ihl, ihr, surface]

/-- A disjunctive formula is false on the surface only if both of its cases are. -/
theorem surface_cases? {f a b : Formula} (h : f.cases? = some (a, b)) :
    I.surface f = Connective.or.combine? (I.surface a) (I.surface b) := by
  unfold Formula.cases? at h
  split at h <;> cases h
  · rfl
  all_goals
    rename_i l r
    simp only [surface]
    cases I.surface l <;> cases I.surface r <;> simp [Connective.combine?, Connective.combine] <;> grind

theorem surface_literal? {f : Formula} {a : Atom} {positive : Bool}
    (h : f.literal? = some (a, positive)) : I.surface f = some (I.truthAtom a == positive) := by
  unfold Formula.literal? at h
  split at h <;> cases h <;> simp [surface]

/-- Not false on the surface: some reading of the quantified parts makes the formula true. -/
def Allows (I : Interpretation) (f : Formula) : Prop := I.surface f ≠ some false

theorem allows_of_truth {f : Formula} (h : I.truth f = true) : I.Allows f := by
  intro hf
  rw [truth_of_surface hf] at h
  cases h

theorem allows_and {l r : Formula} : I.Allows (.and l r) ↔ I.Allows l ∧ I.Allows r := by
  simp only [Allows, surface]
  cases I.surface l <;> cases I.surface r <;> simp [Connective.combine?, Connective.combine]

theorem allows_or_allows_not (f : Formula) : I.Allows f ∨ I.Allows (.not f) := by
  simp only [Allows, surface]
  cases I.surface f <;> simp

/-- One case of an allowed formula is allowed. -/
theorem allows_cases? {f a b : Formula} (h : f.cases? = some (a, b)) (hf : I.Allows f) :
    I.Allows a ∨ I.Allows b := by
  simp only [Allows, surface_cases? h] at hf ⊢
  revert hf
  cases I.surface a <;> cases I.surface b <;> simp [Connective.combine?, Connective.combine]
  grind

theorem allows_literal? {f : Formula} {a : Atom} {positive : Bool}
    (h : f.literal? = some (a, positive)) : I.Allows f ↔ I.truthAtom a = positive := by
  simp [Allows, surface_literal? h]

end Model.Interpretation

/-! ## Propagation -/

namespace Search

open Model

namespace Front

/-- No formula in use is false on the surface, and the literals are right. -/
structure Allows (I : Interpretation) (s : Front) : Prop where
  queue : ∀ f ∈ s.queue, I.Allows f
  residual : ∀ f ∈ s.residual, I.Allows f
  trues : ∀ a ∈ s.trues, I.truthAtom a = true
  falses : ∀ a ∈ s.falses, I.truthAtom a = false

variable {I : Interpretation} {t : DecidabilityTable} {s s' : Front}

theorem allows_cons {f : Formula} : (s.cons f).Allows I ↔ I.Allows f ∧ s.Allows I := by
  constructor
  · rintro ⟨hq, hr, ht, hf⟩
    simp only [cons, List.mem_cons, forall_eq_or_imp] at hq
    exact ⟨hq.1, hq.2, hr, ht, hf⟩
  · rintro ⟨h, hq, hr, ht, hf⟩
    exact ⟨by simpa [cons] using ⟨h, hq⟩, hr, ht, hf⟩

theorem allows_eliminate (h : s.Allows I) {x : String} {r : Term} (hx : I.denote x = I.value r) :
    (s.eliminate x r).Allows I := by
  refine ⟨fun f hf => ?_, fun f hf => (List.not_mem_nil hf).elim, fun a ha => (List.not_mem_nil ha).elim,
    fun a ha => (List.not_mem_nil ha).elim⟩
  obtain ⟨g, hg, rfl⟩ := List.mem_map.1 hf
  rw [Interpretation.Allows, Interpretation.surface_eliminate hx]
  rcases List.mem_append.1 hg with hg | hg
  · rcases List.mem_append.1 hg with hg | hg
    · exact h.queue g hg
    · exact h.residual g hg
  · exact Interpretation.allows_of_truth (models_knownFacts.2 ⟨h.trues, h.falses⟩ g hg)

/-- What is learned from a right literal. -/
theorem allows_of_learns {a : Atom} {positive : Bool} (h : s.Learns a positive (.next s'))
    (ha : I.truthAtom a = positive) (hs : s.Allows I) : s'.Allows I := by
  cases h with
  | reflexive | known | knownFalse => exact hs
  | eliminated he => exact allows_eliminate hs ((truthAtom_iff_of_elimination? he).1 ha)
  | asserted =>
    refine ⟨hs.queue, hs.residual, ?_, hs.falses⟩
    simp only [List.mem_append, List.mem_singleton]
    grind [hs.trues]
  | denied =>
    refine ⟨hs.queue, hs.residual, hs.trues, ?_⟩
    simp only [List.mem_append, List.mem_singleton]
    grind [hs.falses]

theorem allows_takeCompound {f : Formula} (hf : I.Allows f) (hs : s.Allows I) :
    (s.takeCompound t f).value.Allows I := by
  unfold takeCompound
  split
  · obtain ⟨hl, hr⟩ := Interpretation.allows_and.1 hf
    exact allows_cons.2 ⟨hl, allows_cons.2 ⟨hr, hs⟩⟩
  · simp only [Noted.value_bind]
    split
    · rename_i g hg
      exact allows_cons.2 ⟨by rwa [Interpretation.Allows, Interpretation.surface_pushStep hg], hs⟩
    · refine ⟨hs.queue, ?_, hs.trues, hs.falses⟩
      simp only [Noted.value_pure, List.mem_append, List.mem_singleton]
      grind [hs.residual]

theorem allows_simplify {f : Formula} (hs : s.Allows I) :
    I.Allows (f.simplify s.trues s.falses) ↔ I.Allows f := by
  rw [Interpretation.Allows, Interpretation.surface_simplify hs.trues hs.falses, Interpretation.Allows]

theorem allows_of_takes {f : Formula} (h : s.Takes t f (.next s')) (hf : I.Allows f)
    (hs : s.Allows I) : s'.Allows I := by
  cases h with
  | literal hl hn => exact allows_of_learns hn ((Interpretation.allows_literal? hl).1 hf) hs
  | holds => exact hs
  | evaluated hl hn =>
    exact allows_of_learns hn ((Interpretation.allows_literal? hl).1 ((allows_simplify hs).2 hf)) hs
  | compound => exact allows_takeCompound ((allows_simplify hs).2 hf) hs

theorem not_allows_of_takes {f : Formula} {leaf : Inference} (h : s.Takes t f (.closed leaf))
    (hs : s.Allows I) : ¬ I.Allows f := by
  intro hf
  cases h with
  | literal hl hc =>
    exact truthAtom_ne_of_learns hc hs.trues hs.falses ((Interpretation.allows_literal? hl).1 hf)
  | falsity hb =>
    rw [← allows_simplify hs, hb] at hf
    exact hf rfl
  | evaluated hl hc =>
    rw [← allows_simplify hs] at hf
    exact truthAtom_ne_of_learns hc hs.trues hs.falses ((Interpretation.allows_literal? hl).1 hf)

/-- **A step keeps what is allowed.** -/
theorem allows_of_next (h : (s.step t).value = .next s') (hs : s.Allows I) : s'.Allows I := by
  have hstep := s.steps_step t
  rw [h] at hstep
  cases hstep with
  | take hq hf =>
    rw [eq_cons_of_queue hq] at hs
    exact allows_of_takes hf (allows_cons.1 hs).1 (allows_cons.1 hs).2
  | refill hq => exact ⟨hs.residual, fun _ h => (List.not_mem_nil h).elim, hs.trues, hs.falses⟩

theorem not_allows_of_closed_step {leaf : Inference} (h : (s.step t).value = .closed leaf) :
    ¬ s.Allows I := by
  intro hs
  have hstep := s.steps_step t
  rw [h] at hstep
  cases hstep with
  | take hq hf =>
    rw [eq_cons_of_queue hq] at hs
    exact not_allows_of_takes hf (allows_cons.1 hs).2 (allows_cons.1 hs).1

theorem not_allows_of_closed {leaf : Inference} {substitutions : List (String × Term)}
    (h : (s.run t).value = .closed leaf substitutions) : ¬ s.Allows I := by
  refine closed_induction (R := fun s _ => ¬ s.Allows I) ?close ?next h
  case close => exact fun s leaf hc => not_allows_of_closed_step hc
  case next => exact fun s s' leaf hn ih hs => ih (allows_of_next hn hs)

theorem allows_of_settled {b : Branch} {substitutions : List (String × Term)}
    (h : (s.run t).value = .settled b substitutions) (hs : s.Allows I) : b.front.Allows I := by
  refine settled_induction (R := fun s b => s.Allows I → b.front.Allows I) ?settle ?next h hs
  case settle =>
    intro s _ hs
    exact ⟨hs.residual, fun _ h => (List.not_mem_nil h).elim, hs.trues, hs.falses⟩
  case next => exact fun s s' b hn ih hs => ih (allows_of_next hn hs)

end Front

/-! ## Splits -/

/-- One case of a split is allowed if the branch is. -/
theorem Branch.allows_split {I : Interpretation} {t : DecidabilityTable} {b : Branch} {s : Split}
    (h : (b.split t).value = some s) (hb : b.front.Allows I) :
    (s.rest.assume s.first).front.Allows I ∨ (s.rest.assume s.second).front.Allows I := by
  have assume {c : Branch} {f : Formula} (hf : I.Allows f) (hc : c.front.Allows I) :
      (c.assume f).front.Allows I :=
    Front.allows_cons.2 ⟨hf, hc⟩
  unfold split at h
  split at h
  · rename_i c _
    simp only [Noted.value_pure, Option.some.injEq] at h
    subst h
    -- A candidate may have quantifiers too, but it is true or false.
    exact (Interpretation.allows_or_allows_not c).imp (assume · ⟨hb.queue, hb.residual, hb.trues, hb.falses⟩)
      (assume · ⟨hb.queue, hb.residual, hb.trues, hb.falses⟩)
  · simp only [Noted.value_bind, Noted.value_pure, Option.map_eq_some_iff] at h
    obtain ⟨⟨f, l, r, others⟩, hf, rfl⟩ := h
    have hm := mem_of_findCases hf
    have rest : (b.formulaSplit f l r others).rest.front.Allows I :=
      ⟨fun g hg => hb.queue g ((hm g).2 (.inr hg)), hb.residual, hb.trues, hb.falses⟩
    exact (Interpretation.allows_cases? (findCases_spec hf).1 (hb.queue f ((hm f).2 (.inl rfl)))).imp
      (assume · rest) (assume · rest)

/-- **A branch whose run is not stuck is not allowed.** -/
theorem not_allows_of_explores {I : Interpretation} {t : DecidabilityTable} {b : Branch}
    {tree : ProofTree} {n : Nat} (h : Explores t b tree n) (hs : tree.isStuck = false) :
    ¬ b.front.Allows I := by
  induction h with
  | closed hp => exact Front.not_allows_of_closed hp
  | stuck _ _ => cases hs
  | first _ _ _ hstuck _ => rw [hs] at hstuck; cases hstuck
  | second _ _ _ _ _ hstuck _ _ => rw [hs] at hstuck; cases hstuck
  | both hp hc _ h₁ _ h₂ ih₁ ih₂ =>
    intro hb
    rcases Branch.allows_split hc (Front.allows_of_settled hp hb) with hb | hb
    · exact ih₁ h₁ hb
    · exact ih₂ h₂ hb

theorem allows_ofSequent {I : Interpretation} {s : Sequent}
    (hyps : ∀ h ∈ s.hypotheses, candidate? h = none → I.truth h.formula = true)
    (goal : I.truth s.goal = false) : (Branch.ofSequent s).front.Allows I := by
  refine ⟨fun f hf => ?_, fun _ hf => (List.not_mem_nil hf).elim, fun _ ha => (List.not_mem_nil ha).elim,
    fun _ ha => (List.not_mem_nil ha).elim⟩
  refine Interpretation.allows_of_truth ?_
  rcases Branch.mem_pending_ofSequent.1 hf with ⟨h, hh, hc, rfl⟩ | rfl
  · exact hyps h hh hc
  · simp [Interpretation.truth, goal]

/-- **What the search refutes is valid.** The sequent need not be prepared: sets may be compound, set
relations and quantifiers may stand anywhere, and any hypotheses may be marked as injected. Whatever
the table and the budget are, if the search returns a tree that is not stuck, then an interpretation
in which the hypotheses hold does not make the goal false, and the goal holds if it has a truth value
at all. An injected disjunction, which only offers a case distinction, need not even hold. -/
theorem refute_sound {I : Interpretation} {t : DecidabilityTable} {limit : Option Int} {s : Sequent}
    {tree : ProofTree} (h : (refute t limit s).result = .ok tree) (hs : tree.isStuck = false)
    (hyps : ∀ h ∈ s.hypotheses, candidate? h = none → I.holds h.formula = .ok true) :
    I.holds s.goal ≠ .ok false ∧ (I.Interprets s.goal → I.holds s.goal = .ok true) := by
  have hgoal : I.truth s.goal ≠ false := by
    intro hg
    obtain ⟨n, hn, _⟩ := explores_of_search h
    exact not_allows_of_explores hn hs
      (allows_ofSequent (fun h hh hc => Interpretation.truth_of_holds (hyps h hh hc)) hg)
  refine ⟨fun hf => hgoal (Interpretation.truth_of_holds hf), fun hi => ?_⟩
  rw [Interpretation.holds_of_interprets hi, Bool.ne_false_iff.1 hgoal]

/-- A sequent that no stage has prepared: a membership in a difference, quantifiers below connectives,
and an injected disjunction. -/
def unprepared : Sequent where
  hypotheses :=
    [{ name := "Q", formula := .not (.all "y" (.atom (.mem (.var "y") (.var "s")))) },
      { name := "K", formula := .atom (.mem (.var "x") (.diff (.var "s") (.var "t"))) },
      { name := "D", formula := .or (.atom (.mem (.var "x") (.var "t"))) .bot, injected := true }]
  goal :=
    .or (.atom (.mem (.var "x") (.diff (.var "s") (.var "t"))))
      (.all "y" (.atom (.mem (.var "y") (.var "t"))))

/-- `x` is `0`, `s` holds `0`, and `t` holds `1`. The injected disjunction of `unprepared` is false. -/
def unpreparedModel : Interpretation where
  domain := [0, 1]
  elements := [("x", 0)]
  sets := [("s", .ofInts [0]), ("t", .ofInts [1])]

theorem refute_unprepared :
    ∃ tree, (refute .standard (some 3) unprepared).result = .ok tree ∧ tree.isStuck = false := by
  have closes : ∃ leaf substitutions,
      (propagate .standard (.ofSequent unprepared)).value = .closed leaf substitutions ∧
        (underSubstitutions substitutions (.leaf leaf)).isStuck = false :=
    ⟨_, _, by cbv, rfl⟩
  obtain ⟨leaf, substitutions, hp, hs⟩ := closes
  exact ⟨_, by rw [refute, search_of_closed hp], hs⟩

theorem refute_sound_unprepared :
    (∃ tree, (refute .standard (some 3) unprepared).result = .ok tree ∧ tree.isStuck = false) ∧
      (∀ h ∈ unprepared.hypotheses, candidate? h = none →
        unpreparedModel.holds h.formula = .ok true) ∧
      unpreparedModel.Interprets unprepared.goal ∧ unpreparedModel.holds unprepared.goal = .ok true := by
  have sets (x : String) (hx : x = "s" ∨ x = "t") :
      ∃ v, unpreparedModel.sets.lookup x = some v ∧ v.isSet = true := by
    rcases hx with rfl | rfl <;> exact ⟨_, rfl, rfl⟩
  have hyps : ∀ h ∈ unprepared.hypotheses, candidate? h = none →
      unpreparedModel.holds h.formula = .ok true := by
    intro h hh hc
    simp only [unprepared, List.mem_cons, List.not_mem_nil, or_false] at hh
    rcases hh with rfl | rfl | rfl
    · rfl
    · rfl
    · cases hc
  have interprets : unpreparedModel.Interprets unprepared.goal := by
    refine ⟨fun x hx => ?_, fun g args hm => ?_, fun p args hm => ?_, fun u hu x hx => ?_,
      fun u hu g hg => ?_⟩
    · obtain rfl | rfl | rfl : x = "x" ∨ x = "s" ∨ x = "t" := by revert x; decide
      · exact ⟨_, rfl⟩
      · exact ⟨_, rfl⟩
      · exact ⟨_, rfl⟩
    · simp [Formula.terms, unprepared, Formula.atoms, Atom.args, Term.listSubterms, Term.subterms] at hm
    · simp [unprepared, Formula.atoms] at hm
    · exact sets x (by revert x; revert u; decide)
    · have none : ∀ u ∈ unprepared.goal.setPositions, u.setFunctions = [] := by decide
      rw [none u hu] at hg
      cases hg
  obtain ⟨tree, hr, hs⟩ := refute_unprepared
  exact ⟨⟨tree, hr, hs⟩, hyps, interprets, (refute_sound hr hs hyps).2 interprets⟩

end Search

end SetSequent
