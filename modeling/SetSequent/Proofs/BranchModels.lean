import SetSequent.Proofs.SearchRun
import SetSequent.Proofs.TruthRules

/-!
# Models of branches

An interpretation is a model of a branch if what is pending is true in it and its literals are right.
Steps of propagation and splits are judged by the models they keep.

* `Front.Models`, `Branch.Models` — the models of a front and of a branch.
* `Front.Every`, `Branch.Every` — every atom of a front has a property; `Stable` says that
  propagation keeps it.
* `models_step` — a step keeps the models exactly, or it replaces a variable and keeps those in which
  the variable has the value of its replacement.
* `not_models_of_closed` — a front on which propagation closes has no model.
* `models_split` — a model of a branch is a model of one of its cases, and conversely.
-/

namespace SetSequent.Search

open Model

/-! ## Models -/

namespace Front

def Models (I : Interpretation) (s : Front) : Prop :=
  (∀ f ∈ s.queue, I.truth f = true) ∧ (∀ f ∈ s.residual, I.truth f = true) ∧
    (∀ a ∈ s.trues, I.truthAtom a = true) ∧ ∀ a ∈ s.falses, I.truthAtom a = false

variable {I : Interpretation} {t : DecidabilityTable} {s s' : Front}

theorem models_cons {f : Formula} : (s.cons f).Models I ↔ I.truth f = true ∧ s.Models I := by
  simp only [Models, cons, List.mem_cons, forall_eq_or_imp, and_assoc]

theorem models_knownFacts :
    (∀ f ∈ s.knownFacts, I.truth f = true) ↔
      (∀ a ∈ s.trues, I.truthAtom a = true) ∧ ∀ a ∈ s.falses, I.truthAtom a = false := by
  simp only [knownFacts, List.mem_append, List.mem_map, mem_sorted]
  constructor
  · intro h
    refine ⟨fun a ha => h _ (.inl ⟨a, ha, rfl⟩), fun a ha => ?_⟩
    simpa [Interpretation.truth] using h _ (.inr ⟨_, ⟨a, ha, rfl⟩, rfl⟩)
  · rintro ⟨ht, hf⟩ f (⟨a, ha, rfl⟩ | ⟨_, ⟨a, ha, rfl⟩, rfl⟩)
    · exact ht a ha
    · simpa [Interpretation.truth] using hf a ha

/-- What a true atom says, if a variable can be eliminated by it. -/
theorem truthAtom_iff_of_elimination? {a : Atom} {x : String} {r : Term}
    (h : elimination? a = some (x, r)) : I.truthAtom a = true ↔ I.denote x = I.value r := by
  unfold elimination? at h
  split at h
  · rw [Interpretation.truthAtom_eq, beq_iff_eq]
    obtain ⟨⟨h₁, h₂⟩ | ⟨h₁, h₂⟩, _⟩ := Equation.eq_of_elimination? h
    all_goals
      simp only at h₁ h₂
      subst h₁ h₂
    · exact eq_comm
    · rfl
  · cases h

/-! ## Properties of all atoms -/

/-- No formula of the front has a quantifier, and every atom satisfies `P`. -/
structure Every (P : Atom → Prop) (s : Front) : Prop where
  queue : ∀ f ∈ s.queue, f.Every P
  residual : ∀ f ∈ s.residual, f.Every P
  candidates : ∀ f ∈ s.candidates, f.Every P
  trues : ∀ a ∈ s.trues, P a
  falses : ∀ a ∈ s.falses, P a

end Front

/-- A property of atoms that orientation keeps, and the elimination of a variable by a true atom. -/
structure Stable (P : Atom → Prop) : Prop where
  orient : ∀ a, P a → P a.orient
  eliminate : ∀ a x r, P a → Front.elimination? a = some (x, r) →
    ∀ b, P b → ((Formula.atom b).eliminate x r).Every P

theorem stable_true : Stable fun _ => True :=
  ⟨fun _ _ => trivial, fun _ _ _ _ _ _ _ => Formula.every_eliminate_true trivial⟩

namespace Front

variable {I : Interpretation} {t : DecidabilityTable} {s s' : Front} {P : Atom → Prop}

theorem every_cons {f : Formula} : (s.cons f).Every P ↔ f.Every P ∧ s.Every P := by
  constructor
  · rintro ⟨hq, hr, hc, ht, hf⟩
    simp only [cons, List.mem_cons, forall_eq_or_imp] at hq
    exact ⟨hq.1, hq.2, hr, hc, ht, hf⟩
  · rintro ⟨h, hq, hr, hc, ht, hf⟩
    exact ⟨by simpa [cons] using ⟨h, hq⟩, hr, hc, ht, hf⟩

theorem Every.imp {Q : Atom → Prop} (h : s.Every P) (hq : ∀ a, P a → Q a) : s.Every Q :=
  ⟨fun f hf => (h.queue f hf).imp hq, fun f hf => (h.residual f hf).imp hq,
    fun f hf => (h.candidates f hf).imp hq, fun a ha => hq a (h.trues a ha),
    fun a ha => hq a (h.falses a ha)⟩

theorem Every.knownFacts (h : s.Every P) : ∀ f ∈ s.knownFacts, f.Every P := by
  intro f hf
  simp only [Front.knownFacts, List.mem_append, List.mem_map, mem_sorted] at hf
  rcases hf with ⟨a, ha, rfl⟩ | ⟨_, ⟨a, ha, rfl⟩, rfl⟩
  · exact h.trues a ha
  · exact h.falses a ha

theorem Every.eliminate (h : s.Every P) (ho : ∀ a, P a → P a.orient) {x : String} {r : Term}
    (hx : ∀ b, P b → ((Formula.atom b).eliminate x r).Every P) : (s.eliminate x r).Every P := by
  refine ⟨fun f hf => ?_, fun f hf => (List.not_mem_nil hf).elim, fun f hf => ?_,
    fun a ha => (List.not_mem_nil ha).elim, fun a ha => (List.not_mem_nil ha).elim⟩
  · obtain ⟨g, hg, rfl⟩ := List.mem_map.1 hf
    refine Formula.every_eliminate ?_ hx
    rcases List.mem_append.1 hg with hg | hg
    · rcases List.mem_append.1 hg with hg | hg
      · exact h.queue g hg
      · exact h.residual g hg
    · exact h.knownFacts g hg
  · simp only [Front.eliminate, eliminateCandidates, List.mem_eraseDups, List.mem_map] at hf
    obtain ⟨g, hg, rfl⟩ := hf
    exact Formula.every_orient (Formula.every_eliminate (h.candidates g hg) hx) ho

/-- Elimination of a variable keeps the models in which it has the value of its replacement. -/
theorem models_eliminate (h : s.Every fun _ => True) {x : String} {r : Term}
    (hx : I.denote x = I.value r) : (s.eliminate x r).Models I ↔ s.Models I := by
  have known : (∀ f ∈ s.queue ++ s.residual ++ s.knownFacts, I.truth (f.eliminate x r) = true) ↔
      ∀ f ∈ s.queue ++ s.residual ++ s.knownFacts, I.truth f = true := by
    refine forall₂_congr fun f hf => ?_
    rw [Interpretation.truth_eliminate hx]
    simp only [List.mem_append] at hf
    rcases hf with (hf | hf) | hf
    · exact h.queue f hf
    · exact h.residual f hf
    · exact h.knownFacts f hf
  simp only [List.mem_append, or_imp, forall_and, models_knownFacts] at known
  simpa [Models, Front.eliminate, or_imp, forall_and, and_assoc, models_knownFacts] using known

/-! ## Literals -/

/-- What is learned from a literal: the models of the front in which the literal is right, unless a
variable is eliminated. -/
theorem models_of_learns {a : Atom} {positive : Bool} (h : s.Learns a positive (.next s')) :
    (∃ x r, positive = true ∧ elimination? a = some (x, r) ∧ s' = s.eliminate x r) ∨
      (∀ I, s'.Models I ↔ I.truthAtom a = positive ∧ s.Models I) ∧
        (∀ P, P a → s.Every P → s'.Every P) := by
  have drop (hs : ∀ I, s.Models I → I.truthAtom a = positive) :
      (∀ I, s.Models I ↔ I.truthAtom a = positive ∧ s.Models I) ∧
        (∀ P, P a → s.Every P → s.Every P) :=
    ⟨fun I => ⟨fun hm => ⟨hs I hm, hm⟩, fun hm => hm.2⟩, fun P _ h => h⟩
  cases h with
  | reflexive hr => exact .inr (drop fun I _ => Interpretation.truthAtom_of_isReflexive hr)
  | known ht => exact .inr (drop fun I hm => hm.2.2.1 a ht)
  | eliminated he => exact .inl ⟨_, _, rfl, he, rfl⟩
  | asserted =>
    refine .inr ⟨fun I => ?_, fun P ha hs => ⟨hs.queue, hs.residual, hs.candidates, ?_, hs.falses⟩⟩
    · simp only [Models, List.mem_append, List.mem_singleton]
      grind
    · simp only [List.mem_append, List.mem_singleton]
      grind [hs.trues]
  | knownFalse hf => exact .inr (drop fun I hm => hm.2.2.2 a hf)
  | denied =>
    refine .inr ⟨fun I => ?_, fun P ha hs => ⟨hs.queue, hs.residual, hs.candidates, hs.trues, ?_⟩⟩
    · simp only [Models, List.mem_append, List.mem_singleton]
      grind
    · simp only [List.mem_append, List.mem_singleton]
      grind [hs.falses]

/-- No right literal closes a front whose literals are right. -/
theorem truthAtom_ne_of_learns {a : Atom} {positive : Bool} {leaf : Inference}
    (h : s.Learns a positive (.closed leaf)) (ht : ∀ a ∈ s.trues, I.truthAtom a = true)
    (hf : ∀ a ∈ s.falses, I.truthAtom a = false) : I.truthAtom a ≠ positive := by
  intro ha
  cases h with
  | refuted hm => rw [hf a hm] at ha; cases ha
  | irreflexive hr => rw [Interpretation.truthAtom_of_isReflexive hr] at ha; cases ha
  | contradicted hm => rw [ht a hm] at ha; cases ha

/-! ## Compound formulas -/

theorem models_takeCompound {f : Formula} :
    (s.takeCompound t f).value.Models I ↔ I.truth f = true ∧ s.Models I := by
  unfold takeCompound
  split
  · simp only [Noted.value_pure, Models, List.mem_cons, forall_eq_or_imp, Interpretation.truth,
      Connective.combine, Bool.and_eq_true, and_assoc]
  · simp only [Noted.value_bind]
    split
    · rename_i g hg
      rw [← Interpretation.truth_pushStep hg]
      exact models_cons
    · simp only [Noted.value_pure, Models, List.mem_append, List.mem_singleton]
      grind

theorem every_takeCompound {f : Formula} (hf : f.Every P) (hs : s.Every P) :
    (s.takeCompound t f).value.Every P := by
  unfold takeCompound
  split
  · exact every_cons.2 ⟨hf.1, every_cons.2 ⟨hf.2, hs⟩⟩
  · simp only [Noted.value_bind]
    split
    · rename_i g hg
      exact every_cons.2 ⟨Formula.every_pushStep hg hf, hs⟩
    · refine ⟨hs.queue, ?_, hs.candidates, hs.trues, hs.falses⟩
      simp only [Noted.value_pure, List.mem_append, List.mem_singleton]
      grind [hs.residual]

/-! ## Steps -/

/-- What a step does to the models of a front. -/
inductive StepModels (P : Atom → Prop) (s s' : Front) : Prop where
  | keep (models : ∀ I, s'.Models I ↔ s.Models I)
  | eliminate (a : Atom) (x : String) (r : Term) (property : P a)
      (elimination : elimination? a = some (x, r)) (fresh : x ∉ s'.names)
      (models : ∀ I, s.Models I ↔ I.denote x = I.value r ∧ s'.Models I)

theorem not_mem_names_eliminate {a : Atom} {x : String} {r : Term}
    (h : elimination? a = some (x, r)) : x ∉ (s.eliminate x r).names := by
  intro hx
  rcases mem_names_eliminate hx with ⟨_, hx⟩ | hx
  · exact hx rfl
  · exact (vars_elimination? h).2.2 hx

theorem learns_spec {a : Atom} {positive : Bool} {f : Formula} (hP : Stable P) (ha : P a)
    (hs : s.Every P) (hf : ∀ I, s.Models I → (I.truth f = true ↔ I.truthAtom a = positive))
    (h : s.Learns a positive (.next s')) : s'.Every P ∧ StepModels P (s.cons f) s' := by
  rcases models_of_learns h with ⟨x, r, rfl, he, rfl⟩ | ⟨hm, hk⟩
  -- The literal is an equation that is used up: what it says is the value of the variable.
  · refine ⟨hs.eliminate hP.orient (hP.eliminate a x r ha he),
      .eliminate a x r ha he (not_mem_names_eliminate he) fun I => ?_⟩
    rw [models_cons]
    constructor
    · rintro ⟨h₁, h₂⟩
      have hx := (truthAtom_iff_of_elimination? he).1 ((hf I h₂).1 h₁)
      exact ⟨hx, (models_eliminate (hs.imp fun _ _ => trivial) hx).2 h₂⟩
    · rintro ⟨hx, h₂⟩
      have h₂ := (models_eliminate (hs.imp fun _ _ => trivial) hx).1 h₂
      exact ⟨(hf I h₂).2 ((truthAtom_iff_of_elimination? he).2 hx), h₂⟩
  · refine ⟨hk P ha hs, .keep fun I => ?_⟩
    rw [hm, models_cons]
    exact ⟨fun ⟨h₁, h₂⟩ => ⟨(hf I h₂).2 h₁, h₂⟩, fun ⟨h₁, h₂⟩ => ⟨(hf I h₂).1 h₁, h₂⟩⟩

theorem takes_spec {f : Formula} (hP : Stable P) (hf : f.Every P) (hs : s.Every P)
    (h : s.Takes t f (.next s')) : s'.Every P ∧ StepModels P (s.cons f) s' := by
  have hg : (f.simplify s.trues s.falses).Every P := Formula.every_simplify hf hP.orient
  have ht (I : Interpretation) (hm : s.Models I) :
      I.truth (f.simplify s.trues s.falses) = I.truth f :=
    Interpretation.truth_simplify hm.2.2.1 hm.2.2.2 f
  cases h with
  | literal hl hs' =>
    exact learns_spec hP (Formula.every_literal? hl hf hP.orient) hs
      (fun I _ => by rw [Interpretation.truth_literal? hl, beq_iff_eq]) hs'
  | holds he =>
    refine ⟨hs, .keep fun I => ?_⟩
    rw [models_cons]
    refine ⟨fun hm => ⟨?_, hm⟩, fun hm => hm.2⟩
    rw [← ht I hm, he]; rfl
  | evaluated hl hs' =>
    exact learns_spec hP (Formula.every_literal? hl hg hP.orient) hs
      (fun I hm => by rw [← ht I hm, Interpretation.truth_literal? hl, beq_iff_eq]) hs'
  | compound =>
    refine ⟨every_takeCompound hg hs, .keep fun I => ?_⟩
    rw [models_takeCompound, models_cons]
    exact ⟨fun ⟨h₁, h₂⟩ => ⟨ht I h₂ ▸ h₁, h₂⟩, fun ⟨h₁, h₂⟩ => ⟨ht I h₂ ▸ h₁, h₂⟩⟩

/-- **A step keeps the models**, up to the value of a variable that it replaces. -/
theorem models_step (hP : Stable P) (hs : s.Every P) (h : (s.step t).value = .next s') :
    s'.Every P ∧ StepModels P s s' := by
  have hstep := s.steps_step t
  rw [h] at hstep
  cases hstep with
  | take hq hf =>
    rw [eq_cons_of_queue hq] at hs ⊢
    exact takes_spec hP (every_cons.1 hs).1 (every_cons.1 hs).2 hf
  | refill hq =>
    refine ⟨⟨hs.residual, fun _ h => (List.not_mem_nil h).elim, hs.candidates, hs.trues, hs.falses⟩,
      .keep fun I => ?_⟩
    simp [Models, hq]

/-- A model of a front is one of the next: a replaced variable has the value of its replacement. -/
theorem models_of_next (hs : s.Every fun _ => True) (h : (s.step t).value = .next s')
    (hI : s.Models I) : s'.Models I := by
  cases (models_step stable_true hs h).2 with
  | keep hm => exact (hm I).2 hI
  | eliminate _ _ _ _ _ _ hm => exact ((hm I).1 hI).2

theorem not_models_of_takes {f : Formula} {leaf : Inference} (h : s.Takes t f (.closed leaf))
    (hm : s.Models I) : I.truth f = false := by
  have ht : I.truth (f.simplify s.trues s.falses) = I.truth f :=
    Interpretation.truth_simplify hm.2.2.1 hm.2.2.2 f
  cases h with
  | literal hl hc =>
    rw [Interpretation.truth_literal? hl]
    simpa using truthAtom_ne_of_learns hc hm.2.2.1 hm.2.2.2
  | falsity hb => rw [← ht, hb]; rfl
  | evaluated hl hc =>
    rw [← ht, Interpretation.truth_literal? hl]
    simpa using truthAtom_ne_of_learns hc hm.2.2.1 hm.2.2.2

/-- A front that a step closes has no model. -/
theorem not_models_of_closed_step {leaf : Inference} (h : (s.step t).value = .closed leaf) :
    ¬ s.Models I := by
  have hstep := s.steps_step t
  rw [h] at hstep
  cases hstep with
  | take hq hf =>
    rw [eq_cons_of_queue hq, models_cons]
    rintro ⟨htrue, hm⟩
    rw [not_models_of_takes hf hm] at htrue
    cases htrue

theorem queue_of_settled (h : (s.step t).value = .settled) : s.queue = [] := by
  have hstep := s.steps_step t
  rw [h] at hstep
  cases hstep with
  | take _ hf =>
    cases hf with
    | literal _ hl | evaluated _ hl => cases hl
  | settle hq => exact hq

end Front

/-! ## Branches -/

namespace Branch

variable {I : Interpretation} {t : DecidabilityTable} {b b' : Branch} {P : Atom → Prop}

def Models (I : Interpretation) (b : Branch) : Prop := b.front.Models I

def Every (P : Atom → Prop) (b : Branch) : Prop := b.front.Every P

theorem models_assume {f : Formula} : (b.assume f).Models I ↔ I.truth f = true ∧ b.Models I :=
  Front.models_cons (s := b.front)

theorem every_assume {f : Formula} : (b.assume f).Every P ↔ f.Every P ∧ b.Every P :=
  Front.every_cons (s := b.front)

end Branch

namespace Front

variable {I : Interpretation} {t : DecidabilityTable} {s : Front} {P : Atom → Prop}

theorem models_branch (h : s.queue = []) : s.branch.Models I ↔ s.Models I := by
  simp [Branch.Models, Branch.front, branch, Models, h]

theorem every_branch (h : s.Every P) : s.branch.Every P :=
  ⟨h.residual, fun _ h => (List.not_mem_nil h).elim, h.candidates, h.trues, h.falses⟩

/-- **A front on which propagation closes has no model.** -/
theorem not_models_of_closed (hs : s.Every fun _ => True) {leaf : Inference}
    {substitutions : List (String × Term)} (h : (s.run t).value = .closed leaf substitutions) :
    ¬ s.Models I := by
  refine closed_induction (R := fun s _ => (s.Every fun _ => True) → ¬ s.Models I)
    ?close ?next h hs
  case close =>
    intro s leaf hc _
    exact not_models_of_closed_step hc
  case next =>
    intro s s' leaf hn ih hs hI
    exact ih (models_step stable_true hs hn).1 (models_of_next hs hn hI)

theorem every_of_settled (hP : Stable P) (hs : s.Every P) {b : Branch}
    {substitutions : List (String × Term)} (h : (s.run t).value = .settled b substitutions) :
    b.Every P := by
  refine settled_induction (R := fun s b => s.Every P → b.Every P) ?settle ?next h hs
  case settle =>
    intro s _ hs
    exact every_branch hs
  case next =>
    intro s s' b hn ih hs
    exact ih (models_step hP hs hn).1

/-- Models pass from the start of propagation to the settled branch. -/
theorem models_of_settled (hs : s.Every fun _ => True) {b : Branch}
    {substitutions : List (String × Term)} (h : (s.run t).value = .settled b substitutions)
    (hI : s.Models I) : b.Models I := by
  refine settled_induction (R := fun s b => (s.Every fun _ => True) → s.Models I → b.Models I)
    ?settle ?next h hs hI
  case settle =>
    intro s hc _ hI
    exact (models_branch (queue_of_settled hc)).2 hI
  case next =>
    intro s s' b hn ih hs hI
    exact ih (models_step stable_true hs hn).1 (models_of_next hs hn hI)

end Front

namespace Branch

variable {I : Interpretation} {t : DecidabilityTable} {b : Branch} {P : Atom → Prop}

theorem mem_of_findCases {fs others : List Formula} {f l r : Formula}
    (h : (findCases t fs).value = some (f, l, r, others)) :
    ∀ g, g ∈ fs ↔ g = f ∨ g ∈ others := by
  obtain ⟨_, _, before, after, rfl, rfl⟩ := findCases_spec h
  intro g
  simp only [List.mem_append, List.mem_cons]
  exact or_left_comm

theorem value_allDecidable {f : Formula} (gs : List Formula) :
    (mayOpen.allDecidable t f gs).value = gs.all t.isDecidable := by
  induction gs with
  | nil => rfl
  | cons g gs ih =>
    rw [mayOpen.allDecidable, List.all_cons]
    split <;> simp_all

/-- **A split covers the models of a branch**: its models are those of its two cases. -/
theorem models_split {s : Split} (h : (b.split t).value = some s) :
    b.Models I ↔ (s.rest.assume s.first).Models I ∨ (s.rest.assume s.second).Models I := by
  rw [models_assume, models_assume]
  unfold split at h
  split at h
  · simp only [Noted.value_pure, Option.some.injEq] at h
    subst h
    rename_i c _
    simp only [candidateSplit, Interpretation.truth]
    change b.Models I ↔ _ ∧ b.Models I ∨ _ ∧ b.Models I
    cases I.truth c <;> simp
  · simp only [Noted.value_bind, Noted.value_pure, Option.map_eq_some_iff] at h
    obtain ⟨⟨f, l, r, others⟩, hf, rfl⟩ := h
    have hc := Interpretation.truth_cases? (I := I) (findCases_spec hf).1
    have hm := mem_of_findCases hf
    simp only [formulaSplit, Models, Front.Models, front, hm, forall_eq_or_imp, hc, Bool.or_eq_true]
    grind

theorem every_split {s : Split} (h : (b.split t).value = some s) (hb : b.Every P) :
    (s.rest.assume s.first).Every P ∧ (s.rest.assume s.second).Every P := by
  rw [every_assume, every_assume]
  unfold split at h
  split at h
  · rename_i c hc
    simp only [Noted.value_pure, Option.some.injEq] at h
    subst h
    have hcan : c.Every P := hb.candidates c (List.mem_of_find?_eq_some hc)
    have hrest : (b.candidateSplit c).rest.Every P :=
      ⟨hb.queue, hb.residual, fun f hf => hb.candidates f (List.mem_filter.1 hf).1, hb.trues, hb.falses⟩
    exact ⟨⟨hcan, hrest⟩, hcan, hrest⟩
  · simp only [Noted.value_bind, Noted.value_pure, Option.map_eq_some_iff] at h
    obtain ⟨⟨f, l, r, others⟩, hf, rfl⟩ := h
    have hm := mem_of_findCases hf
    have hcases := Formula.every_cases? (findCases_spec hf).1 (hb.queue f ((hm f).2 (.inl rfl)))
    have hrest : (b.formulaSplit f l r others).rest.Every P :=
      ⟨fun g hg => hb.queue g ((hm g).2 (.inr hg)), hb.residual, hb.candidates, hb.trues, hb.falses⟩
    exact ⟨⟨hcases.1, hrest⟩, hcases.2, hrest⟩

end Branch

/-- **A branch whose run is not stuck has no model.** -/
theorem not_models_of_explores {I : Interpretation} {t : DecidabilityTable} {b : Branch}
    {tree : ProofTree} {n : Nat} (h : Explores t b tree n) (hb : b.Every fun _ => True)
    (hs : tree.isStuck = false) : ¬ b.Models I := by
  induction h with
  | closed hp => exact Front.not_models_of_closed hb hp
  | stuck _ _ => cases hs
  | first _ _ _ hstuck _ => rw [hs] at hstuck; cases hstuck
  | second _ _ _ _ _ hstuck _ _ => rw [hs] at hstuck; cases hstuck
  | both hp hc _ h₁ _ h₂ ih₁ ih₂ =>
    -- Only here both cases are closed; a model of the branch would be one of a case.
    intro hI
    have hI' := Front.models_of_settled hb hp hI
    obtain ⟨he₁, he₂⟩ := Branch.every_split hc (Front.every_of_settled stable_true hb hp)
    rcases (Branch.models_split hc).1 hI' with hI' | hI'
    · exact ih₁ he₁ h₁ hI'
    · exact ih₂ he₂ h₂ hI'

/-! ## The branch of a sequent -/

namespace Branch

variable {I : Interpretation} {s : Sequent} {P : Atom → Prop}

theorem mem_pending_ofSequent {f : Formula} :
    f ∈ (ofSequent s).pending ↔
      (∃ h ∈ s.hypotheses, candidate? h = none ∧ h.formula = f) ∨ f = .not s.goal := by
  simp only [ofSequent, List.mem_append, List.mem_map, List.mem_filter, List.mem_singleton,
    Option.isNone_iff_eq_none, and_assoc]

theorem formula_of_candidate? {h : Hypothesis} {f : Formula} (hf : candidate? h = some f) :
    h.injected = true ∧ ∃ l r, h.formula = .or l r ∧ f = l.orient := by
  unfold candidate? at hf
  split at hf
  · rename_i l r hi hor
    exact ⟨hi, l, r, hor, by simpa using hf.symm⟩
  · cases hf

theorem every_ofSequent (ho : ∀ a, P a → P a.orient) (he : ∀ f ∈ s.formulas, f.Every P) :
    (ofSequent s).Every P := by
  have fact {h : Hypothesis} (hh : h ∈ s.hypotheses) : h.formula.Every P :=
    he _ (List.mem_append_left _ (List.mem_map_of_mem hh))
  refine ⟨fun f hf => ?_, fun _ hf => (List.not_mem_nil hf).elim, fun f hf => ?_,
    fun _ ha => (List.not_mem_nil ha).elim, fun _ ha => (List.not_mem_nil ha).elim⟩
  · rcases mem_pending_ofSequent.1 hf with ⟨h, hh, _, rfl⟩ | rfl
    · exact fact hh
    · exact he s.goal (List.mem_append_right _ (List.mem_singleton_self _))
  · simp only [front, ofSequent, List.mem_eraseDups, List.mem_filterMap] at hf
    obtain ⟨h, hh, hf⟩ := hf
    obtain ⟨_, l, r, hor, rfl⟩ := formula_of_candidate? hf
    have := fact hh
    rw [hor] at this
    exact Formula.every_orient this.1 ho

/-- The models of the branch of a sequent refute it, if the hypotheses that only offer a candidate
are true. -/
theorem models_ofSequent :
    I.Refutes s ↔ (ofSequent s).Models I ∧
      ∀ h ∈ s.hypotheses, (candidate? h).isSome = true → I.truth h.formula = true := by
  have pending : (ofSequent s).Models I ↔ ∀ f ∈ (ofSequent s).pending, I.truth f = true := by
    simp [Models, Front.Models, front, ofSequent]
  rw [pending]
  constructor
  · rintro ⟨hf, hg⟩
    refine ⟨fun f hm => ?_, fun h hh _ => hf _ (List.mem_map_of_mem hh)⟩
    rcases mem_pending_ofSequent.1 hm with ⟨h, hh, _, rfl⟩ | rfl
    · exact hf _ (List.mem_map_of_mem hh)
    · simp [Interpretation.truth, hg]
  · rintro ⟨hp, hc⟩
    refine ⟨fun f hm => ?_, ?_⟩
    · obtain ⟨h, hh, rfl⟩ := List.mem_map.1 hm
      cases he : candidate? h with
      | none => exact hp _ (mem_pending_ofSequent.2 (.inl ⟨h, hh, he, rfl⟩))
      | some c => exact hc h hh (by rw [he]; rfl)
    · simpa [Interpretation.truth] using hp _ (mem_pending_ofSequent.2 (.inr rfl))

end Branch

/-- **The search is sound**: a sequent without quantifiers that it closes has no countermodel. -/
theorem not_refutes_of_refute {I : Interpretation} {t : DecidabilityTable} {limit : Option Int}
    {s : Sequent} {tree : ProofTree} (h : (refute t limit s).result = .ok tree)
    (hs : tree.isStuck = false) (he : ∀ f ∈ s.formulas, f.Every fun _ => True) : ¬ I.Refutes s := by
  intro hI
  obtain ⟨n, hn, _⟩ := explores_of_search h
  exact not_models_of_explores hn (Branch.every_ofSequent (fun _ _ => trivial) he) hs
    (Branch.models_ofSequent.1 hI).1

end SetSequent.Search
