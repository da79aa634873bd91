import Mathlib.Data.List.Basic
import SetSequent.Proofs.Certified
import SetSequent.Proofs.Sorts

/-!
# Models of stuck branches

A branch of simple atoms on which the search gets stuck has a model, read off its literals.

* `Front.Coherent` — the literals of a front do not contradict each other, and every formula that was put
  aside resists each rule of propagation. Steps keep it.
* `pending_of_stuck` — with the standard table no formula of simple atoms is put aside for good, so a
  stuck branch has literals only.
* `Sorts.model` — element names denote different elements, and a set name denotes the elements that
  the true memberships give it.
* `models_of_explores` — a run that ends stuck starts from a branch with a model, over as many elements as
  there are element names.
-/

namespace SetSequent.Search

open Model

/-! ## Coherent fronts -/

/-- No rule of propagation applies to the formula. -/
structure Resists (t : DecidabilityTable) (f : Formula) : Prop where
  literal : f.literal? = none
  top : f ≠ .top
  bot : f ≠ .bot
  conjunction : ∀ l r, f ≠ .and l r
  negation : (f.pushStep t).value = none

namespace Front

/-- The literals are consistent and used up, and what was put aside resists. -/
structure Coherent (t : DecidabilityTable) (s : Front) : Prop where
  residual : ∀ f ∈ s.residual, Resists t f
  consistent : ∀ a ∈ s.trues, a ∉ s.falses
  kept : ∀ a ∈ s.trues, a.isReflexive = false ∧ elimination? a = none
  irreflexive : ∀ a ∈ s.falses, a.isReflexive = false

variable {I J : Interpretation} {t : DecidabilityTable} {s s' : Front}

theorem Coherent.eliminate (x : String) (r : Term) : (s.eliminate x r).Coherent t := by
  constructor <;> intro _ h <;> cases h

theorem coherent_of_learns {a : Atom} {positive : Bool} (hs : s.Coherent t)
    (h : s.Learns a positive (.next s')) : s'.Coherent t := by
  cases h with
  | reflexive | known | knownFalse => exact hs
  | eliminated => exact .eliminate _ _
  | asserted hr ho hk =>
    refine ⟨hs.residual, fun b hb => ?_, fun b hb => ?_, hs.irreflexive⟩
    · rcases List.mem_append.1 hb with hb | hb
      · exact hs.consistent b hb
      · rw [List.mem_singleton.1 hb]; exact ho
    · rcases List.mem_append.1 hb with hb | hb
      · exact hs.kept b hb
      · rw [List.mem_singleton.1 hb]; exact ⟨hr, hk⟩
  | denied hr ho =>
    refine ⟨hs.residual, fun b hb hm => ?_, hs.kept, fun b hb => ?_⟩
    · rcases List.mem_append.1 hm with hm | hm
      · exact hs.consistent b hb hm
      · rw [List.mem_singleton.1 hm] at hb; exact ho hb
    · rcases List.mem_append.1 hb with hb | hb
      · exact hs.irreflexive b hb
      · rw [List.mem_singleton.1 hb]; exact hr

theorem coherent_takeCompound {f : Formula} (hs : s.Coherent t) (hl : f.literal? = none)
    (ht : f ≠ .top) (hb : f ≠ .bot) : (s.takeCompound t f).value.Coherent t := by
  unfold takeCompound
  split
  · exact ⟨hs.residual, hs.consistent, hs.kept, hs.irreflexive⟩
  · rename_i hand
    simp only [Noted.value_bind]
    split
    · exact ⟨hs.residual, hs.consistent, hs.kept, hs.irreflexive⟩
    · rename_i hp
      refine ⟨fun g hg => ?_, hs.consistent, hs.kept, hs.irreflexive⟩
      rcases List.mem_append.1 hg with hg | hg
      · exact hs.residual g hg
      · rw [List.mem_singleton.1 hg]
        exact ⟨hl, ht, hb, hand, hp⟩

/-- A step keeps a front coherent. -/
theorem coherent_step (hs : s.Coherent t) (h : (s.step t).value = .next s') : s'.Coherent t := by
  have hstep := s.steps_step t
  rw [h] at hstep
  cases hstep with
  | @take f rest _ hq hf =>
    have hrest : Coherent t { s with queue := rest } :=
      ⟨hs.residual, hs.consistent, hs.kept, hs.irreflexive⟩
    cases hf with
    | literal _ hl | evaluated _ hl => exact coherent_of_learns hrest hl
    | holds => exact hrest
    | compound hl ht hb => exact coherent_takeCompound hrest hl ht hb
  | refill =>
    exact ⟨fun _ h => (List.not_mem_nil h).elim, hs.consistent, hs.kept, hs.irreflexive⟩

/-- Propagation settles with a coherent branch whose pending formulas resist. -/
theorem coherent_of_settled (hs : s.Coherent t) {b : Branch} {substitutions : List (String × Term)}
    (h : (s.run t).value = .settled b substitutions) :
    b.front.Coherent t ∧ ∀ f ∈ b.pending, Resists t f := by
  refine settled_induction
    (R := fun s b => s.Coherent t → b.front.Coherent t ∧ ∀ f ∈ b.pending, Resists t f)
    ?settle ?next h hs
  case settle =>
    intro s _ hs
    exact ⟨⟨fun _ h => (List.not_mem_nil h).elim, hs.consistent, hs.kept, hs.irreflexive⟩, hs.residual⟩
  case next =>
    intro s s' b hn ih hs
    exact ih (coherent_step hs hn)

/-- The models of a front depend on the values of its names only. -/
theorem models_congr (hs : s.Every fun _ => True) (h : I.Agrees J (· ∈ s.names)) :
    s.Models I ↔ s.Models J := by
  have formula {f : Formula} (hf : f.Every fun _ => True) (hn : ∀ x ∈ f.freeVars, x ∈ s.names) :
      I.truth f = J.truth f := Interpretation.truth_congr hf (h.imp hn)
  have atom {a : Atom} (hn : ∀ x ∈ a.vars, x ∈ s.names) : I.truthAtom a = J.truthAtom a :=
    Interpretation.truthAtom_congr (h.imp hn)
  refine and_congr ?_ (and_congr ?_ (and_congr ?_ ?_))
  · refine forall₂_congr fun f hf => ?_
    rw [formula (hs.queue f hf) fun x hx => mem_names.2 (.inl ⟨f, hf, hx⟩)]
  · refine forall₂_congr fun f hf => ?_
    rw [formula (hs.residual f hf) fun x hx => mem_names.2 (.inr (.inl ⟨f, hf, hx⟩))]
  · refine forall₂_congr fun a ha => ?_
    rw [atom fun x hx => mem_names.2 (.inr (.inr (.inr (.inl ⟨a, ha, hx⟩))))]
  · refine forall₂_congr fun a ha => ?_
    rw [atom fun x hx => mem_names.2 (.inr (.inr (.inr (.inr ⟨a, ha, hx⟩))))]

end Front

namespace Branch

variable {t : DecidabilityTable} {b : Branch}

/-- The cases of a split keep the literals. -/
theorem literals_split {s : Split} (h : (b.split t).value = some s) :
    s.rest.trues = b.trues ∧ s.rest.falses = b.falses := by
  unfold split at h
  split at h
  · simp only [Noted.value_pure, Option.some.injEq] at h
    rw [← h]
    exact ⟨rfl, rfl⟩
  · simp only [Noted.value_bind, Noted.value_pure, Option.map_eq_some_iff] at h
    obtain ⟨_, _, rfl⟩ := h
    exact ⟨rfl, rfl⟩

theorem coherent_split {s : Split} (h : (b.split t).value = some s) (hb : b.front.Coherent t)
    (f : Formula) : (s.rest.assume f).front.Coherent t := by
  obtain ⟨trues, falses⟩ := literals_split h
  refine ⟨fun _ h => (List.not_mem_nil h).elim, ?_, ?_, ?_⟩
  · change ∀ a ∈ s.rest.trues, a ∉ s.rest.falses
    rw [trues, falses]
    exact hb.consistent
  · change ∀ a ∈ s.rest.trues, _
    rw [trues]
    exact hb.kept
  · change ∀ a ∈ s.rest.falses, _
    rw [falses]
    exact hb.irreflexive

end Branch

end SetSequent.Search

namespace SetSequent

open Model

/-! ## The standard table -/

section Standard

variable {σ : Sorts} {f : Formula}

/-- The standard table knows why a formula of simple atoms is decidable. -/
theorem speaks_of_simple (hf : f.Every (Atom.Simple σ)) :
    DecidabilityTable.speaks (DecidabilityTable.standard.reason f) = true := by
  induction f with
  | top | bot => decide
  | atom a =>
    cases a with
    | eq | mem => rfl
    | isEmpty | subset | setEq | pred => exact hf.elim
  | not f ih => exact ih hf
  | connect c l r ihl ihr =>
    simp only [DecidabilityTable.reason, ihl hf.1, ihr hf.2, Bool.and_self, if_true]
    decide
  | all x f => exact hf.elim

theorem isDecidable_of_simple (hf : f.Every (Atom.Simple σ)) :
    DecidabilityTable.standard.isDecidable f = true := by
  have h := speaks_of_simple hf
  rw [DecidabilityTable.isDecidable]
  cases hr : DecidabilityTable.standard.reason f with
  | none => rw [hr] at h; cases h
  | some _ => rfl

/-- The guards of a rule for negations are parts of the formula. -/
theorem Formula.every_guards {P : Atom → Prop} {rule : NegationRule} (h : f.pushRule? = some rule)
    (hf : f.Every P) : ∀ g ∈ rule.guards, g.Every P := by
  unfold pushRule? at h
  split at h <;> cases h <;> simp_all [Every]

/-- A rule for negations is used whenever one fits. -/
theorem pushRule?_of_pushStep (hf : f.Every (Atom.Simple σ))
    (h : (f.pushStep .standard).value = none) : f.pushRule? = none := by
  cases hr : f.pushRule? with
  | none => rfl
  | some rule =>
    have fires : (f.pushStep .standard).value = some rule.result := by
      rw [Formula.pushStep, hr]
      refine NegationRule.value_fire?.2 ⟨rule, rfl, ?_, rfl⟩
      exact List.all_eq_true.2 fun g hg => isDecidable_of_simple (Formula.every_guards hr hf g hg)
    rw [h] at fires
    cases fires

end Standard

end SetSequent

namespace SetSequent.Search.Branch

open Model

variable {σ : Sorts} {t : DecidabilityTable} {f : Formula}

/-- Under the standard table a formula of simple atoms that resists can be split. -/
theorem cases_of_resists (hf : f.Every (Atom.Simple σ)) (h : Resists .standard f) :
    ∃ l r, f.cases? = some (l, r) ∧ (mayOpen .standard f).value = true := by
  cases f with
  | top => exact absurd rfl h.top
  | bot => exact absurd rfl h.bot
  | atom a => cases h.literal
  | not g =>
    have hn := pushRule?_of_pushStep hf h.negation
    cases g with
    | atom a => cases h.literal
    | top | bot | not => cases hn
    | connect c l r => cases c <;> cases hn
    | all x g => exact hf.elim
  | connect c l r =>
    -- Both sides are decidable, so no guard bars the split.
    have hl := isDecidable_of_simple hf.1
    have hr := isDecidable_of_simple hf.2
    cases c with
    | and => exact absurd rfl (h.conjunction l r)
    | or => exact ⟨l, r, rfl, rfl⟩
    | implies => exact ⟨.not l, r, rfl, by simp [mayOpen, value_allDecidable, hl]⟩
    | iff => exact ⟨.and l r, _, rfl, by simp [mayOpen, value_allDecidable, hl, hr]⟩
  | all x g => exact hf.elim

theorem not_cases_of_findCases {fs : List Formula} (h : (findCases t fs).value = none) :
    ∀ f ∈ fs, ∀ l r, f.cases? = some (l, r) → (mayOpen t f).value ≠ true := by
  induction fs with
  | nil => intro f hf; cases hf
  | cons g fs ih =>
    rw [findCases] at h
    intro f hf l r hc
    split at h
    · rename_i hg
      simp only [Noted.value_bind, Noted.value_pure, Option.map_eq_none_iff] at h
      rcases List.mem_cons.1 hf with rfl | hf
      · rw [hg] at hc; cases hc
      · exact ih h f hf l r hc
    · simp only [Noted.value_bind] at h
      split at h
      · cases h
      · rename_i hm
        simp only [Noted.value_bind, Noted.value_pure, Option.map_eq_none_iff] at h
        rcases List.mem_cons.1 hf with rfl | hf
        · exact hm
        · exact ih h f hf l r hc

/-- **A stuck branch of simple atoms has literals only.** -/
theorem pending_of_stuck {b : Branch} (hb : b.Every (Atom.Simple σ))
    (hr : ∀ f ∈ b.pending, Resists .standard f) (h : (b.split .standard).value = none) :
    b.pending = [] := by
  have hn : (findCases .standard b.pending).value = none := by
    unfold split at h
    split at h
    · cases h
    · simpa using h
  refine List.eq_nil_iff_forall_not_mem.2 fun f hf => ?_
  obtain ⟨l, r, hc, hm⟩ := cases_of_resists (hb.queue f hf) (hr f hf)
  exact not_cases_of_findCases hn f hf l r hc hm

end SetSequent.Search.Branch

/-! ## The model of the literals -/

namespace SetSequent

open Model

namespace Sorts

/-- The element that a true membership gives to the set name `y`: element names are numbered. -/
def member? (σ : Sorts) (y : String) : Atom → Option Value
  | .mem (.var x) (.var z) => if z = y then some (.element (σ.elements.idxOf x)) else none
  | _ => none

/-- Each element name denotes its number, each set name the elements that the true atoms give it. -/
def model (σ : Sorts) (trues : List Atom) : Interpretation :=
  σ.interpretation (fun x => σ.elements.idxOf x) fun y => .ofList (trues.filterMap (σ.member? y))

variable {σ : Sorts} {trues : List Atom} {x y : String}

/-- The elements that a set name gets are those of the memberships that are true. -/
theorem mem_filterMap_member? {v : Value} :
    v ∈ trues.filterMap (σ.member? y) ↔
      ∃ x, .mem (.var x) (.var y) ∈ trues ∧ v = .element (σ.elements.idxOf x) := by
  simp only [List.mem_filterMap]
  constructor
  · rintro ⟨a, ha, hv⟩
    unfold member? at hv
    split at hv
    · rename_i x z
      split at hv
      · rename_i hz
        subst hz
        cases hv
        exact ⟨x, ha, rfl⟩
      · cases hv
    · cases hv
  · rintro ⟨x, ha, rfl⟩
    exact ⟨_, ha, by simp [member?]⟩

theorem fits_model (ht : ∀ a ∈ trues, a.Simple σ) {n : Nat} (hn : σ.elements.length ≤ n) :
    (σ.model trues).Fits σ n := by
  have number {x : String} (hx : x ∈ σ.elements) :
      (Value.element (σ.elements.idxOf x)).IsElementBelow n := by
    have := List.idxOf_lt_length_of_mem hx
    exact ⟨σ.elements.idxOf x, by omega, rfl⟩
  refine fits_interpretation (fun x hx => number hx) fun y hy => Value.isSetBelow_ofList fun v hv => ?_
  obtain ⟨x, hx, rfl⟩ := mem_filterMap_member?.1 hv
  exact number (ht _ hx).1

/-- Different element names denote different elements. -/
theorem truthAtom_eq (hx : x ∈ σ.elements) (hy : y ∈ σ.elements) :
    (σ.model trues).truthAtom (.eq (.var x) (.var y)) = true ↔ x = y := by
  rw [Interpretation.truthAtom_eq, beq_iff_eq, Interpretation.value, Interpretation.value, model,
    denote_element hx, denote_element hy]
  constructor
  · intro h
    have := Value.element_inj h
    exact (List.idxOf_inj hx).1 (by omega)
  · intro h
    rw [h]

/-- The memberships that are true are those of the list. -/
theorem truthAtom_mem (ht : ∀ a ∈ trues, a.Simple σ) (hx : x ∈ σ.elements) (hy : y ∈ σ.sets) :
    (σ.model trues).truthAtom (.mem (.var x) (.var y)) = true ↔
      .mem (.var x) (.var y) ∈ trues := by
  rw [Interpretation.truthAtom, List.contains_iff_mem, Interpretation.value, Interpretation.value,
    model, denote_element hx, denote_set hy, Value.mem_members_ofList, mem_filterMap_member?]
  constructor
  · rintro ⟨z, hz, he⟩
    have hm : z ∈ σ.elements := (ht _ hz).1
    have := Value.element_inj he
    obtain rfl : z = x := (List.idxOf_inj hm).1 (by omega)
    exact hz
  · intro h
    exact ⟨x, h, rfl⟩

end Sorts

namespace Search

variable {σ : Sorts}

/-- A coherent branch that has literals only is modelled by the interpretation of its true atoms. -/
theorem Branch.models_model {b : Branch} (hb : b.Every (Atom.Simple σ))
    (hc : b.front.Coherent .standard) (hp : b.pending = []) : b.Models (σ.model b.trues) := by
  have ht : ∀ a ∈ b.trues, a.Simple σ := hb.trues
  refine ⟨?_, fun _ h => (List.not_mem_nil h).elim, fun a ha => ?_, fun a ha => ?_⟩
  · change ∀ f ∈ b.pending, _
    rw [hp]
    intro _ h
    cases h
  · obtain ⟨hr, hk⟩ := hc.kept a ha
    rcases (ht a ha).names with ⟨x, hx, y, hy, rfl⟩ | ⟨x, hx, y, hy, rfl⟩
    · -- A true equation of different names would have been used up by an elimination.
      have hne : x ≠ y := by simpa [Atom.isReflexive] using hr
      simp [Front.elimination?, Equation.elimination?, Equation.solve?, Term.vars, hne] at hk
    · exact (Sorts.truthAtom_mem ht hx hy).2 ha
  · have hr := hc.irreflexive a ha
    refine Bool.eq_false_iff.2 fun htrue => ?_
    rcases (hb.falses a ha).names with ⟨x, hx, y, hy, rfl⟩ | ⟨x, hx, y, hy, rfl⟩
    · have he := (Sorts.truthAtom_eq hx hy).1 htrue
      simp [Atom.isReflexive, he] at hr
    · exact hc.consistent _ ((Sorts.truthAtom_mem ht hx hy).1 htrue) ha

/-! ## Back to the start of a run -/

variable {n : Nat} {t : DecidabilityTable}

/-- A model of the settled branch gives one of the front that propagation started from: a variable that
was replaced takes the value of its replacement. -/
theorem Front.exists_models_of_settled {s : Front} (hs : s.Every (Atom.Simple σ)) {b : Branch}
    {substitutions : List (String × Term)} (h : (s.run t).value = .settled b substitutions)
    {I : Interpretation} (hI : I.Fits σ n) (hb : b.Models I) :
    ∃ J : Interpretation, J.Fits σ n ∧ s.Models J := by
  refine settled_induction
    (R := fun s b => s.Every (Atom.Simple σ) → b.Models I →
      ∃ J : Interpretation, J.Fits σ n ∧ s.Models J) ?settle ?next h hs hb
  case settle =>
    intro s hc _ hb
    exact ⟨I, hI, (models_branch (queue_of_settled hc)).1 hb⟩
  case next =>
    intro s s' b hn ih hs hb
    obtain ⟨hs', hm⟩ := models_step (stable_simple σ) hs hn
    obtain ⟨J, hJ, hJs⟩ := ih hs' hb
    cases hm with
    | keep hm => exact ⟨J, hJ, (hm J).1 hJs⟩
    | eliminate a x r ha he hfresh hm =>
      have hr := replaces_of_elimination? ha.sorted he
      have agrees : (J.assign x (J.value r)).Agrees J (· ∈ s'.names) :=
        (Interpretation.agrees_assign J x _).imp fun y hy e => hfresh (e ▸ hy)
      refine ⟨J.assign x (J.value r), hJ.assign_replacement hr, (hm _).2 ⟨?_, ?_⟩⟩
      · exact Interpretation.denote_assign_value (vars_elimination? he).2.2
      · exact (models_congr (hs'.imp fun _ _ => trivial) agrees).2 hJs

theorem isStuck_of_underSubstitutions {substitutions : List (String × Term)} {tree : ProofTree}
    (h : (underSubstitutions substitutions tree).isStuck = true) : tree.isStuck = true := by
  cases substitutions with
  | nil => exact h
  | cons p rest => cases h

/-- **A branch on which the search gets stuck has a model**, over as many elements as there are element
names. -/
theorem models_of_explores {b : Branch} {tree : ProofTree} {k : Nat}
    (h : Explores .standard b tree k) (hstuck : tree.isStuck = true)
    (hb : b.Every (Atom.Simple σ)) (hc : b.front.Coherent .standard)
    (hn : σ.elements.length ≤ n) : ∃ I : Interpretation, I.Fits σ n ∧ b.Models I := by
  induction h with
  | closed hp =>
    have hleaf := isStuck_of_underSubstitutions hstuck
    have := (Front.evidence_of_run hp).1
    simp_all [ProofTree.leaf, ProofTree.isStuck, ProofTree.inference, Rule.closes]
  | stuck hp hs =>
    obtain ⟨hc', hr⟩ := Front.coherent_of_settled hc hp
    have hb' := Front.every_of_settled (stable_simple σ) hb hp
    have hm := Branch.models_model hb' hc' (Branch.pending_of_stuck hb' hr hs)
    exact Front.exists_models_of_settled hb hp (Sorts.fits_model hb'.trues hn) hm
  | first hp hs _ hst ih =>
    have hb' := Front.every_of_settled (stable_simple σ) hb hp
    have hc' := (Front.coherent_of_settled hc hp).1
    obtain ⟨I, hI, hm⟩ := ih hst (Branch.every_split hs hb').1 (Branch.coherent_split hs hc' _)
    exact Front.exists_models_of_settled hb hp hI ((Branch.models_split hs).2 (.inl hm))
  | second hp hs _ _ _ hst _ ih =>
    have hb' := Front.every_of_settled (stable_simple σ) hb hp
    have hc' := (Front.coherent_of_settled hc hp).1
    obtain ⟨I, hI, hm⟩ := ih hst (Branch.every_split hs hb').2 (Branch.coherent_split hs hc' _)
    exact Front.exists_models_of_settled hb hp hI ((Branch.models_split hs).2 (.inr hm))
  | both _ hs =>
    have hnode := isStuck_of_underSubstitutions hstuck
    have := (Refutation.evidence_of_split hs).1
    simp_all [ProofTree.isStuck, ProofTree.inference]

end Search

end SetSequent
