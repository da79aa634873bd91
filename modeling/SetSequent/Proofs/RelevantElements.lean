import SetSequent.Proofs.Instances
import SetSequent.Proofs.Sorts

/-!
# Instances at the element terms suffice

A countermodel of the instances of some set relations need not satisfy the relations: they may fail at
values that no element term has. Such values are taken out of all sets.

* `Formula.Layered`, `every_instantiate_of_layered` — set relations stand alone, and what the stage leaves
  in their place is unfolded.
* `Sequent.Regular` — every name is used in its sort, and set relations stand alone.
* `Sorts.restrict` — the sets keep only the members of a list.
* `mem_members_restrict`, `relates_restrict` — if the list has the values of the element terms, a set
  term keeps exactly its members in the list, and a set relation states the same about these.
* `refutes_of_instanceRounds_ground` — one round of instances is enough.
* `refutes_of_instantiate` — a countermodel that fits is carried back over the whole stage.
-/

namespace SetSequent

open Model

/-! ## Names inside element terms -/

theorem Term.mem_vars_of_constructor {e : Term} {x : String} : (t : Term) →
    e ∈ t.constructorElements → x ∈ e.vars → x ∈ t.vars
  | .var _, h, _ | .app _ _, h, _ | .empty, h, _ => (List.not_mem_nil h).elim
  | .singleton _, h, hx => List.mem_singleton.1 h ▸ hx
  | .add a s, h, hx | .remove a s, h, hx => by
    rcases List.mem_cons.1 h with rfl | h
    · exact List.mem_append_left _ hx
    · exact List.mem_append_right _ (mem_vars_of_constructor s h hx)
  | .union s t, h, hx | .inter s t, h, hx | .diff s t, h, hx => by
    rcases List.mem_append.1 h with h | h
    · exact List.mem_append_left _ (mem_vars_of_constructor s h hx)
    · exact List.mem_append_right _ (mem_vars_of_constructor t h hx)

theorem Atom.mem_vars_of_elementTerms {a : Atom} {e : Term} (he : e ∈ a.elementTerms) {x : String}
    (hx : x ∈ e.vars) : x ∈ a.vars := by
  have arg {u : Term} (hu : u ∈ a.args) (h : x ∈ u.vars) : x ∈ a.vars :=
    List.mem_flatMap.2 ⟨u, hu, h⟩
  cases a with
  | eq l r => exact arg he hx
  | mem y s =>
    rcases List.mem_cons.1 he with rfl | he
    · exact arg (.head _) hx
    · exact arg (.tail _ (.head _)) (Term.mem_vars_of_constructor s he hx)
  | isEmpty s => exact arg (.head _) (Term.mem_vars_of_constructor s he hx)
  | subset s u | setEq s u =>
    rcases List.mem_append.1 he with he | he
    · exact arg (.head _) (Term.mem_vars_of_constructor s he hx)
    · exact arg (.tail _ (.head _)) (Term.mem_vars_of_constructor u he hx)
  | pred => cases he

/-! ## Set relations that stand alone -/

/-- The formula is a set relation, or none occurs in it. -/
def Formula.Layered (f : Formula) : Prop :=
  f.isSetRelation = true ∨ f.Every (·.isSetRelation = false)

theorem Formula.layered_eliminate {x : String} {r : Term} {f : Formula} (hf : f.Layered) :
    (f.eliminate x r).Layered := by
  rcases hf with hf | hf
  · cases f with
    | atom a =>
      cases a with
      | isEmpty | subset | setEq => exact .inl rfl
      | eq | mem | pred => cases hf
    | _ => cases hf
  · refine .inr (every_eliminate hf fun a ha => every_ordinary_unfold ?_)
    cases a <;> first | rfl | exact ha

theorem Formula.every_ordinary_of_isRelevant {t : DecidabilityTable} {f : Formula}
    (h : f.isRelevant t false = true) : f.Every (·.isSetRelation = false) := by
  induction f with
  | top | bot => trivial
  | atom a =>
    cases a with
    | eq | mem | pred => rfl
    | isEmpty | subset | setEq => cases h
  | not f ih => exact ih h
  | connect c l r ihl ihr =>
    rw [isRelevant, Bool.and_eq_true] at h
    exact ⟨ihl h.1, ihr h.2⟩
  | all x f => cases h

/-- The fragment has set relations only at the top. -/
theorem Formula.layered_of_isRelevant {t : DecidabilityTable} {f : Formula}
    (h : f.isRelevant t true = true) : f.Layered := by
  cases f with
  | top | bot => exact .inr trivial
  | atom a =>
    cases a with
    | eq | mem | pred => exact .inr rfl
    | isEmpty | subset | setEq => exact .inl rfl
  | not f => exact .inr (every_ordinary_of_isRelevant (f := .not f) h)
  | connect c l r => exact .inr (every_ordinary_of_isRelevant (f := .connect c l r) h)
  | all x f => cases h

/-- An instance consists of memberships. -/
theorem Atom.every_ordinary_instance {a : Atom} {e : Term} {f : Formula}
    (h : a.instanceAt? e = some f) : f.Every (·.isSetRelation = false) := by
  cases a <;> cases h <;> simp [Formula.Every, isSetRelation]

namespace Sequent

variable {s : Sequent} {P Q : Atom → Prop} {stem : String} {maxRounds : Int}

theorem layered_substitute (h : ∀ f ∈ s.formulas, f.Layered) :
    ∀ f ∈ s.substitute.value.formulas, f.Layered :=
  forall_formulas.2 <| satisfies_substitute (fun _ _ _ _ _ _ => Formula.layered_eliminate)
    (fun _ _ _ _ _ _ => Formula.layered_eliminate) (forall_formulas.1 h)

/-- Once the goal is opened, it is no set relation, and the others still stand alone. -/
theorem layered_openGoal (h : ∀ f ∈ s.formulas, f.Layered) (stem : String) :
    (∀ f ∈ (s.openGoal stem).value.formulas, f.Layered) ∧
      (s.openGoal stem).value.goal.isSetRelation = false := by
  rcases openGoal_cases stem s with ⟨hg, ho⟩ | ⟨a, g, ha, hi, ho⟩ <;> rw [ho]
  · exact ⟨h, hg⟩
  · refine ⟨forall_formulas.2 ⟨(forall_formulas.1 h).1, ?_⟩, ?_⟩
    · exact .inr (Atom.every_ordinary_instance hi)
    · cases a <;> cases hi <;> rfl

/-- Without the set relations, what is left is unfolded. -/
theorem every_ground_of_layered (hl : ∀ f ∈ s.formulas, f.Layered)
    (hg : s.goal.isSetRelation = false) (he : s.Every P)
    (unfold : ∀ a, P a → a.isSetRelation = false → (Formula.atom a).unfold.Every Q) :
    s.ground.Every Q := by
  have unfolded {f : Formula} (hf : f ∈ s.formulas) (hr : f.isSetRelation = false) :
      f.unfold.Every Q := by
    have ordinary : f.Every (·.isSetRelation = false) := by
      rcases hl f hf with hl | hl
      · rw [hr] at hl; cases hl
      · exact hl
    exact Formula.every_unfold ((he f hf).and ordinary) fun a ha => unfold a ha.1 ha.2
  rw [ground, Sequent.unfold, value_mapFormulas, every_iff]
  refine ⟨?_, unfolded (mem_formulas.2 (.inr rfl)) hg⟩
  simp only [List.forall_mem_map, List.mem_filter]
  intro u hu
  exact unfolded (mem_formulas.2 (.inl ⟨u, hu.1, rfl⟩)) (by simpa using hu.2)

/-- **What the stage leaves is unfolded**: if `P` passes from set relations to their instances, and `Q`
holds of what atoms with `P` unfold to, then `Q` holds of all that is left. -/
theorem every_instantiate_of_layered {E : Term → Prop} (hl : ∀ f ∈ s.formulas, f.Layered)
    (he : (s.openGoal stem).value.Every P) (hQ : ∀ a, Q a → P a ∧ a.isSetRelation = false)
    (unfold : ∀ a, P a → a.isSetRelation = false → (Formula.atom a).unfold.Every Q)
    (elements : ∀ a, P a → ∀ e ∈ a.elementTerms, E e)
    (instances : ∀ a e f, P a → E e → a.instanceAt? e = some f → f.Every P) :
    (s.instantiate stem maxRounds).value.Every Q := by
  obtain ⟨ho, hg⟩ := layered_openGoal hl stem
  have universal {u : Hypothesis} (hu : u ∈ (s.openGoal stem).value.universals) :
      u.formula.Every P :=
    he _ (mem_formulas.2 (.inl ⟨u, (List.mem_filter.1 hu).1, rfl⟩))
  rw [value_instantiate]
  refine every_instanceRounds (E := E) ?unfold ?elements ?universal ?instances
    (every_ground_of_layered ho hg he unfold)
  case unfold =>
    intro f hf
    exact Formula.every_unfold hf fun a ha => unfold a (hQ a ha).1 (hQ a ha).2
  case elements =>
    intro a ha
    exact elements a (hQ a ha).1
  case universal =>
    intro u hu a ha
    exact elements a ((universal hu).of_mem_atoms ha)
  case instances =>
    intro u hu e f hterm hf
    have hu := universal hu
    unfold Formula.instanceAt? at hf
    split at hf
    · rename_i a ha
      rw [ha] at hu
      have hf := (instances a e f hu hterm hf).and (Atom.every_ordinary_instance hf)
      exact Formula.every_unfold hf fun b hb => unfold b hb.1 hb.2
    · cases hf

/-- Every name is used in its sort, and set relations stand alone. -/
structure Regular (σ : Sorts) (s : Sequent) : Prop where
  sorted : s.Every (Atom.Sorted σ)
  layered : ∀ f ∈ s.formulas, f.Layered

variable {σ : Sorts} {s : Sequent}

theorem Regular.substitute (h : s.Regular σ) : s.substitute.value.Regular σ :=
  ⟨every_sorted_substitute h.sorted, layered_substitute h.layered⟩

/-- Without the set relations, only simple atoms are left. -/
theorem Regular.every_ground (h : s.Regular σ) (hg : s.goal.isSetRelation = false) :
    s.ground.Every (Atom.Simple σ) :=
  every_ground_of_layered h.layered hg h.sorted fun _ => every_simple_unfold

end Sequent

/-! ## Sets without irrelevant members -/

namespace Model

namespace Value

/-- The set of the members that are in the list. -/
def restrict (vs : List Value) (v : Value) : Value := .ofList (v.members.filter (vs.contains ·))

theorem mem_members_restrict {vs : List Value} {v w : Value} :
    w ∈ (v.restrict vs).members ↔ w ∈ v.members ∧ w ∈ vs := by
  simp [restrict]

end Value

end Model

namespace Sorts

/-- The interpretation in which the sets keep only the members that are in the list. -/
def restrict (σ : Sorts) (vs : List Value) (I : Interpretation) : Interpretation :=
  σ.interpretation (fun x => (I.denote x).number) fun y => (I.denote y).restrict vs

variable {σ : Sorts} {I : Interpretation} {n : Nat} {vs : List Value}

section Restrict

variable (hI : I.Fits σ n)

include hI

theorem fits_restrict : (σ.restrict vs I).Fits σ n := by
  refine fits_interpretation (fun x hx => ?_) fun y hy => ?_
  · have hx := hI.elements x hx
    rw [Value.element_number hx]
    exact hx
  · exact Value.isSetBelow_ofList fun v hv => (hI.sets y hy).2 v (List.mem_filter.1 hv).1

theorem value_restrict {e : Term} (he : e.IsElement σ) : (σ.restrict vs I).value e = I.value e := by
  cases e with
  | var x =>
    rw [Interpretation.value, restrict, denote_element he, Value.element_number (hI.elements x he)]
    rfl
  | _ => exact he.elim

/-- **A set term keeps its members in the list**, if the elements it is made of are in the list. -/
theorem mem_members_restrict {w : Value} : (t : Term) → t.IsSet σ →
    (∀ e ∈ t.constructorElements, I.value e ∈ vs) →
    (w ∈ ((σ.restrict vs I).value t).members ↔ w ∈ (I.value t).members ∧ w ∈ vs)
  | .var y, ht, _ => by
    rw [Interpretation.value, restrict, denote_set ht, Value.mem_members_restrict]
    rfl
  | .app f args, ht, _ => ht.elim
  | .empty, _, _ => by simp [Interpretation.value]
  | .singleton e, ht, hv => by
    have he := hv e (List.mem_singleton_self e)
    rw [Interpretation.value, Interpretation.value, value_restrict hI ht]
    simp only [Value.mem_members_ofList, List.mem_singleton]
    exact ⟨fun h => ⟨h, h ▸ he⟩, fun h => h.1⟩
  | .add e s, ht, hv => by
    have he := hv e (.head _)
    have ih := mem_members_restrict (w := w) s ht.2 fun e he => hv e (.tail _ he)
    rw [Interpretation.value, Interpretation.value, value_restrict hI ht.1]
    simp only [Value.mem_members_join, Value.mem_members_ofList, List.mem_singleton, ih]
    grind
  | .remove e s, ht, hv => by
    have ih := mem_members_restrict (w := w) s ht.2 fun e he => hv e (.tail _ he)
    rw [Interpretation.value, Interpretation.value, value_restrict hI ht.1]
    simp only [Value.mem_members_minus, Value.mem_members_ofList, List.mem_singleton, ih]
    exact and_right_comm
  | .union s t, ht, hv => by
    have ihs := mem_members_restrict (w := w) s ht.1 fun e he => hv e (List.mem_append_left _ he)
    have iht := mem_members_restrict (w := w) t ht.2 fun e he => hv e (List.mem_append_right _ he)
    simp only [Interpretation.value, Value.mem_members_join, ihs, iht]
    exact or_and_right.symm
  | .inter s t, ht, hv => by
    have ihs := mem_members_restrict (w := w) s ht.1 fun e he => hv e (List.mem_append_left _ he)
    have iht := mem_members_restrict (w := w) t ht.2 fun e he => hv e (List.mem_append_right _ he)
    simp only [Interpretation.value, Value.mem_members_meet, ihs, iht]
    exact and_and_right.symm
  | .diff s t, ht, hv => by
    have ihs := mem_members_restrict (w := w) s ht.1 fun e he => hv e (List.mem_append_left _ he)
    have iht := mem_members_restrict (w := w) t ht.2 fun e he => hv e (List.mem_append_right _ he)
    simp only [Interpretation.value, Value.mem_members_minus, ihs, iht]
    grind

/-- Simple atoms about elements of the list stay as true as they are. -/
theorem truthAtom_restrict {a : Atom} (ha : a.Simple σ) (hv : ∀ e ∈ a.elementTerms, I.value e ∈ vs) :
    (σ.restrict vs I).truthAtom a = I.truthAtom a := by
  cases a with
  | eq l r =>
    rw [Interpretation.truthAtom, Interpretation.truthAtom, value_restrict hI ha.1,
      value_restrict hI ha.2]
  | mem e s =>
    have hs : s.IsSet σ := (Atom.Simple.sorted ha).2
    rw [Bool.eq_iff_iff, Interpretation.truthAtom, Interpretation.truthAtom, value_restrict hI ha.1,
      List.contains_iff_mem, List.contains_iff_mem,
      mem_members_restrict hI s hs fun e he => hv e (.tail _ he)]
    exact and_iff_left (hv e (.head _))
  | isEmpty | subset | setEq | pred => exact ha.elim

/-- A set relation states the same about the values of the list, and nothing about others. -/
theorem relates_restrict {a : Atom} (ha : a.Sorted σ) (hv : ∀ e ∈ a.elementTerms, I.value e ∈ vs)
    {w : Value} (h : w ∈ vs → I.Relates w a) : (σ.restrict vs I).Relates w a := by
  cases a with
  | isEmpty s =>
    rw [Interpretation.Relates, mem_members_restrict hI s ha hv]
    exact fun hw => h hw.2 hw.1
  | subset s t | setEq s t =>
    have hs := mem_members_restrict (w := w) hI s ha.1 fun e he => hv e (List.mem_append_left _ he)
    have ht := mem_members_restrict (w := w) hI t ha.2 fun e he => hv e (List.mem_append_right _ he)
    rw [Interpretation.Relates] at h ⊢
    rw [hs, ht]
    by_cases hw : w ∈ vs
    · simpa only [hw, and_true] using h hw
    · simp only [hw, and_false, false_implies]
  | eq | mem | pred => trivial

end Restrict

end Sorts

/-! ## Back over the instances -/

namespace Sequent

variable {σ : Sorts} {I : Interpretation} {s : Sequent} {n : Nat}

/-- The first round takes all element terms. -/
theorem mem_roundTerms_nil {us : List Hypothesis} {f : Formula}
    (hf : f ∈ s.formulas ∨ ∃ u ∈ us, u.formula = f) {a : Atom} (ha : a ∈ f.atoms) {e : Term}
    (he : e ∈ a.elementTerms) : e ∈ roundTerms us [] s := by
  refine List.mem_filter.2 ⟨mem_relevantElements.2 ⟨f, ?_, a, ha, he⟩, by simp⟩
  rw [mem_formulas] at hf ⊢
  rcases hf with (⟨h, hh, rfl⟩ | rfl) | ⟨u, hu, rfl⟩
  · exact .inl ⟨h, List.mem_append_left _ hh, rfl⟩
  · exact .inr rfl
  · exact .inl ⟨u, List.mem_append_right _ hu, rfl⟩

/-- After one round or more, every instance at the terms of the first round is true. -/
theorem truth_of_instanceRounds {us : List Hypothesis} {rounds : Nat} {done : List Term}
    (h : I.Refutes (instanceRounds us (rounds + 1) done s).value) {u : Hypothesis} (hu : u ∈ us)
    {e : Term} (he : e ∈ roundTerms us done s) {f : Formula}
    (hf : u.formula.instanceAt? e = some f) : I.truth f = true := by
  rw [value_instanceRounds_succ] at h
  split at h
  · rename_i hn
    rw [List.isEmpty_iff.1 hn] at he
    cases he
  · have hr := refutes_unfold.1 (refutes_of_instanceRounds h)
    obtain ⟨g, hg, hform⟩ := exists_roundInstances hu he hf
    have ht := (refutes_iff.1 hr).1 g hg
    rwa [hform, Interpretation.truth_unfold] at ht

/-- A set relation holds of the sets without irrelevant members if its instances at the relevant
elements are true. -/
theorem truthAtom_restrict_relation {a : Atom} (ha : a.Sorted σ) (hr : a.isSetRelation = true)
    (hI : I.Fits σ n) {terms : List Term} (ht : ∀ e ∈ a.elementTerms, e ∈ terms)
    (h : ∀ e ∈ terms, ∀ f, a.instanceAt? e = some f → I.truth f = true) :
    (σ.restrict (terms.map I.value) I).truthAtom a = true := by
  have hJ : (σ.restrict (terms.map I.value) I).Fits σ n := Sorts.fits_restrict hI
  refine Interpretation.truthAtom_of_relates hr (fun u hu => (hJ.isSetBelow u (ha.isSet hu)).1)
    fun w => Sorts.relates_restrict hI ha (fun e he => List.mem_map_of_mem (ht e he)) fun hw => ?_
  obtain ⟨e, he, rfl⟩ := List.mem_map.1 hw
  obtain ⟨f, hf⟩ := a.exists_instance hr e
  exact (Interpretation.truth_instance hf).1 (h e he f hf)

/-- **One round is enough**: where the instances at the element terms are true, the set relations are
true of the sets without irrelevant members, and all else is as it was. -/
theorem refutes_of_instanceRounds_ground (hs : s.Regular σ) (hg : s.goal.isSetRelation = false)
    (hI : I.Fits σ n) {rounds : Nat}
    (h : I.Refutes (instanceRounds s.universals (rounds + 1) [] s.ground).value) :
    ∃ J : Interpretation, J.Fits σ n ∧ J.Refutes s := by
  let terms := roundTerms s.universals [] s.ground
  let J := σ.restrict (terms.map I.value) I
  refine ⟨J, Sorts.fits_restrict hI, refutes_iff_ground.2 ⟨fun u hu => ?_, ?_⟩⟩
  -- The set relations: no member is left that is not the value of some term.
  · obtain ⟨hm, hr⟩ := List.mem_filter.1 hu
    have hsorted := hs.sorted _ (mem_formulas.2 (.inl ⟨u, hm, rfl⟩))
    cases hform : u.formula with
    | atom a =>
      rw [hform] at hsorted hr
      refine truthAtom_restrict_relation hsorted hr hI (fun e he => ?_) fun e he f hf => ?_
      · exact mem_roundTerms_nil (.inr ⟨u, hu, hform⟩) (List.mem_singleton_self a) he
      · exact truth_of_instanceRounds h hu he (by rw [hform]; exact hf)
    | _ => rw [hform] at hr; cases hr
  -- All other formulas speak about values of terms only.
  · have hground := hs.every_ground hg
    have same : ∀ f ∈ s.ground.formulas, J.truth f = I.truth f := by
      intro f hf
      have he := hground f hf
      refine Interpretation.truth_of_atoms (Formula.every_of_atoms (he.imp fun _ _ => trivial) ?_)
      intro a ha
      exact Sorts.truthAtom_restrict hI (he.of_mem_atoms ha) fun e hterm =>
        List.mem_map_of_mem (mem_roundTerms_nil (.inl hf) ha hterm)
    obtain ⟨hf, hgoal⟩ := refutes_of_instanceRounds h
    refine ⟨fun f hm => ?_, ?_⟩
    · rw [same f (List.mem_append_left _ hm)]
      exact hf f hm
    · rw [same _ (List.mem_append_right _ (List.mem_singleton_self _))]
      exact hgoal

end Sequent

/-! ## The fresh element name -/

/-- The sorts in which `z` is an element name. -/
def Sorts.withElement (σ : Sorts) (z : String) : Sorts where
  elements := z :: σ.elements
  sets := σ.sets.filter (· ≠ z)
  disjoint := by
    intro x hx hs
    obtain ⟨hs, hz⟩ := List.mem_filter.1 hs
    rcases List.mem_cons.1 hx with rfl | hx
    · simp at hz
    · exact σ.disjoint x hx hs

section WithElement

variable {σ : Sorts} {z : String}

theorem Term.IsElement.withElement {t : Term} (ht : t.IsElement σ) :
    t.IsElement (σ.withElement z) := by
  cases t with
  | var x => exact .tail _ ht
  | _ => exact ht.elim

theorem Term.isSet_withElement : (t : Term) → t.IsSet σ → z ∉ t.vars → t.IsSet (σ.withElement z)
  | .var y, ht, hz => by
    have hy : y ≠ z := fun h => hz (h ▸ List.mem_singleton_self y)
    exact List.mem_filter.2 ⟨ht, by simpa using hy⟩
  | .app f args, ht, _ => ht.elim
  | .empty, _, _ => trivial
  | .singleton e, ht, _ => Term.IsElement.withElement (t := e) ht
  | .add e s, ht, hz | .remove e s, ht, hz =>
    ⟨ht.1.withElement, isSet_withElement s ht.2 fun h => hz (List.mem_append_right _ h)⟩
  | .union s t, ht, hz | .inter s t, ht, hz | .diff s t, ht, hz =>
    ⟨isSet_withElement s ht.1 fun h => hz (List.mem_append_left _ h),
      isSet_withElement t ht.2 fun h => hz (List.mem_append_right _ h)⟩

/-- An atom without the new name keeps its sorts. -/
theorem Atom.Sorted.withElement {a : Atom} (ha : a.Sorted σ) (hz : z ∉ a.vars) :
    a.Sorted (σ.withElement z) := by
  have args (t : Term) (ht : t ∈ a.args) : z ∉ t.vars := fun h =>
    hz (List.mem_flatMap.2 ⟨t, ht, h⟩)
  cases a with
  | eq l r => exact ⟨Term.IsElement.withElement ha.1, Term.IsElement.withElement ha.2⟩
  | mem e s => exact ⟨Term.IsElement.withElement ha.1, s.isSet_withElement ha.2 (args s (by simp [Atom.args]))⟩
  | isEmpty s => exact s.isSet_withElement ha (args s (by simp [Atom.args]))
  | subset s t | setEq s t =>
    exact ⟨s.isSet_withElement ha.1 (args s (by simp [Atom.args])),
      t.isSet_withElement ha.2 (args t (by simp [Atom.args]))⟩
  | pred p args => exact ha.elim

/-- An instance at an element name consists of sorted memberships. -/
theorem every_sorted_instance {a : Atom} (ha : a.Sorted σ) {e : Term} (he : e.IsElement σ)
    {f : Formula} (h : a.instanceAt? e = some f) : f.Every (Atom.Sorted σ) := by
  cases a with
  | isEmpty s => cases h; exact ⟨he, ha⟩
  | subset s t | setEq s t => cases h; exact ⟨⟨he, ha.1⟩, he, ha.2⟩
  | eq | mem | pred => cases h

/-- The name gives up its sort for the one that the other sorts have for it. -/
theorem Model.Interpretation.Fits.withoutElement {I : Interpretation} {n : Nat}
    (h : I.Fits (σ.withElement z) n) : ∃ J : Interpretation, J.Fits σ n ∧ J.Agrees I (· ≠ z) := by
  have elements (x : String) (hx : x ∈ σ.elements) : (I.denote x).IsElementBelow n :=
    h.elements x (.tail _ hx)
  have sets (y : String) (hy : y ∈ σ.sets) (hz : y ≠ z) : (I.denote y).IsSetBelow n :=
    h.sets y (List.mem_filter.2 ⟨hy, by simpa using hz⟩)
  -- A set name that was eliminated before may return as the fresh element name.
  by_cases hz : z ∈ σ.sets
  · refine ⟨I.assign z (.ofList []), ?_, agrees_assign I z _⟩
    refine ⟨fun x hx => ?_, fun y hy => ?_, by rw [functions_assign, h.functions],
      by rw [predicates_assign, h.predicates]⟩
    · have hne : x ≠ z := fun he => σ.disjoint x hx (he ▸ hz)
      rw [denote_assign, if_neg hne]
      exact elements x hx
    · rw [denote_assign]
      split
      · exact Value.isSetBelow_ofList (by simp)
      · rename_i hne
        exact sets y hy hne
  · refine ⟨I, ⟨elements, fun y hy => sets y hy fun he => hz (he ▸ hy), h.functions, h.predicates⟩,
      rfl, rfl, fun _ _ => rfl⟩

end WithElement

/-! ## Back over the stage -/

namespace Sequent

variable {σ : Sorts} {I : Interpretation} {s : Sequent} {n : Nat} {stem : String} {maxRounds : Int}

theorem Regular.withElement (h : s.Regular σ) (stem : String) :
    s.Regular (σ.withElement (s.freshVariable stem)) := by
  refine ⟨fun f hf => ?_, h.layered⟩
  have he := h.sorted f hf
  refine Formula.every_of_atoms (he.imp fun _ _ => trivial) fun a ha => ?_
  exact (he.of_mem_atoms ha).withElement fun hz => freshVariable_not_mem hf (he.mem_freeVars ha hz)

/-- The opened sequent is regular, and its goal is no set relation. -/
theorem Regular.openGoal (h : s.Regular σ) (stem : String) :
    (s.openGoal stem).value.Regular (σ.withElement (s.freshVariable stem)) ∧
      (s.openGoal stem).value.goal.isSetRelation = false := by
  obtain ⟨layered, hg⟩ := layered_openGoal h.layered stem
  refine ⟨⟨?_, layered⟩, hg⟩
  have hw := h.withElement stem
  rcases openGoal_cases stem s with ⟨_, ho⟩ | ⟨a, g, ha, hi, ho⟩ <;> rw [ho]
  · exact hw.sorted
  · obtain ⟨hh, hgoal⟩ := every_iff.1 hw.sorted
    rw [ha] at hgoal
    exact every_iff.2 ⟨hh, every_sorted_instance hgoal (e := .var (s.freshVariable stem)) (.head _) hi⟩

/-- Instances have simple atoms only. -/
theorem Regular.every_instantiate (h : s.Regular σ) :
    (s.instantiate stem maxRounds).value.Every
      (Atom.Simple (σ.withElement (s.freshVariable stem))) :=
  every_instantiate_of_layered h.layered (h.openGoal stem).1.sorted
    (fun _ ha => ⟨ha.sorted, ha.ordinary⟩) (fun _ => every_simple_unfold)
    (fun _ ha _ => ha.isElement) fun _ _ _ ha he => every_sorted_instance ha he

/-- **A countermodel of the instances that fits is carried back**: the sets lose their irrelevant
members, and the fresh name is forgotten. -/
theorem refutes_of_instantiate (h : s.Regular σ) (hm : 1 ≤ maxRounds)
    (hI : I.Fits (σ.withElement (s.freshVariable stem)) n)
    (hr : I.Refutes (s.instantiate stem maxRounds).value) :
    ∃ J : Interpretation, J.Fits σ n ∧ J.Refutes s := by
  obtain ⟨ho, hg⟩ := h.openGoal stem
  obtain ⟨rounds, hrounds⟩ : ∃ rounds, maxRounds.toNat = rounds + 1 :=
    Nat.exists_eq_succ_of_ne_zero (by omega)
  rw [value_instantiate, hrounds] at hr
  obtain ⟨J, hJ, hr⟩ := refutes_of_instanceRounds_ground ho hg hI hr
  obtain ⟨K, hK, agrees⟩ := hJ.withoutElement
  refine ⟨K, hK, (refutes_congr (h.sorted.imp fun _ _ => trivial) fun f hf => ?_).2
    (refutes_of_openGoal hr)⟩
  exact agrees.imp fun x hx he => freshVariable_not_mem hf (he ▸ hx)

end Sequent

end SetSequent
