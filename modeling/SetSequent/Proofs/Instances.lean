import SetSequent.Proofs.Stages

/-!
# Countermodels through the instances

* `exists_not_relates`, `refutes_openGoal_assign` — a countermodel of a set relation gives the fresh
  variable a value at which the relation fails.
* `eq_of_mem_roundInstances`, `exists_roundInstances` — what a round adds, and that it leaves out nothing.
* `refutes_instanceRounds`, `refutes_of_instanceRounds` — rounds keep the models of the set relations,
  and only add hypotheses.
-/

namespace SetSequent

open Model

/-! ## Opening the goal -/

theorem Atom.isSetRelation_of_instance {a : Atom} {e : Term} {f : Formula}
    (h : a.instanceAt? e = some f) : a.isSetRelation = true := by
  cases a <;> first | rfl | cases h

theorem Atom.exists_instance {a : Atom} (h : a.isSetRelation = true) (e : Term) :
    ∃ f, a.instanceAt? e = some f := by
  cases a <;> first | exact ⟨_, rfl⟩ | cases h

theorem Atom.every_instance {a : Atom} {e : Term} {f : Formula} (h : a.instanceAt? e = some f) :
    f.Every fun _ => True := by
  cases a <;> cases h <;> simp [Formula.Every]

namespace Sequent

variable {I : Interpretation} {s : Sequent} {P : Atom → Prop} {stem : String}

theorem freshVariable_not_mem {f : Formula} (hf : f ∈ s.formulas) :
    s.freshVariable stem ∉ f.freeVars := fun h =>
  fresh_not_mem _ _ (List.mem_flatMap.2 ⟨f, hf, Formula.mem_vars_of_mem_freeVars h⟩)

/-- A goal that is a set relation is opened, and any other stays. -/
theorem openGoal_cases (stem : String) (s : Sequent) :
    s.goal.isSetRelation = false ∧ (s.openGoal stem).value = s ∨
      ∃ a g, s.goal = .atom a ∧ a.instanceAt? (.var (s.freshVariable stem)) = some g ∧
        (s.openGoal stem).value = { s with goal := g } := by
  unfold openGoal
  dsimp only
  split
  · rename_i hn
    refine .inl ⟨?_, rfl⟩
    cases hs : s.goal with
    | atom a =>
      rw [hs] at hn
      cases a <;> first | rfl | cases hn
    | _ => rfl
  · rename_i g hg
    unfold Formula.instanceAt? at hg
    split at hg
    · rename_i a ha
      exact .inr ⟨a, g, ha, hg, rfl⟩
    · cases hg

theorem every_openGoal (he : s.Every fun _ => True) :
    (s.openGoal stem).value.Every fun _ => True := by
  rcases openGoal_cases stem s with ⟨_, h⟩ | ⟨a, g, _, hi, h⟩ <;> rw [h]
  · exact he
  · exact every_iff.2 ⟨(every_iff.1 he).1, Atom.every_instance hi⟩

/-- If the goal is a relation between sets that is false, it is false about one value. -/
theorem exists_not_relates (hs : I.RelatesSets s.goal) (h : I.Refutes s) :
    ∃ w, ∀ a, s.goal = .atom a → a.isSetRelation = true → ¬ I.Relates w a := by
  by_cases hg : ∃ a, s.goal = .atom a ∧ a.isSetRelation = true
  · obtain ⟨a, ha, hr⟩ := hg
    have hfalse : I.truthAtom a = false := by simpa [ha, Interpretation.truth] using h.2
    obtain ⟨w, hw⟩ : ∃ w, ¬ I.Relates w a := Classical.not_forall.1 fun hall => by
      rw [Interpretation.truthAtom_of_relates hr (hs a ha hr) hall] at hfalse
      cases hfalse
    refine ⟨w, fun b hb _ => ?_⟩
    cases ha.symm.trans hb
    exact hw
  · exact ⟨.ofList [], fun a ha hr => absurd ⟨a, ha, hr⟩ hg⟩

/-- The fresh variable can denote a value about which the goal is false. -/
theorem refutes_openGoal_assign (stem : String) (he : s.Every fun _ => True) (h : I.Refutes s)
    {w : Value} (hw : ∀ a, s.goal = .atom a → a.isSetRelation = true → ¬ I.Relates w a) :
    (I.assign (s.freshVariable stem) w).Refutes (s.openGoal stem).value := by
  -- The fresh name occurs nowhere in the sequent, so its new value changes nothing there.
  let z := s.freshVariable stem
  have agrees (f : Formula) (hf : f ∈ s.formulas) :
      (I.assign z w).Agrees I (· ∈ f.freeVars) :=
    (Interpretation.agrees_assign I z w).imp fun x hx he => freshVariable_not_mem hf (he ▸ hx)
  have hr : (I.assign z w).Refutes s := (refutes_congr he agrees).2 h
  rcases openGoal_cases stem s with ⟨_, ho⟩ | ⟨a, g, ha, hi, ho⟩ <;> rw [ho]
  · exact hr
  · have hz : (I.assign z w).value (.var z) = w := by
      simp [Interpretation.value, Interpretation.denote_assign]
    refine ⟨hr.1, Bool.eq_false_iff.2 fun hg => hw a ha (Atom.isSetRelation_of_instance hi) ?_⟩
    have hg := (Interpretation.truth_instance hi).1 hg
    rw [hz] at hg
    exact (Interpretation.relates_congr (agrees (.atom a) (mem_formulas.2 (.inr ha.symm))) w).1 hg

/-- A set relation that is false is false about one value, and the fresh variable can denote it. -/
theorem refutes_openGoal (stem : String) (he : s.Every fun _ => True) (hs : I.RelatesSets s.goal)
    (h : I.Refutes s) : ∃ J : Interpretation, J.Refutes (s.openGoal stem).value := by
  obtain ⟨w, hw⟩ := exists_not_relates hs h
  exact ⟨_, refutes_openGoal_assign stem he h hw⟩

/-- A set relation with a false instance is false. -/
theorem refutes_of_openGoal (h : I.Refutes (s.openGoal stem).value) : I.Refutes s := by
  rcases openGoal_cases stem s with ⟨_, ho⟩ | ⟨a, g, ha, hi, ho⟩ <;> rw [ho] at h
  · exact h
  · refine ⟨h.1, Bool.eq_false_iff.2 fun hg => Bool.eq_false_iff.1 h.2 ?_⟩
    rw [ha] at hg
    exact (Interpretation.truth_instance hi).2 (Interpretation.relates_of_truthAtom hg _)

/-! ## Instances -/

theorem mem_newInstances {known : List Formula} {pairs : List (Hypothesis × Term)} {h : Hypothesis}
    (hh : h ∈ (newInstances known pairs).value) :
    ∃ u e f, (u, e) ∈ pairs ∧ u.formula.instanceAt? e = some f ∧
      h = { name := u.name ++ "[" ++ e.text ++ "]", formula := f.unfold } := by
  induction pairs generalizing known with
  | nil => cases hh
  | cons p rest ih =>
    have later {known : List Formula} (hh : h ∈ (newInstances known rest).value) :
        ∃ u e f, (u, e) ∈ p :: rest ∧ u.formula.instanceAt? e = some f ∧
          h = { name := u.name ++ "[" ++ e.text ++ "]", formula := f.unfold } := by
      obtain ⟨u, e, f, hm, hf⟩ := ih hh
      exact ⟨u, e, f, .tail _ hm, hf⟩
    obtain ⟨u, e⟩ := p
    rw [newInstances] at hh
    split at hh
    · exact later hh
    · rename_i f hf
      split at hh
      · exact later hh
      · rcases List.mem_cons.1 hh with rfl | hh
        · exact ⟨u, e, f, .head _, hf, rfl⟩
        · exact later hh

/-- Every instance is known or added. -/
theorem exists_newInstances {known : List Formula} {pairs : List (Hypothesis × Term)}
    {u : Hypothesis} {e : Term} {f : Formula} (hp : (u, e) ∈ pairs)
    (hf : u.formula.instanceAt? e = some f) :
    f.unfold ∈ known ∨ ∃ h ∈ (newInstances known pairs).value, h.formula = f.unfold := by
  induction pairs generalizing known with
  | nil => cases hp
  | cons p rest ih =>
    obtain ⟨u', e'⟩ := p
    rw [newInstances]
    rcases List.mem_cons.1 hp with he | hp
    · cases he
      simp only [hf]
      split
      · rename_i hk
        exact .inl (List.contains_iff_mem.1 hk)
      · exact .inr ⟨_, .head _, rfl⟩
    · split
      · exact ih hp
      · rename_i f' _
        split
        · exact ih hp
        · rcases @ih (f'.unfold :: known) hp with hk | ⟨h, hh, he⟩
          · rcases List.mem_cons.1 hk with he | hk
            · exact .inr ⟨_, .head _, he.symm⟩
            · exact .inl hk
          · exact .inr ⟨h, .tail _ hh, he⟩

/-- The hypotheses that a round adds, and the element terms it adds them for. -/
def roundTerms (universals : List Hypothesis) (done : List Term) (s : Sequent) : List Term :=
  ({ s with hypotheses := s.hypotheses ++ universals } : Sequent).relevantElements.filter
    (!done.contains ·)

def roundInstances (universals : List Hypothesis) (done : List Term) (s : Sequent) :
    List Hypothesis :=
  (newInstances s.facts
    (universals.flatMap fun u => (roundTerms universals done s).map (u, ·))).value

theorem value_instanceRounds_succ (universals : List Hypothesis) (rounds : Nat) (done : List Term)
    (s : Sequent) :
    (instanceRounds universals (rounds + 1) done s).value =
      if (roundTerms universals done s).isEmpty then s
      else (instanceRounds universals rounds (done ++ roundTerms universals done s)
        (Sequent.unfold
          { s with hypotheses := s.hypotheses ++ roundInstances universals done s }).value).value := by
  rw [instanceRounds]
  split
  · rename_i h
    rw [if_pos (by exact h)]; rfl
  · rename_i h
    rw [if_neg (by exact h)]; rfl

section Rounds

variable {universals : List Hypothesis}

theorem eq_of_mem_roundInstances {done : List Term} {h : Hypothesis}
    (hh : h ∈ roundInstances universals done s) :
    ∃ u ∈ universals, ∃ e ∈ roundTerms universals done s, ∃ f, u.formula.instanceAt? e = some f ∧
      h = { name := u.name ++ "[" ++ e.text ++ "]", formula := f.unfold } := by
  obtain ⟨u, e, f, hp, hf⟩ := mem_newInstances hh
  simp only [List.mem_flatMap, List.mem_map, Prod.mk.injEq] at hp
  obtain ⟨u', hu, e', he, rfl, rfl⟩ := hp
  exact ⟨u', hu, e', he, f, hf⟩

theorem mem_roundInstances {done : List Term} {h : Hypothesis}
    (hh : h ∈ roundInstances universals done s) :
    h.injected = false ∧ ∃ u ∈ universals, ∃ e ∈ roundTerms universals done s, ∃ f,
      u.formula.instanceAt? e = some f ∧ h.formula = f.unfold := by
  obtain ⟨u, hu, e, he, f, hf, rfl⟩ := eq_of_mem_roundInstances hh
  exact ⟨rfl, u, hu, e, he, f, hf, rfl⟩

theorem exists_roundInstances {done : List Term} {u : Hypothesis} (hu : u ∈ universals) {e : Term}
    (he : e ∈ roundTerms universals done s) {f : Formula} (hf : u.formula.instanceAt? e = some f) :
    ∃ h ∈ s.hypotheses ++ roundInstances universals done s, h.formula = f.unfold := by
  have hp : (u, e) ∈ universals.flatMap fun u => (roundTerms universals done s).map (u, ·) :=
    List.mem_flatMap.2 ⟨u, hu, List.mem_map_of_mem he⟩
  rcases exists_newInstances hp hf with hk | ⟨h, hh, he⟩
  · obtain ⟨h, hh, he⟩ := List.mem_map.1 hk
    exact ⟨h, List.mem_append_left _ hh, he⟩
  · exact ⟨h, List.mem_append_right _ hh, he⟩

/-- An instance of a true set relation is true. -/
theorem truth_roundInstances (hu : ∀ u ∈ universals, I.truth u.formula = true) {done : List Term}
    {h : Hypothesis} (hh : h ∈ roundInstances universals done s) : I.truth h.formula = true := by
  obtain ⟨_, u, hm, e, _, f, hf, he⟩ := mem_roundInstances hh
  rw [he, Interpretation.truth_unfold]
  unfold Formula.instanceAt? at hf
  split at hf
  · rename_i a ha
    have := hu u hm
    rw [ha] at this
    exact (Interpretation.truth_instance hf).2 (Interpretation.relates_of_truthAtom this _)
  · cases hf

theorem refutes_append {hs : List Hypothesis} :
    I.Refutes { s with hypotheses := s.hypotheses ++ hs } ↔
      I.Refutes s ∧ ∀ h ∈ hs, I.truth h.formula = true := by
  simp only [refutes_iff, List.forall_mem_append]
  exact and_right_comm

theorem every_append {hs : List Hypothesis} :
    Sequent.Every P { s with hypotheses := s.hypotheses ++ hs } ↔
      s.Every P ∧ ∀ h ∈ hs, h.formula.Every P := by
  simp only [every_iff, List.forall_mem_append]
  exact and_right_comm

/-- Rounds only add hypotheses. -/
theorem refutes_of_instanceRounds {rounds : Nat} {done : List Term}
    (h : I.Refutes (instanceRounds universals rounds done s).value) : I.Refutes s := by
  induction rounds generalizing done s with
  | zero => exact h
  | succ rounds ih =>
    rw [value_instanceRounds_succ] at h
    split at h
    · exact h
    · exact (refutes_append.1 (refutes_unfold.1 (ih h))).1

/-- What rounds add is true if the set relations are. -/
theorem refutes_instanceRounds {rounds : Nat} {done : List Term}
    (hu : ∀ u ∈ universals, I.truth u.formula = true) (h : I.Refutes s) :
    I.Refutes (instanceRounds universals rounds done s).value := by
  induction rounds generalizing done s with
  | zero => exact h
  | succ rounds ih =>
    rw [value_instanceRounds_succ]
    split
    · exact h
    · exact ih (refutes_unfold.2 (refutes_append.2 ⟨h, fun _ => truth_roundInstances hu⟩))

theorem mem_relevantElements {e : Term} :
    e ∈ s.relevantElements ↔ ∃ f ∈ s.formulas, ∃ a ∈ f.atoms, e ∈ a.elementTerms := by
  simp [relevantElements, Formula.elementTerms]

/-- Rounds keep a property of atoms if it holds of the instances at all element terms in play. -/
theorem every_instanceRounds {E : Term → Prop} {rounds : Nat} {done : List Term}
    (unfold : ∀ f : Formula, f.Every P → f.unfold.Every P)
    (elements : ∀ a, P a → ∀ e ∈ a.elementTerms, E e)
    (universal : ∀ u ∈ universals, ∀ a ∈ u.formula.atoms, ∀ e ∈ a.elementTerms, E e)
    (instances : ∀ u ∈ universals, ∀ e f, E e → u.formula.instanceAt? e = some f →
      f.unfold.Every P) (he : s.Every P) :
    (instanceRounds universals rounds done s).value.Every P := by
  induction rounds generalizing done s with
  | zero => exact he
  | succ rounds ih =>
    rw [value_instanceRounds_succ]
    split
    · exact he
    · refine ih (every_mapFormulas (every_append.2 ⟨he, fun h hh => ?_⟩) unfold)
      obtain ⟨_, u, hu, e, hterm, f, hf, hform⟩ := mem_roundInstances hh
      rw [hform]
      refine instances u hu e f ?_ hf
      obtain ⟨g, hg, a, ha, hea⟩ := mem_relevantElements.1 (List.mem_filter.1 hterm).1
      rcases mem_formulas.1 hg with ⟨h, hh, rfl⟩ | rfl
      · rcases List.mem_append.1 hh with hh | hh
        · exact elements a (((every_iff.1 he).1 h hh).of_mem_atoms ha) e hea
        · exact universal h hh a ha e hea
      · exact elements a ((every_iff.1 he).2.of_mem_atoms ha) e hea

end Rounds

/-! ## The stage -/

/-- The set relations among the hypotheses. -/
def universals (s : Sequent) : List Hypothesis := s.hypotheses.filter (·.formula.isSetRelation)

/-- The sequent without its set relations, unfolded. -/
def ground (s : Sequent) : Sequent :=
  (Sequent.unfold { s with hypotheses := s.hypotheses.filter (!·.formula.isSetRelation) }).value

theorem value_instantiate (stem : String) (maxRounds : Int) (s : Sequent) :
    (s.instantiate stem maxRounds).value =
      (instanceRounds (s.openGoal stem).value.universals maxRounds.toNat []
        (s.openGoal stem).value.ground).value := rfl

theorem refutes_iff_ground :
    I.Refutes s ↔ (∀ u ∈ s.universals, I.truth u.formula = true) ∧ I.Refutes s.ground := by
  rw [ground, refutes_unfold]
  simp only [refutes_iff, universals, List.mem_filter]
  constructor
  · rintro ⟨hh, hg⟩
    exact ⟨fun u hu => hh u hu.1, fun h hm => hh h hm.1, hg⟩
  · rintro ⟨hu, hh, hg⟩
    refine ⟨fun h hm => ?_, hg⟩
    cases hr : h.formula.isSetRelation with
    | true => exact hu h ⟨hm, hr⟩
    | false => exact hh h ⟨hm, by simp [hr]⟩

theorem every_ground (he : s.Every fun _ => True) : s.ground.Every fun _ => True := by
  refine every_unfold (every_iff.2 ⟨fun h hh => ?_, (every_iff.1 he).2⟩)
  exact (every_iff.1 he).1 h (List.mem_filter.1 hh).1

theorem every_instantiate {maxRounds : Int} (he : s.Every fun _ => True) :
    (s.instantiate stem maxRounds).value.Every fun _ => True := by
  rw [value_instantiate]
  refine every_instanceRounds (E := fun _ => True) ?unfold ?elements ?universal ?instances
    (every_ground (every_openGoal he))
  case unfold =>
    intro f hf
    exact Formula.every_unfold hf fun _ _ => Formula.every_unfold_atom _
  case elements => exact fun _ _ _ _ => trivial
  case universal => exact fun _ _ _ _ _ _ => trivial
  case instances =>
    intro u _ e f _ hf
    unfold Formula.instanceAt? at hf
    split at hf
    · exact Formula.every_unfold (Atom.every_instance hf) fun _ _ => Formula.every_unfold_atom _
    · cases hf

/-- The stage keeps the countermodels of the opened sequent. -/
theorem refutes_instantiate_of_openGoal (maxRounds : Int) (h : I.Refutes (s.openGoal stem).value) :
    I.Refutes (s.instantiate stem maxRounds).value := by
  obtain ⟨hu, hg⟩ := refutes_iff_ground.1 h
  exact refutes_instanceRounds hu hg

/-- A countermodel between sets gives rise to one of the instances. -/
theorem refutes_instantiate (stem : String) (maxRounds : Int) (he : s.Every fun _ => True)
    (hs : I.RelatesSets s.goal) (h : I.Refutes s) :
    ∃ J : Interpretation, J.Refutes (s.instantiate stem maxRounds).value := by
  obtain ⟨J, hJ⟩ := refutes_openGoal stem he hs h
  exact ⟨J, refutes_instantiate_of_openGoal maxRounds hJ⟩

theorem Asserted.instanceRounds (h : s.Asserted) (us : List Hypothesis) (rounds : Nat)
    (done : List Term) : (instanceRounds us rounds done s).value.Asserted := by
  induction rounds generalizing done s with
  | zero => exact h
  | succ rounds ih =>
    rw [value_instanceRounds_succ]
    split
    · exact h
    · refine ih (Asserted.mapFormulas (fun g hg => ?_) _ _) _
      rcases List.mem_append.1 hg with hg | hg
      · exact h g hg
      · exact (mem_roundInstances hg).1

theorem Asserted.instantiate (h : s.Asserted) (stem : String) (maxRounds : Int) :
    (s.instantiate stem maxRounds).value.Asserted := by
  have opened : (s.openGoal stem).value.Asserted := by
    rcases openGoal_cases stem s with ⟨_, ho⟩ | ⟨a, g, _, _, ho⟩ <;> rw [ho] <;> exact h
  rw [value_instantiate]
  refine Asserted.instanceRounds (Asserted.mapFormulas (fun g hg => ?_) _ _) _ _ _
  exact opened g (List.mem_filter.1 hg).1

end Sequent

end SetSequent
