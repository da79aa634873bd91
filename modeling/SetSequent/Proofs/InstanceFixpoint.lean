import SetSequent.Proofs.UnfoldedForm

/-!
# The instances are complete after one round

A round adds instances at all element terms in play. The memberships of an instance are unfolded, which
brings equations between its element and the elements inside the sets of the relation. All of these were
in play before, so the next round finds no new terms, and no number of rounds gives more than one round.

* `elementTerms_unfoldMember`, `elementTerms_instance` — the element terms of an unfolded instance.
* `Sequent.round`, `value_instanceRounds_one` — one round on an unfolded sequent only adds instances.
* `mem_roundTerms_of_round` — the terms in play do not change.
* `instanceRounds_succ_eq_one` — further rounds do nothing, and note nothing.
* `instantiate_fixpoint` — what the stage returns.
-/

namespace SetSequent

/-! ## Element terms of an instance -/

theorem elementTerms_equation {l r t : Term} (h : t ∈ (Atom.eq l r).orient.elementTerms) :
    t = l ∨ t = r := by
  rw [Atom.orient] at h
  split at h
  · exact (by simpa [Atom.elementTerms] using h : t = r ∨ t = l).symm
  · simpa [Atom.elementTerms] using h

/-- Unfolding a membership brings no element terms. -/
theorem elementTerms_unfoldMember {e s t : Term} {a : Atom} (ha : a ∈ (unfoldMember e s).atoms)
    (ht : t ∈ a.elementTerms) : t = e ∨ t ∈ s.constructorElements := by
  induction s using unfoldMember.induct with
  | case1 | case2 =>
    obtain rfl := List.mem_singleton.1 ha
    exact .inl (List.mem_singleton.1 ht)
  | case3 => cases ha
  | case4 b =>
    obtain rfl := List.mem_singleton.1 ha
    exact (elementTerms_equation ht).imp_right List.mem_singleton.2
  | case5 b s ih | case6 b s ih =>
    simp only [Term.constructorElements, List.mem_cons]
    rcases List.mem_append.1 ha with ha | ha
    · obtain rfl := List.mem_singleton.1 ha
      exact (elementTerms_equation ht).imp_right .inl
    · exact (ih ha).imp_right .inr
  | case7 s u ihs ihu | case8 s u ihs ihu | case9 s u ihs ihu =>
    simp only [Term.constructorElements, List.mem_append]
    rcases List.mem_append.1 ha with ha | ha
    · exact (ihs ha).imp_right .inl
    · exact (ihu ha).imp_right .inr

/-- The element terms of an instance are its element and those of the relation. -/
theorem elementTerms_instance {u a : Atom} {e t : Term} {f : Formula} (h : u.instanceAt? e = some f)
    (ha : a ∈ f.unfold.atoms) (ht : t ∈ a.elementTerms) : t = e ∨ t ∈ u.elementTerms := by
  cases u with
  | isEmpty s =>
    cases h
    exact elementTerms_unfoldMember ha ht
  | subset s s' | setEq s s' =>
    cases h
    simp only [Atom.elementTerms, List.mem_append]
    rcases List.mem_append.1 ha with ha | ha
    · exact (elementTerms_unfoldMember ha ht).imp_right .inl
    · exact (elementTerms_unfoldMember ha ht).imp_right .inr
  | eq | mem | pred => cases h

namespace Formula

theorem exists_instance {f : Formula} (h : f.isSetRelation = true) (e : Term) :
    ∃ g, f.instanceAt? e = some g := by
  cases f with
  | atom a => exact Atom.exists_instance h e
  | top | bot | not | connect | all => cases h

theorem isSetRelation_of_instance {f g : Formula} {e : Term} (h : f.instanceAt? e = some g) :
    g.unfold.isSetRelation = false := by
  cases f with
  | atom a =>
    cases a with
    | isEmpty | subset | setEq => cases h; rfl
    | eq | mem | pred => cases h
  | top | bot | not | connect | all => cases h

/-- Unfolding makes no set relations. -/
theorem isSetRelation_unfold {f : Formula} (h : f.isSetRelation = false) :
    f.unfold.isSetRelation = false := by
  cases f with
  | atom a =>
    have ordinary := every_normal_unfold h
    cases hf : (atom a).unfold with
    | atom b =>
      rw [hf] at ordinary
      exact Atom.IsNormal.ordinary ordinary
    | top | bot | not | connect | all => rfl
  | top | bot | not | connect | all => rfl

end Formula

/-! ## Rounds -/

theorem Noted.bind_congr {α β : Type} {x : Noted α} {f g : α → Noted β}
    (h : f x.value = g x.value) : (x >>= f) = (x >>= g) := by
  simp only [bind, h]

namespace Sequent

variable {s : Sequent} {us : List Hypothesis}

/-- Unfolding changes no formula of the sequent. -/
def IsUnfolded (s : Sequent) : Prop := ∀ f ∈ s.formulas, f.unfold = f

theorem value_unfold (s : Sequent) : s.unfold.value =
    ⟨s.hypotheses.map fun h => { h with formula := h.formula.unfold }, s.goal.unfold⟩ :=
  value_mapFormulas "rewrite" (fun f => return f.unfold) s

theorem isUnfolded_unfold (s : Sequent) : s.unfold.value.IsUnfolded := by
  intro f hf
  rw [value_unfold] at hf
  rcases mem_formulas.1 hf with ⟨h, hh, rfl⟩ | rfl
  · obtain ⟨g, _, rfl⟩ := List.mem_map.1 hh
    exact g.formula.unfold_unfold
  · exact s.goal.unfold_unfold

theorem IsUnfolded.value_unfold (h : s.IsUnfolded) : s.unfold.value = s := by
  rw [Sequent.value_unfold, h s.goal (mem_formulas.2 (.inr rfl))]
  have same : (s.hypotheses.map fun g => { g with formula := g.formula.unfold }) = s.hypotheses := by
    refine (List.map_congr_left fun g hg => ?_).trans (List.map_id _)
    rw [h g.formula (mem_formulas.2 (.inl ⟨g, hg, rfl⟩)), id]
  rw [same]

/-- The sequent together with set relations that are not among its hypotheses. -/
def scope (us : List Hypothesis) (s : Sequent) : Sequent := { s with hypotheses := s.hypotheses ++ us }

/-- The sequent with the instances of one round. -/
def round (us : List Hypothesis) (s : Sequent) : Sequent :=
  { s with hypotheses := s.hypotheses ++ roundInstances us [] s }

theorem IsUnfolded.round (h : s.IsUnfolded) : (s.round us).IsUnfolded := by
  intro f hf
  rcases mem_formulas.1 hf with ⟨g, hg, rfl⟩ | rfl
  · rcases List.mem_append.1 hg with hg | hg
    · exact h g.formula (mem_formulas.2 (.inl ⟨g, hg, rfl⟩))
    · obtain ⟨_, u, _, e, _, f, _, hf⟩ := mem_roundInstances hg
      rw [hf]
      exact f.unfold_unfold
  · exact h s.goal (mem_formulas.2 (.inr rfl))

/-- **The terms in play do not change.** -/
theorem mem_roundTerms_of_round {e : Term} (he : e ∈ ((s.round us).scope us).relevantElements) :
    e ∈ roundTerms us [] s := by
  obtain ⟨f, hf, a, ha, hea⟩ := mem_relevantElements.1 he
  rcases mem_formulas.1 hf with ⟨g, hg, rfl⟩ | rfl
  · rcases List.mem_append.1 hg with hg | hg
    · rcases List.mem_append.1 hg with hg | hg
      · exact mem_roundTerms_nil (.inl (mem_formulas.2 (.inl ⟨g, hg, rfl⟩))) ha hea
      · -- The element terms of an instance are its element and those of the relation.
        obtain ⟨_, u, hu, e', he', f, hi, hform⟩ := mem_roundInstances hg
        cases hr : u.formula with
        | atom r =>
          rw [hr] at hi
          rw [hform] at ha
          rcases elementTerms_instance hi ha hea with rfl | hea
          · exact he'
          · exact mem_roundTerms_nil (.inr ⟨u, hu, hr⟩) (List.mem_singleton_self r) hea
        | top | bot | not | connect | all => rw [hr] at hi; cases hi
    · exact mem_roundTerms_nil (.inr ⟨g, hg, rfl⟩) ha hea
  · exact mem_roundTerms_nil (s := s) (.inl (mem_formulas.2 (.inr rfl))) ha hea

theorem roundTerms_round : roundTerms us (roundTerms us [] s) (s.round us) = [] := by
  refine List.filter_eq_nil_iff.2 fun e he => ?_
  have known := mem_roundTerms_of_round he
  simp [known]

/-- Without terms there are no instances. -/
theorem roundInstances_of_isEmpty (h : (roundTerms us [] s).isEmpty = true) :
    roundInstances us [] s = [] := by
  refine List.eq_nil_iff_forall_not_mem.2 fun g hg => ?_
  obtain ⟨_, u, _, e, he, _⟩ := mem_roundInstances hg
  rw [List.isEmpty_iff.1 h] at he
  cases he

theorem instanceRounds_of_no_terms {done : List Term} (h : roundTerms us done s = []) (n : Nat) :
    instanceRounds us n done s = pure s := by
  cases n with
  | zero => rfl
  | succ n =>
    rw [instanceRounds]
    exact if_pos (List.isEmpty_iff.2 h)

/-- **Further rounds do nothing**: they find no terms, and note nothing. -/
theorem instanceRounds_succ_eq_one (hs : s.IsUnfolded) (n : Nat) :
    instanceRounds us (n + 1) [] s = instanceRounds us 1 [] s := by
  have reached : (Sequent.unfold (s.round us)).value = s.round us := hs.round.value_unfold
  have next (n : Nat) : instanceRounds us n (roundTerms us [] s) (Sequent.unfold (s.round us)).value =
      pure (s.round us) := by
    rw [reached]
    exact instanceRounds_of_no_terms roundTerms_round n
  rw [instanceRounds, instanceRounds]
  split
  · rfl
  · exact Noted.bind_congr (Noted.bind_congr ((next n).trans (next 0).symm))

theorem value_instanceRounds_one (hs : s.IsUnfolded) :
    (instanceRounds us 1 [] s).value = s.round us := by
  rw [value_instanceRounds_succ]
  split
  · rename_i h
    rw [round, roundInstances_of_isEmpty h, List.append_nil]
  · exact hs.round.value_unfold

/-- The terms of the round stay in play. -/
theorem mem_relevantElements_round {e : Term} (he : e ∈ roundTerms us [] s) :
    e ∈ ((s.round us).scope us).relevantElements := by
  obtain ⟨f, hf, a, ha, hea⟩ := mem_relevantElements.1 (List.mem_filter.1 he).1
  refine mem_relevantElements.2 ⟨f, mem_formulas.2 ?_, a, ha, hea⟩
  rcases mem_formulas.1 hf with ⟨h, hh, rfl⟩ | rfl
  · refine .inl ⟨h, ?_, rfl⟩
    rcases List.mem_append.1 hh with hh | hh
    · exact List.mem_append_left _ (List.mem_append_left _ hh)
    · exact List.mem_append_right _ hh
  · exact .inr rfl

/-- After a round, all instances at the terms in play are there. -/
theorem exists_instance_round {u : Hypothesis} (hu : u ∈ us) (hr : u.formula.isSetRelation = true)
    {e : Term} (he : e ∈ ((s.round us).scope us).relevantElements) :
    ∃ f, u.formula.instanceAt? e = some f ∧ f.unfold ∈ (s.round us).facts := by
  obtain ⟨f, hf⟩ := Formula.exists_instance hr e
  obtain ⟨h, hh, hform⟩ := exists_roundInstances hu (mem_roundTerms_of_round he) hf
  exact ⟨f, hf, List.mem_map.2 ⟨h, hh, hform⟩⟩

/-! ## The stage -/

theorem hypotheses_ground (s : Sequent) :
    s.ground.hypotheses = (s.hypotheses.filter (!·.formula.isSetRelation)).map
      fun h => { h with formula := h.formula.unfold } := by
  rw [ground, value_unfold]

theorem isUnfolded_ground (s : Sequent) : s.ground.IsUnfolded := isUnfolded_unfold _

theorem isSetRelation_ground {h : Hypothesis} (hh : h ∈ s.ground.hypotheses) :
    h.formula.isSetRelation = false := by
  rw [hypotheses_ground] at hh
  obtain ⟨g, hg, rfl⟩ := List.mem_map.1 hh
  have other : g.formula.isSetRelation = false := by simpa using (List.mem_filter.1 hg).2
  exact Formula.isSetRelation_unfold other

theorem instantiate_eq_one (s : Sequent) (stem : String) {maxRounds : Int} (h : 1 ≤ maxRounds) :
    s.instantiate stem maxRounds = s.instantiate stem 1 := by
  obtain ⟨n, hn⟩ : ∃ n, maxRounds.toNat = n + 1 := ⟨maxRounds.toNat - 1, by omega⟩
  unfold instantiate
  rw [hn]
  refine Noted.bind_congr (Noted.bind_congr ?_)
  exact congrArg (· >>= _) (instanceRounds_succ_eq_one (isUnfolded_ground _) n)

/-- **The stage reaches its fixpoint in one round.** Let the universals be the set relations among the
hypotheses once the goal is opened. After one round or more, the result has no set relation among its
hypotheses. With the universals it speaks of element terms only at which it has the instances of all of
them. It consists of the other hypotheses and of such instances, unfolded, under their names. And the
number of rounds does not matter, neither for the result nor for the notes. -/
theorem instantiate_fixpoint (s : Sequent) (stem : String) {maxRounds : Int} (rounds : 1 ≤ maxRounds) :
    let opened := (s.openGoal stem).value
    let result := (s.instantiate stem maxRounds).value
    let elements := (result.scope opened.universals).relevantElements
    (∀ h ∈ result.hypotheses, h.formula.isSetRelation = false) ∧
      (∀ u ∈ opened.universals, ∀ e ∈ elements,
        ∃ f, u.formula.instanceAt? e = some f ∧ f.unfold ∈ result.facts) ∧
      (∃ instances,
        result.hypotheses = (opened.hypotheses.filter (!·.formula.isSetRelation)).map
          (fun h => { h with formula := h.formula.unfold }) ++ instances ∧
        ∀ h ∈ instances, ∃ u ∈ opened.universals, ∃ e ∈ elements, ∃ f,
          u.formula.instanceAt? e = some f ∧
            h = { name := u.name ++ "[" ++ e.text ++ "]", formula := f.unfold }) ∧
      result.goal = opened.goal.unfold ∧
      ∀ n, 1 ≤ n → s.instantiate stem n = s.instantiate stem maxRounds := by
  intro opened result elements
  have value : result = opened.ground.round opened.universals := by
    show (s.instantiate stem maxRounds).value = _
    rw [instantiate_eq_one s stem rounds, value_instantiate]
    exact value_instanceRounds_one (isUnfolded_ground opened)
  have hypotheses : result.hypotheses =
      opened.ground.hypotheses ++ roundInstances opened.universals [] opened.ground := by
    rw [value]
    rfl
  have same : elements = ((opened.ground.round opened.universals).scope
      opened.universals).relevantElements := by
    rw [← value]
  refine ⟨fun h hh => ?_, fun u hu e he => ?_,
    ⟨_, hypotheses.trans (by rw [hypotheses_ground]), fun h hh => ?_⟩, ?_, fun n hn => ?_⟩
  · rw [hypotheses] at hh
    rcases List.mem_append.1 hh with hh | hh
    · exact isSetRelation_ground hh
    · obtain ⟨_, u, _, e, _, f, hi, hf⟩ := mem_roundInstances hh
      rw [hf]
      exact Formula.isSetRelation_of_instance hi
  · rw [value]
    rw [same] at he
    exact exists_instance_round hu (List.mem_filter.1 hu).2 he
  · obtain ⟨u, hu, e, he, f, hi, hf⟩ := eq_of_mem_roundInstances hh
    rw [same]
    exact ⟨u, hu, e, mem_relevantElements_round he, f, hi, hf⟩
  · rw [value]
    show opened.ground.goal = _
    rw [ground, value_unfold]
  · rw [instantiate_eq_one s stem hn, instantiate_eq_one s stem rounds]

/-- A union with a one-element set as part of `t`, and a member of the first set. -/
def unionWithin : Sequent where
  hypotheses := [
    { name := "H0", formula := .atom (.subset (.union (.var "s") (.singleton (.var "a"))) (.var "t")) },
    { name := "H1", formula := .atom (.mem (.var "x") (.var "s")) }]
  goal := .atom (.subset (.var "s") (.var "t"))

/-- The element inside the union is in play, and one round is enough for its instance. -/
theorem instantiate_fixpoint_unionWithin :
    (1 : Int) ≤ 1 ∧
      Formula.implies
        (.or (.atom (.mem (.var "a") (.var "s"))) (.atom (.eq (.var "a") (.var "a"))))
        (.atom (.mem (.var "a") (.var "t"))) ∈ (unionWithin.instantiate "z" 1).value.facts ∧
      unionWithin.instantiate "z" 16 = unionWithin.instantiate "z" 1 := by
  obtain ⟨_, complete, _, _, same⟩ := instantiate_fixpoint unionWithin "z" (Int.le_refl 1)
  have universal : unionWithin.hypotheses.head (by decide) ∈
      (unionWithin.openGoal "z").value.universals := by decide
  obtain ⟨f, hi, hf⟩ := complete _ universal (.var "a") (by decide)
  cases hi
  exact ⟨Int.le_refl 1, hf, same 16 (by decide)⟩

end Sequent

end SetSequent
