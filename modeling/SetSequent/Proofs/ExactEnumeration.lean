import Mathlib.Logic.ExistsUnique
import SetSequent.Proofs.Enumeration
import SetSequent.Proofs.ExactElimination
import SetSequent.Proofs.NameDependence

/-!
# The enumeration is exact

An assignment gives a number below `n` to each element name of some formulas and a set of such numbers to
each set name. The enumeration lists the assignments: each stands at one position, and there is nothing at
a position but an assignment. So the search over them finds a countermodel if there is one.

* `Assignment`, `Assignment.Describes` — an assignment, and the interpretations with its values.
* `subsets_pairwise`, `Space.nodup_setValues`, `Space.nodup_interpretations` — no choice is made twice.
* `Assignment.interpretation`, `eq_interpretation` — the one interpretation of the list for an assignment.
* `exists_describes` — an assignment for each interpretation of the list.
* `enumerate_exact` — the list, and what the search over it returns.
-/

namespace SetSequent.Model

/-! ## No choice is made twice -/

theorem nodup_tuples {α : Type} {choices : List α} (h : choices.Nodup) (k : Nat) :
    (tuples choices k).Nodup := by
  induction k with
  | zero => simp [tuples]
  | succ k ih =>
    refine List.pairwise_flatMap.2 ⟨fun c _ => ?_, h.imp fun {c d} hne => ?_⟩
    · exact List.pairwise_map.2 (ih.imp fun hne he => hne (List.cons.inj he).2)
    · intro s hs t ht he
      obtain ⟨_, _, rfl⟩ := List.mem_map.1 hs
      obtain ⟨_, _, rfl⟩ := List.mem_map.1 ht
      exact hne (List.cons.inj he).1

theorem subset_of_mem_subsets {α : Type} {as s : List α} (h : s ∈ subsets as) : s ⊆ as := by
  induction as generalizing s with
  | nil => rw [List.mem_singleton.1 h]; exact List.Subset.refl _
  | cons a as ih =>
    obtain ⟨t, ht, hs⟩ := List.mem_flatMap.1 h
    rcases List.mem_cons.1 hs with rfl | hs
    · exact List.subset_cons_of_subset a (ih ht)
    · rw [List.mem_singleton.1 hs]
      exact List.cons_subset_cons a (ih ht)

/-- Two subsets at different positions differ in a member. -/
theorem subsets_pairwise {α : Type} {as : List α} (h : as.Nodup) :
    (subsets as).Pairwise fun s t => ∃ x ∈ as, (x ∈ s ↔ x ∉ t) := by
  induction as with
  | nil => exact List.pairwise_singleton ..
  | cons a as ih =>
    obtain ⟨ha, h⟩ := List.nodup_cons.1 h
    refine List.pairwise_flatMap.2 ⟨fun s hs => ?_, (ih h).imp fun {s t} differ => ?_⟩
    · have has : a ∉ s := fun hm => ha (subset_of_mem_subsets hs hm)
      exact List.pairwise_pair.2 ⟨a, .head _, by simp [has]⟩
    · -- The member in which the tails differ is not `a`.
      obtain ⟨x, hx, hst⟩ := differ
      have hne : x ≠ a := fun he => ha (he ▸ hx)
      intro u hu v hv
      refine ⟨x, .tail _ hx, ?_⟩
      have same {s u : List α} (hu : u ∈ [s, a :: s]) : x ∈ u ↔ x ∈ s := by
        rcases List.mem_cons.1 hu with rfl | hu
        · exact Iff.rfl
        · rw [List.mem_singleton.1 hu, List.mem_cons, or_iff_right hne]
      rw [same hu, same hv]
      exact hst

theorem nodup_sortedNames (names : List String) : (sortedNames names).Nodup :=
  (List.mergeSort_perm ..).symm.nodup (Search.nodup_eraseDups names)

namespace Space

variable {s : Space} {I : Interpretation} {n : Nat} {fs : List Formula}

theorem nodup_setValues (h : s.domain.Nodup) : s.setValues.Nodup := by
  refine List.pairwise_map.2 ((subsets_pairwise h).imp fun {t u} differ he => ?_)
  obtain ⟨x, _, hx⟩ := differ
  rw [← Value.element_mem_members_ofInts, he, Value.element_mem_members_ofInts] at hx
  exact iff_not_self hx

theorem eq_of_zip_eq {α : Type} {xs : List String} {vs ws : List α} (hv : vs.length = xs.length)
    (hw : ws.length = xs.length) (h : xs.zip vs = xs.zip ws) : vs = ws := by
  rw [← List.map_snd_zip (Nat.le_of_eq hv), h, List.map_snd_zip (Nat.le_of_eq hw)]

/-- **Different choices are different interpretations.** -/
theorem nodup_interpretations (h : s.domain.Nodup) : s.interpretations.Nodup := by
  have sets := nodup_tuples (nodup_setValues h) s.setNames.length
  have elements := nodup_tuples h s.elementNames.length
  refine List.pairwise_flatMap.2 ⟨fun es _ => ?_, ?_⟩
  · refine List.pairwise_map.2 (sets.imp_of_mem fun {v w} hv hw hne he => hne ?_)
    exact eq_of_zip_eq (mem_tuples.1 hv).1 (mem_tuples.1 hw).1 (congrArg Interpretation.sets he)
  · refine elements.imp_of_mem fun {d e} hd he hne I hI J hJ same => hne ?_
    obtain ⟨_, _, rfl⟩ := List.mem_map.1 hI
    obtain ⟨_, _, rfl⟩ := List.mem_map.1 hJ
    exact eq_of_zip_eq (mem_tuples.1 hd).1 (mem_tuples.1 he).1
      (congrArg Interpretation.elements same)

theorem nodup_domain : (ofFormulas fs n).domain.Nodup :=
  List.pairwise_map.2 (List.nodup_range.imp fun hne he => hne (Int.ofNat.inj he))

theorem nodup_elementNames : (ofFormulas fs n).elementNames.Nodup :=
  (nodup_sortedNames _).filter _

theorem nodup_setNames : (ofFormulas fs n).setNames.Nodup := nodup_sortedNames _

end Space

/-! ## Assignments -/

/-- The set of the numbers below `n` with a given property. -/
def setBelow {n : Nat} (member : Fin n → Bool) : Value :=
  .ofInts (((List.finRange n).filter member).map fun i => (i.val : Int))

/-- A number below `n` for each element name of the formulas, and a set of such numbers for each set
name. -/
structure Assignment (fs : List Formula) (n : Nat) where
  element : {x : String // x ∈ elementVarNames fs} → Fin n
  member : {y : String // y ∈ setVarNames fs} → Fin n → Bool

namespace Assignment

variable {fs : List Formula} {n : Nat}

def number? (A : Assignment fs n) (x : String) : Option Int :=
  if h : x ∈ elementVarNames fs then some (A.element ⟨x, h⟩).val else none

def set? (A : Assignment fs n) (y : String) : Option Value :=
  if h : y ∈ setVarNames fs then some (setBelow (A.member ⟨y, h⟩)) else none

/-- The interpretation has the values of the assignment and no others. -/
structure Describes (A : Assignment fs n) (I : Interpretation) : Prop where
  domain : I.domain = (List.range n).map Int.ofNat
  elements : ∀ x, I.elements.lookup x = A.number? x
  sets : ∀ y, I.sets.lookup y = A.set? y
  predicates : I.predicates = fun _ => none
  functions : I.functions = fun _ _ => none

/-- The interpretation of the list with the values of the assignment. -/
def interpretation (A : Assignment fs n) : Interpretation :=
  let space := Space.ofFormulas fs n
  space.interpretation (space.elementNames.map fun x => (A.number? x).getD 0)
    (space.setNames.map fun y => (A.set? y).getD (.ofList []))

end Assignment

theorem mem_setBelow {n : Nat} {member : Fin n → Bool} {v : Value} :
    v ∈ (setBelow member).members ↔ ∃ i : Fin n, member i = true ∧ v = .element i.val := by
  simp only [setBelow, Value.mem_members_ofInts, List.mem_map, List.mem_filter, List.mem_finRange,
    true_and]
  constructor
  · rintro ⟨_, ⟨i, hi, rfl⟩, rfl⟩
    exact ⟨i, hi, rfl⟩
  · rintro ⟨i, hi, rfl⟩
    exact ⟨_, ⟨i, hi, rfl⟩, rfl⟩

theorem element_mem_setBelow {n : Nat} {member : Fin n → Bool} {i : Fin n} :
    .element i.val ∈ (setBelow member).members ↔ member i = true := by
  rw [mem_setBelow]
  constructor
  · rintro ⟨j, hj, he⟩
    rwa [Fin.ext (Int.ofNat.inj (Value.element_inj he))]
  · exact fun h => ⟨i, h, rfl⟩

theorem setBelow_inj {n : Nat} {p q : Fin n → Bool} (h : setBelow p = setBelow q) : p = q := by
  funext i
  rw [Bool.eq_iff_iff, ← element_mem_setBelow, h, element_mem_setBelow]

theorem isSetBelow_setBelow {n : Nat} (member : Fin n → Bool) : (setBelow member).IsSetBelow n := by
  refine ⟨Value.isSet_ofList _, fun w hw => ?_⟩
  obtain ⟨i, _, rfl⟩ := mem_setBelow.1 hw
  exact ⟨i, i.isLt, rfl⟩

/-- Every set that is listed is one of numbers below `n`. -/
theorem Space.exists_setBelow {fs : List Formula} {n : Nat} {v : Value}
    (h : v ∈ (ofFormulas fs n).setValues) : ∃ member : Fin n → Bool, v = setBelow member := by
  obtain ⟨t, ht, rfl⟩ := List.mem_map.1 h
  refine ⟨fun i => t.contains (i.val : Int), ?_⟩
  refine Value.ext_members (Value.isSet_ofList _) (isSetBelow_setBelow _).1 fun w => ?_
  rw [mem_setBelow, Value.mem_members_ofInts]
  constructor
  · rintro ⟨m, hm, rfl⟩
    obtain ⟨i, hi, rfl⟩ := List.mem_map.1 (subset_of_mem_subsets ht hm)
    exact ⟨⟨i, List.mem_range.1 hi⟩, List.contains_iff_mem.2 hm, rfl⟩
  · rintro ⟨i, hi, rfl⟩
    exact ⟨_, List.contains_iff_mem.1 hi, rfl⟩

theorem lookup_zip_of_not_mem {α : Type} {xs : List String} {vs : List α} {x : String} (hx : x ∉ xs) :
    (xs.zip vs).lookup x = none := by
  rw [List.lookup_eq_none_iff]
  intro p hp
  have hne : x ≠ p.1 := fun he => hx (he ▸ (List.of_mem_zip hp).1)
  simpa using hne

section Values

variable {α : Type} {xs : List String} {value? : String → Option α}

theorem lookup_zip_values (hv : ∀ x, (value? x).isSome = true ↔ x ∈ xs) (d : α) (x : String) :
    (xs.zip (xs.map fun y => (value? y).getD d)).lookup x = value? x := by
  rw [← List.map_prod_left_eq_zip, Sorts.lookup_map]
  by_cases hx : x ∈ xs
  · obtain ⟨v, hv⟩ := Option.isSome_iff_exists.1 ((hv x).2 hx)
    rw [if_pos hx, hv, Option.getD_some]
  · rw [if_neg hx, Option.not_isSome_iff_eq_none.1 (mt (hv x).1 hx)]

/-- The values in a list are determined by the values of the names. -/
theorem eq_values_of_lookup_zip {vs : List α} (hd : xs.Nodup) (hl : vs.length = xs.length)
    (h : ∀ x ∈ xs, (xs.zip vs).lookup x = value? x) (d : α) :
    vs = xs.map fun x => (value? x).getD d := by
  induction xs generalizing vs with
  | nil => exact List.length_eq_zero_iff.1 hl
  | cons x xs ih =>
    cases vs with
    | nil => cases hl
    | cons v vs =>
      obtain ⟨hx, hd⟩ := List.nodup_cons.1 hd
      have head : some v = value? x := by
        rw [← h x (.head _), List.zip_cons_cons, List.lookup_cons_self]
      have rest : vs = xs.map fun y => (value? y).getD d := by
        refine ih hd (Nat.succ.inj hl) fun y hy => ?_
        have hne : y ≠ x := fun he => hx (he ▸ hy)
        rw [← h y (.tail _ hy), List.zip_cons_cons, Interpretation.lookup_cons_of_ne hne]
      rw [List.map_cons, ← rest, ← head, Option.getD_some]

end Values

namespace Assignment

variable {fs : List Formula} {n : Nat} {A B : Assignment fs n} {I J : Interpretation}

theorem number?_of_mem {x : String} (h : x ∈ elementVarNames fs) :
    A.number? x = some ((A.element ⟨x, h⟩).val : Int) := dif_pos h

theorem set?_of_mem {y : String} (h : y ∈ setVarNames fs) :
    A.set? y = some (setBelow (A.member ⟨y, h⟩)) := dif_pos h

theorem isSome_number? (x : String) :
    (A.number? x).isSome = true ↔ x ∈ (Space.ofFormulas fs n).elementNames := by
  rw [Space.mem_elementNames, number?]
  split <;> simp [*]

theorem isSome_set? (y : String) :
    (A.set? y).isSome = true ↔ y ∈ (Space.ofFormulas fs n).setNames := by
  rw [Space.mem_setNames, set?]
  split <;> simp [*]

theorem describes_interpretation (A : Assignment fs n) : A.Describes A.interpretation where
  domain := rfl
  elements := lookup_zip_values isSome_number? 0
  sets := lookup_zip_values isSome_set? (.ofList [])
  predicates := rfl
  functions := rfl

theorem interpretation_mem (A : Assignment fs n) :
    A.interpretation ∈ (Space.ofFormulas fs n).interpretations := by
  refine Space.mem_interpretations.2 ⟨_, _, List.length_map .., ?_, List.length_map .., ?_, rfl⟩
  · refine List.forall_mem_map.2 fun x hx => ?_
    rw [number?_of_mem (Space.mem_elementNames.1 hx)]
    exact Space.mem_domain_ofFormulas (Fin.isLt _)
  · refine List.forall_mem_map.2 fun y hy => ?_
    rw [set?_of_mem (Space.mem_setNames.1 hy)]
    exact Space.mem_setValues_ofFormulas (isSetBelow_setBelow _)

/-- **The list has one interpretation for an assignment.** -/
theorem eq_interpretation (hI : I ∈ (Space.ofFormulas fs n).interpretations) (h : A.Describes I) :
    I = A.interpretation := by
  obtain ⟨elements, sets, he, _, hs, _, rfl⟩ := Space.mem_interpretations.1 hI
  have numbers := eq_values_of_lookup_zip Space.nodup_elementNames he (fun x _ => h.elements x) 0
  have values := eq_values_of_lookup_zip Space.nodup_setNames hs (fun y _ => h.sets y) (.ofList [])
  rw [numbers, values]
  rfl

/-- **The list has nothing but assignments.** -/
theorem exists_describes (hI : I ∈ (Space.ofFormulas fs n).interpretations) :
    ∃ A : Assignment fs n, A.Describes I := by
  obtain ⟨elements, sets, he, hd, hs, hv, rfl⟩ := Space.mem_interpretations.1 hI
  let space := Space.ofFormulas fs n
  have number (x : {x : String // x ∈ elementVarNames fs}) :
      ∃ i : Fin n, (space.elementNames.zip elements).lookup x.val = some (i.val : Int) := by
    obtain ⟨m, hm, hl⟩ := Space.lookup_zip he (Space.mem_elementNames.2 x.2)
    obtain ⟨i, hi, rfl⟩ := List.mem_map.1 (hd m hm)
    exact ⟨⟨i, List.mem_range.1 hi⟩, hl⟩
  have set (y : {y : String // y ∈ setVarNames fs}) :
      ∃ member : Fin n → Bool, (space.setNames.zip sets).lookup y.val = some (setBelow member) := by
    obtain ⟨v, hm, hl⟩ := Space.lookup_zip hs (Space.mem_setNames.2 y.2)
    obtain ⟨member, rfl⟩ := Space.exists_setBelow (hv v hm)
    exact ⟨member, hl⟩
  obtain ⟨element, element_eq⟩ := Classical.axiomOfChoice number
  obtain ⟨member, member_eq⟩ := Classical.axiomOfChoice set
  refine ⟨⟨element, member⟩, rfl, fun x => ?_, fun y => ?_, rfl, rfl⟩
  · by_cases hx : x ∈ elementVarNames fs
    · rw [number?_of_mem hx]
      exact element_eq ⟨x, hx⟩
    · rw [number?, dif_neg hx]
      exact lookup_zip_of_not_mem (hx ∘ Space.mem_elementNames.1)
  · by_cases hy : y ∈ setVarNames fs
    · rw [set?_of_mem hy]
      exact member_eq ⟨y, hy⟩
    · rw [set?, dif_neg hy]
      exact lookup_zip_of_not_mem (hy ∘ Space.mem_setNames.1)

theorem eq_of_describes (hA : A.Describes I) (hB : B.Describes I) : A = B := by
  have element : A.element = B.element := by
    funext ⟨x, hx⟩
    have same := (hA.elements x).symm.trans (hB.elements x)
    rw [number?_of_mem hx, number?_of_mem hx, Option.some.injEq] at same
    exact Fin.ext (Int.ofNat.inj same)
  have member : A.member = B.member := by
    funext ⟨y, hy⟩
    have same := (hA.sets y).symm.trans (hB.sets y)
    rw [set?_of_mem hy, set?_of_mem hy, Option.some.injEq] at same
    exact setBelow_inj same
  cases A
  cases B
  simp only at element member
  rw [element, member]

/-- The evaluator does not tell apart what an assignment describes. -/
theorem holds_eq_of_describes (hI : A.Describes I) (hJ : A.Describes J) (f : Formula) :
    I.holds f = J.holds f := by
  refine Interpretation.holds_congr ⟨?_, ?_, fun g args _ => ?_, fun x _ => ?_, fun x _ => ?_⟩
  · rw [hI.domain, hJ.domain]
  · rw [hI.predicates, hJ.predicates]
  · rw [hI.functions, hJ.functions]
  · simp only [Interpretation.lookup, hI.sets, hJ.sets, hI.elements, hJ.elements]
  · rw [hI.sets, hJ.sets]

theorem isCountermodel_of_describes (hI : A.Describes I) (hJ : A.Describes J) {s : Sequent}
    (h : I.IsCountermodel s) : J.IsCountermodel s := by
  have same (f : Formula) : J.holds f = I.holds f := holds_eq_of_describes hJ hI f
  exact ⟨fun f hf => (same f).trans (h.1 f hf), (same s.goal).trans h.2⟩

end Assignment

/-! ## What the search returns -/

variable {n : Nat} {s : Sequent} {fs : List Formula}

theorem enumerate_eq (fs : List Formula) (n : Nat) :
    enumerate fs n = .ok (Space.ofFormulas fs n).interpretations := by
  rw [enumerate, domainSize_natCast]
  rfl

/-- Each assignment stands at one position. -/
theorem Assignment.existsUnique_position (A : Assignment fs n) :
    ∃! i : Fin (Space.ofFormulas fs n).interpretations.length,
      A.Describes ((Space.ofFormulas fs n).interpretations.get i) := by
  obtain ⟨i, hi⟩ := List.get_of_mem A.interpretation_mem
  have listed : A.Describes ((Space.ofFormulas fs n).interpretations.get i) := by
    rw [hi]
    exact A.describes_interpretation
  refine ⟨i, listed, fun j hj => ?_⟩
  have same := (Assignment.eq_interpretation (List.get_mem ..) hj).trans hi.symm
  exact Fin.ext ((List.getElem_inj (Space.nodup_interpretations Space.nodup_domain)).1 same)

/-- If the formulas have truth values under every assignment, the search does not fail. -/
theorem ok_countermodel (runs : ∀ (A : Assignment s.formulas n) I, A.Describes I →
      ∀ f ∈ s.formulas, ∃ b, I.holds f = .ok b) :
    ∃ r, countermodel s.facts s.goal n = .ok r := by
  rw [countermodel_eq]
  refine ok_findSomeM? fun I hI => ?_
  obtain ⟨A, hA⟩ := Assignment.exists_describes hI
  have value (f : Formula) (hf : f ∈ s.formulas) : I.holds f = .ok (I.truth f) := by
    obtain ⟨b, hb⟩ := runs A I hA f hf
    rw [hb, Interpretation.truth_of_holds hb]
  exact ⟨_, Interpretation.refutes?_of_holds (fun f hf => value f (List.mem_append_left _ hf))
    (value s.goal (Sequent.mem_formulas.2 (.inr rfl)))⟩

theorem not_isCountermodel_of_none (h : countermodel s.facts s.goal n = .ok none)
    {A : Assignment s.formulas n} {I : Interpretation} (hA : A.Describes I) :
    ¬ I.IsCountermodel s := by
  intro hI
  rw [countermodel_eq] at h
  have listed := Assignment.isCountermodel_of_describes hA A.describes_interpretation hI
  have found := Interpretation.refutes?_eq_some_iff.2 ⟨rfl, listed⟩
  rw [none_of_findSomeM? h _ A.interpretation_mem] at found
  cases found

theorem exists_describes_of_countermodel {I : Interpretation}
    (h : countermodel s.facts s.goal n = .ok (some I)) :
    ∃ A : Assignment s.formulas n, A.Describes I := by
  rw [countermodel_eq] at h
  obtain ⟨J, hJ, h⟩ := exists_of_findSomeM? h
  obtain ⟨rfl, _⟩ := Interpretation.refutes?_eq_some_iff.1 h
  exact Assignment.exists_describes hJ

/-- **The enumeration is exact.** Over the numbers below `n` the interpretations of some formulas are listed
without failure; each assignment is described at exactly one position, and each position describes exactly
one assignment. If every formula of a sequent has a truth value under every assignment, the search for a
countermodel does not fail. When it does not fail, it finds nothing if and only if no assignment satisfies
the facts and falsifies the goal, and what it finds is an assignment that does. -/
theorem enumerate_exact (n : Nat) :
    (∀ fs : List Formula, ∃ all, enumerate fs n = .ok all ∧
      (∀ A : Assignment fs n, ∃! i : Fin all.length, A.Describes (all.get i)) ∧
      ∀ i : Fin all.length, ∃! A : Assignment fs n, A.Describes (all.get i)) ∧
    ∀ s : Sequent,
      ((∀ (A : Assignment s.formulas n) I, A.Describes I → ∀ f ∈ s.formulas, ∃ b, I.holds f = .ok b) →
        ∃ r, countermodel s.facts s.goal n = .ok r) ∧
      ∀ r, countermodel s.facts s.goal n = .ok r →
        (r = none ↔ ∀ (A : Assignment s.formulas n) I, A.Describes I → ¬ I.IsCountermodel s) ∧
        ∀ I, r = some I → I.IsCountermodel s ∧ ∃ A : Assignment s.formulas n, A.Describes I := by
  refine ⟨fun fs => ⟨_, enumerate_eq fs n, Assignment.existsUnique_position, fun i => ?_⟩,
    fun s => ⟨ok_countermodel, fun r hr => ⟨⟨?_, fun h => ?_⟩, ?_⟩⟩⟩
  · obtain ⟨A, hA⟩ := Assignment.exists_describes (List.get_mem _ i)
    exact ⟨A, hA, fun B hB => Assignment.eq_of_describes hB hA⟩
  · rintro rfl A I hA
    exact not_isCountermodel_of_none hr hA
  · cases r with
    | none => rfl
    | some I =>
      obtain ⟨A, hA⟩ := exists_describes_of_countermodel hr
      exact absurd (holds_of_countermodel hr) (h A I hA)
  · rintro I rfl
    exact ⟨holds_of_countermodel hr, exists_describes_of_countermodel hr⟩

/-- A member of one set need not be one of another. -/
def otherSet : Sequent where
  hypotheses := [{ name := "H", formula := .atom (.mem (.var "x") (.var "s")) }]
  goal := .atom (.mem (.var "x") (.var "t"))

theorem Assignment.Describes.holds_mem {A : Assignment fs n} {I : Interpretation} (h : A.Describes I)
    {x y : String} (hx : x ∈ elementVarNames fs) (hy : y ∈ setVarNames fs) :
    I.holds (.atom (.mem (.var x) (.var y))) =
      .ok (A.member ⟨y, hy⟩ (A.element ⟨x, hx⟩)) := by
  have element : I.eval (.var x) = .ok (.element (A.element ⟨x, hx⟩).val) := by
    have hs : x ∉ setVarNames fs := (Sorts.ofFormulas fs).disjoint x hx
    rw [Interpretation.eval, Interpretation.lookup, h.sets, set?, dif_neg hs, h.elements,
      number?_of_mem hx]
  have set : I.eval (.var y) = .ok (setBelow (A.member ⟨y, hy⟩)) := by
    rw [Interpretation.eval, Interpretation.lookup, h.sets, set?_of_mem hy]
  have member := Value.isMember_of_isSet (a := .element (A.element ⟨x, hx⟩).val)
    (isSetBelow_setBelow (A.member ⟨y, hy⟩)).1
  simp only [Interpretation.holds, Interpretation.holdsAtom, element, set]
  refine member.trans (congrArg _ ?_)
  rw [Bool.eq_iff_iff, List.contains_iff_mem, element_mem_setBelow]

/-- With one number there is a countermodel, and the search returns one. -/
theorem enumerate_exact_otherSet :
    (∀ (A : Assignment otherSet.formulas 1) I, A.Describes I →
      ∀ f ∈ otherSet.formulas, ∃ b, I.holds f = .ok b) ∧
    ∃ I, countermodel otherSet.facts otherSet.goal 1 = .ok (some I) ∧ I.IsCountermodel otherSet ∧
      ∃ A : Assignment otherSet.formulas 1, A.Describes I := by
  have hx : "x" ∈ elementVarNames otherSet.formulas := by decide
  have hs : "s" ∈ setVarNames otherSet.formulas := by decide
  have ht : "t" ∈ setVarNames otherSet.formulas := by decide
  have runs : ∀ (A : Assignment otherSet.formulas 1) I, A.Describes I →
      ∀ f ∈ otherSet.formulas, ∃ b, I.holds f = .ok b := by
    intro A I hA
    exact List.forall_mem_cons.2 ⟨⟨_, hA.holds_mem hx hs⟩,
      List.forall_mem_singleton.2 ⟨_, hA.holds_mem hx ht⟩⟩
  obtain ⟨ok, exact⟩ := (enumerate_exact 1).2 otherSet
  obtain ⟨r, hr⟩ := ok runs
  obtain ⟨none_iff, some_imp⟩ := exact r hr
  refine ⟨runs, ?_⟩
  cases r with
  | some I => exact ⟨I, hr, some_imp I rfl⟩
  | none =>
    let A : Assignment otherSet.formulas 1 := ⟨fun _ => 0, fun y _ => y.val == "s"⟩
    have hA := A.describes_interpretation
    refine absurd ⟨List.forall_mem_singleton.2 ?_, ?_⟩ (none_iff.1 rfl A _ hA)
    · exact hA.holds_mem hx hs
    · exact hA.holds_mem hx ht

end SetSequent.Model
