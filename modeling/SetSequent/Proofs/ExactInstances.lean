import Mathlib.Data.List.Basic
import SetSequent.Proofs.NameSorts

/-!
# The instances have a countermodel exactly if the sequent has one

The elements of a countermodel may be any integers. Its domain is finite, so each can be replaced by its
position there, and the countermodels over the first `n` elements are enough.

* `Sorts.indexed` — the interpretation with the positions in the domain for the elements.
* `index_mem_members_indexed`, `truthAtom_indexed` — a set term keeps its members, an atom its truth.
* `Sequent.HasCountermodel` — over a finite domain, the facts can be true and the goal false.
* `hasCountermodel_iff_fits` — a sorted sequent has a countermodel exactly if one fits its sorts.
* `exists_fits_instantiate` — the fresh name is given an element at which the goal is false.
* `hasCountermodel_instantiate` — instances at the element terms gain and lose no countermodel, if all that
  stands for an element is a variable.
* `instantiate_inexact` — otherwise they may gain one, and may lose one.
-/

namespace SetSequent

open Model

/-! ## Values over the domain -/

namespace Model

theorem Value.IsElementBelow.succ {v : Value} {n : Nat} (h : v.IsElementBelow n) :
    v.IsElementBelow (n + 1) := by
  obtain ⟨i, hi, rfl⟩ := h
  exact ⟨i, Nat.lt_succ_of_lt hi, rfl⟩

namespace Interpretation

variable {I : Interpretation} {σ τ : Sorts} {n : Nat}

theorem Fits.succ (h : I.Fits σ n) : I.Fits σ (n + 1) :=
  ⟨fun x hx => (h.elements x hx).succ,
    fun y hy => ⟨(h.sets y hy).1, fun w hw => ((h.sets y hy).2 w hw).succ⟩, h.functions, h.predicates⟩

theorem Fits.of_partOf (h : I.Fits σ n) (part : τ.PartOf σ) : I.Fits τ n :=
  ⟨fun x hx => h.elements x (part.elements hx), fun y hy => h.sets y (part.sets hy), h.functions,
    h.predicates⟩

/-- The names of the two sorts denote values of their sort over the domain. -/
structure FitsDomain (I : Interpretation) (σ : Sorts) : Prop where
  elements : ∀ x ∈ σ.elements, (I.denote x).IsElementWithin I.domain
  sets : ∀ y ∈ σ.sets, (I.denote y).IsSetWithin I.domain

section Realizes

variable {fs : List Formula} (h : I.Realizes fs)
include h

theorem Realizes.isSetWithin {y : String} (hy : y ∈ setVarNames fs) :
    (I.denote y).IsSetWithin I.domain := by
  obtain ⟨w, hl, hw⟩ := h.sets y hy
  rwa [denote, lookup, hl, withDefault_ok]

theorem Realizes.isElementWithin {f : Formula} (hf : f ∈ fs) {x : String} (hx : x ∈ f.freeVars)
    (unused : x ∉ setVarNames fs) : (I.denote x).IsElementWithin I.domain := by
  obtain ⟨n, hn, hl⟩ := h.elements f hf x hx unused
  refine ⟨n, hn, ?_⟩
  rw [denote, lookup, h.others f hf x (Formula.mem_vars_of_mem_freeVars hx) unused]
  simp only [hl, withDefault_ok]

theorem Realizes.fitsDomain {P : Atom → Prop} (hs : ∀ f ∈ fs, f.Every P) :
    I.FitsDomain (.ofFormulas fs) := by
  refine ⟨fun x hx => ?_, fun y hy => h.isSetWithin hy⟩
  obtain ⟨⟨f, hf, hx⟩, unused⟩ := mem_elementVarNames.1 hx
  rw [← (hs f hf).freeVars_eq] at hx
  exact h.isElementWithin hf hx unused

end Realizes

/-- A set relation states nothing about a value that no argument holds. -/
theorem relates_of_not_mem {a : Atom} {w : Value}
    (h : ∀ u ∈ a.setArgs, w ∉ (I.value u).members) : I.Relates w a := by
  cases a with
  | isEmpty s => exact h s (.head _)
  | subset s t => exact fun hw => absurd hw (h s (.head _))
  | setEq s t => exact iff_of_false (h s (.head _)) (h t (.tail _ (.head _)))
  | eq | mem | pred => trivial

end Interpretation

namespace Value

theorem isSetWithin_ofInts {ns elements : List Int} (h : ns ⊆ elements) :
    (ofInts ns).IsSetWithin elements := by
  refine isSetOf_ofList fun v hv => ?_
  obtain ⟨n, hn, rfl⟩ := List.mem_map.1 hv
  exact ⟨n, h hn, rfl⟩

/-- The position of an element in the list, as an element. -/
def index (elements : List Int) (v : Value) : Value := .element (elements.idxOf v.number)

theorem index_inj {elements : List Int} {v w : Value} (hv : v.IsElementWithin elements)
    (hw : w.IsElementWithin elements) : v.index elements = w.index elements ↔ v = w := by
  obtain ⟨m, hm, rfl⟩ := hv
  obtain ⟨k, _, rfl⟩ := hw
  refine ⟨fun h => ?_, fun h => h ▸ rfl⟩
  have same : elements.idxOf m = elements.idxOf k := Int.ofNat.inj (element_inj h)
  rw [(List.idxOf_inj hm).1 same]

end Value

end Model

namespace Sorts

/-- The interpretation in which every element is replaced by its position in the domain. -/
def indexed (σ : Sorts) (I : Interpretation) : Interpretation :=
  σ.interpretation (fun x => I.domain.idxOf (I.denote x).number) fun y =>
    .ofList ((I.denote y).members.map (·.index I.domain))

theorem fits_indexed (σ : Sorts) (I : Interpretation) :
    (σ.indexed I).Fits σ (I.domain.length + 1) := by
  have below (v : Value) : (v.index I.domain).IsElementBelow (I.domain.length + 1) :=
    ⟨I.domain.idxOf v.number, Nat.lt_succ_of_le List.idxOf_le_length, rfl⟩
  refine fits_interpretation (fun x _ => below (I.denote x)) fun y _ => ?_
  refine Value.isSetBelow_ofList fun v hv => ?_
  obtain ⟨w, _, rfl⟩ := List.mem_map.1 hv
  exact below w

section Indexed

variable {σ τ : Sorts} {I : Interpretation} (hI : I.FitsDomain τ) (part : τ.PartOf σ)

include part in
theorem value_indexed {e : Term} (he : e.IsElement τ) :
    (σ.indexed I).value e = (I.value e).index I.domain := by
  obtain ⟨x, hx, rfl⟩ := he.exists_var
  rw [Interpretation.value, indexed, denote_element (part.elements hx)]
  rfl

include hI part

/-- **A set term keeps its members**, at their positions. -/
theorem index_mem_members_indexed {v : Value} (hv : v.IsElementWithin I.domain) : (t : Term) →
    t.IsSet τ → (v.index I.domain ∈ ((σ.indexed I).value t).members ↔ v ∈ (I.value t).members)
  | .var y, ht => by
    rw [Interpretation.value, indexed, denote_set (part.sets ht), Value.mem_members_ofList,
      List.mem_map]
    constructor
    · rintro ⟨w, hw, same⟩
      rwa [← (Value.index_inj ((hI.sets y ht).2 w hw) hv).1 same]
    · exact fun h => ⟨v, h, rfl⟩
  | .app _ _, ht => ht.elim
  | .empty, _ => by simp [Interpretation.value]
  | .singleton e, ht => by
    have he := Value.index_inj hv (Interpretation.value_of_isElement hI.elements ht)
    rw [Interpretation.value, Interpretation.value, value_indexed part ht]
    simp only [Value.mem_members_ofList, List.mem_singleton, he]
  | .add e s, ht => by
    have he := Value.index_inj hv (Interpretation.value_of_isElement hI.elements ht.1)
    have hs := index_mem_members_indexed hv s ht.2
    rw [Interpretation.value, Interpretation.value, value_indexed part ht.1]
    simp only [Value.mem_members_join, Value.mem_members_ofList, List.mem_singleton, he, hs]
  | .remove e s, ht => by
    have he := Value.index_inj hv (Interpretation.value_of_isElement hI.elements ht.1)
    have hs := index_mem_members_indexed hv s ht.2
    rw [Interpretation.value, Interpretation.value, value_indexed part ht.1]
    simp only [Value.mem_members_minus, Value.mem_members_ofList, List.mem_singleton, he, hs]
  | .union s t, ht => by
    have hs := index_mem_members_indexed hv s ht.1
    have ht := index_mem_members_indexed hv t ht.2
    simp only [Interpretation.value, Value.mem_members_join, hs, ht]
  | .inter s t, ht => by
    have hs := index_mem_members_indexed hv s ht.1
    have ht := index_mem_members_indexed hv t ht.2
    simp only [Interpretation.value, Value.mem_members_meet, hs, ht]
  | .diff s t, ht => by
    have hs := index_mem_members_indexed hv s ht.1
    have ht := index_mem_members_indexed hv t ht.2
    simp only [Interpretation.value, Value.mem_members_minus, hs, ht]

/-- A set term has no members but positions of elements. -/
theorem isSetOf_index (t : Term) (ht : t.IsSet τ) : ((σ.indexed I).value t).IsSetOf
    fun w => ∃ v : Value, v.IsElementWithin I.domain ∧ v.index I.domain = w := by
  refine Interpretation.isSetOf_value (fun x hx => ?_) (fun y hy => ?_) t ht
  · refine ⟨I.denote x, hI.elements x hx, ?_⟩
    rw [indexed, denote_element (part.elements hx)]
    rfl
  · rw [indexed, denote_set (part.sets hy)]
    refine Value.isSetOf_ofList fun w hw => ?_
    obtain ⟨v, hv, rfl⟩ := List.mem_map.1 hw
    exact ⟨v, (hI.sets y hy).2 v hv, rfl⟩

theorem relates_indexed {a : Atom} (ha : a.Sorted τ) {v : Value}
    (hv : v.IsElementWithin I.domain) :
    (σ.indexed I).Relates (v.index I.domain) a ↔ I.Relates v a := by
  cases a with
  | isEmpty s => exact not_congr (index_mem_members_indexed hI part hv s ha)
  | subset s t | setEq s t =>
    have hs := index_mem_members_indexed hI part hv s ha.1
    have ht := index_mem_members_indexed hI part hv t ha.2
    simp only [Interpretation.Relates, hs, ht]
  | eq | mem | pred => exact Iff.rfl

theorem truthAtom_indexed_relation {a : Atom} (ha : a.Sorted τ) (hr : a.isSetRelation = true) :
    (σ.indexed I).truthAtom a = I.truthAtom a := by
  have before (u : Term) (hu : u ∈ a.setArgs) :=
    Interpretation.isSetOf_value hI.elements hI.sets u (ha.isSet hu)
  have after (u : Term) (hu : u ∈ a.setArgs) := isSetOf_index hI part u (ha.isSet hu)
  rw [Bool.eq_iff_iff]
  -- In both interpretations the relation is about the members of its arguments only.
  constructor
  · intro h
    refine Interpretation.truthAtom_of_relates hr (fun u hu => (before u hu).1) fun v => ?_
    by_cases hm : ∃ u ∈ a.setArgs, v ∈ (I.value u).members
    · obtain ⟨u, hu, hm⟩ := hm
      have hv := (before u hu).2 v hm
      exact (relates_indexed hI part ha hv).1 (Interpretation.relates_of_truthAtom h _)
    · exact Interpretation.relates_of_not_mem fun u hu hv => hm ⟨u, hu, hv⟩
  · intro h
    refine Interpretation.truthAtom_of_relates hr (fun u hu => (after u hu).1) fun w => ?_
    by_cases hm : ∃ u ∈ a.setArgs, w ∈ ((σ.indexed I).value u).members
    · obtain ⟨u, hu, hm⟩ := hm
      obtain ⟨v, hv, rfl⟩ := (after u hu).2 w hm
      exact (relates_indexed hI part ha hv).2 (Interpretation.relates_of_truthAtom h _)
    · exact Interpretation.relates_of_not_mem fun u hu hw => hm ⟨u, hu, hw⟩

/-- **Sorted atoms keep their truth** when elements are replaced by their positions. -/
theorem truthAtom_indexed {a : Atom} (ha : a.Sorted τ) :
    (σ.indexed I).truthAtom a = I.truthAtom a := by
  have within {e : Term} (he : e.IsElement τ) : (I.value e).IsElementWithin I.domain :=
    Interpretation.value_of_isElement hI.elements he
  cases a with
  | eq l r =>
    rw [Bool.eq_iff_iff, Interpretation.truthAtom, Interpretation.truthAtom,
      value_indexed part ha.1, value_indexed part ha.2, beq_iff_eq, beq_iff_eq]
    exact Value.index_inj (within ha.1) (within ha.2)
  | mem e s =>
    rw [Bool.eq_iff_iff, Interpretation.truthAtom, Interpretation.truthAtom,
      value_indexed part ha.1, List.contains_iff_mem, List.contains_iff_mem]
    exact index_mem_members_indexed hI part (within ha.1) s ha.2
  | isEmpty | subset | setEq => exact truthAtom_indexed_relation hI part ha rfl
  | pred => exact ha.elim

end Indexed

end Sorts

/-! ## Countermodels -/

/-- Every name of the selected interpretation has a value of its sort. -/
theorem Model.Space.realizes_select {I : Interpretation} {fs : List Formula} {σ : Sorts} {n : Nat}
    (hI : I.Fits (.ofFormulas fs) n) (hs : ∀ f ∈ fs, f.Every (Atom.Sorted σ)) :
    ((ofFormulas fs n).select I).Realizes fs := by
  have within {v : Value} (hv : v.IsElementBelow n) :
      v.IsElementWithin (ofFormulas fs n).domain := by
    obtain ⟨i, hi, rfl⟩ := hv
    exact ⟨i, mem_domain_ofFormulas hi, rfl⟩
  have sets (x : String) : ((ofFormulas fs n).select I).sets.lookup x =
      if x ∈ setVarNames fs then some (I.denote x) else none := by
    simp only [select, interpretation, ← List.map_prod_left_eq_zip, Sorts.lookup_map, mem_setNames]
  refine ⟨fun x hx => ?_, fun f hf x _ unused => ?_, fun f hf x hx unused => ?_,
    fun f hf p args hm => ((hs f hf).of_mem_atoms hm : False).elim⟩
  · obtain ⟨isSet, below⟩ := hI.sets x hx
    exact ⟨I.denote x, by rw [sets, if_pos hx], isSet, fun w hw => within (below w hw)⟩
  · rw [sets, if_neg unused]
  · have named : x ∈ elementVarNames fs :=
      mem_elementVarNames.2 ⟨⟨f, hf, Formula.mem_vars_of_mem_freeVars hx⟩, unused⟩
    obtain ⟨m, hm, he⟩ := within (hI.elements x named)
    refine ⟨m, hm, ?_⟩
    simp only [select, interpretation, ← List.map_prod_left_eq_zip, Sorts.lookup_map,
      mem_elementNames, if_pos named, he]
    rfl

namespace Sequent

variable {s : Sequent} {σ : Sorts} {I : Interpretation} {n : Nat} {stem : String} {maxRounds : Int}

/-- Some interpretation that gives every name a value of its sort, over a finite domain, satisfies the
facts and not the goal. -/
def HasCountermodel (s : Sequent) : Prop :=
  ∃ I : Interpretation, I.Realizes s.formulas ∧ (∀ f ∈ s.facts, I.holds f = .ok true) ∧
    I.holds s.goal = .ok false

/-- **The first `n` elements are enough for a countermodel** of a sorted sequent, for some `n`. -/
theorem hasCountermodel_iff_fits (hs : s.Every (Atom.Sorted σ)) :
    s.HasCountermodel ↔ ∃ n, ∃ I : Interpretation, I.Fits σ n ∧ I.Refutes s := by
  have sorted := sorted_ofFormulas hs
  have part := ofFormulas_partOf hs
  constructor
  · rintro ⟨I, realizes, hf, hg⟩
    have hI := realizes.fitsDomain hs
    have same (f : Formula) (hm : f ∈ s.formulas) : (σ.indexed I).truth f = I.truth f :=
      Interpretation.truth_of_atoms
        ((sorted f hm).imp fun a ha => Sorts.truthAtom_indexed hI part ha)
    refine ⟨_, σ.indexed I, σ.fits_indexed I, fun f hm => ?_, ?_⟩
    · rw [same f (List.mem_append_left _ hm)]
      exact Interpretation.truth_of_holds (hf f hm)
    · rw [same _ (mem_formulas.2 (.inr rfl))]
      exact Interpretation.truth_of_holds hg
  · rintro ⟨n, I, hI, hr⟩
    have hI := hI.of_partOf part
    let J := (Space.ofFormulas s.formulas n).select I
    have holds (f : Formula) (hm : f ∈ s.formulas) : J.holds f = .ok (J.truth f) :=
      Interpretation.holds_of_interprets
        (Space.interprets (Space.select_mem_interpretations hI) (sorted f hm))
    obtain ⟨hf, hg⟩ := Space.refutes_select hI sorted hr
    refine ⟨J, Space.realizes_select hI hs, fun f hm => ?_, ?_⟩
    · rw [holds f (List.mem_append_left _ hm), hf f hm]
    · rw [holds _ (mem_formulas.2 (.inr rfl)), hg]

/-! ## Countermodels of the instances -/

/-- A goal that is false is false at an element, if it is a set relation. -/
theorem exists_element_not_relates (h : s.Regular σ) (hI : I.Fits σ n) (hr : I.Refutes s) :
    ∃ w : Value, w.IsElementBelow (n + 1) ∧
      ∀ a, s.goal = .atom a → a.isSetRelation = true → ¬ I.Relates w a := by
  have sets (a : Atom) (ha : s.goal = .atom a) {u : Term} (hu : u ∈ a.setArgs) :
      (I.value u).IsSetBelow n := by
    have sorted := h.sorted s.goal (mem_formulas.2 (.inr rfl))
    rw [ha] at sorted
    exact hI.isSetBelow u (sorted.isSet hu)
  obtain ⟨w, hw⟩ := exists_not_relates (fun a ha _ u hu => (sets a ha hu).1) hr
  by_cases below : w.IsElementBelow (n + 1)
  · exact ⟨w, below, hw⟩
  -- No set holds any other value, so the goal is no set relation.
  · refine ⟨.element (0 : Nat), ⟨0, Nat.succ_pos n, rfl⟩, fun a ha hrel => ?_⟩
    refine absurd (Interpretation.relates_of_not_mem fun u hu hm => below ?_) (hw a ha hrel)
    exact ((sets a ha hu).2 w hm).succ

/-- A countermodel that fits gives the fresh name an element at which the goal is false. -/
theorem exists_fits_instantiate (stem : String) (maxRounds : Int) (h : s.Regular σ)
    (hI : I.Fits σ n) (hr : I.Refutes s) :
    ∃ J : Interpretation, J.Fits (σ.withElement (s.freshVariable stem)) (n + 1) ∧
      J.Refutes (s.instantiate stem maxRounds).value := by
  obtain ⟨w, hw, fails⟩ := exists_element_not_relates h hI hr
  have opened := refutes_openGoal_assign stem (h.sorted.imp fun _ _ => trivial) hr fails
  refine ⟨_, ⟨fun x hx => ?_, fun y hy => ?_, ?_, ?_⟩,
    refutes_instantiate_of_openGoal maxRounds opened⟩
  · rw [Interpretation.denote_assign]
    split
    · exact hw
    · rename_i hne
      exact hI.succ.elements x ((List.mem_cons.1 hx).resolve_left hne)
  · obtain ⟨hy, hne⟩ := List.mem_filter.1 hy
    rw [Interpretation.denote_assign, if_neg (by simpa using hne)]
    exact hI.succ.sets y hy
  · rw [Interpretation.functions_assign, hI.functions]
  · rw [Interpretation.predicates_assign, hI.predicates]

/-- **Finite instantiation loses nothing where elements are given by variables.** Take a sequent without
symbols and quantifiers in which no name of a set stands for an element, and in which set relations stand
alone. If moreover every side of an equation, every element of a membership and every element inside a
constructor is a variable, then the instances at the element terms have a countermodel exactly if the
sequent has one, for every stem of the fresh name and every positive number of rounds.

The condition `named` is a restriction that the sorts of the names do not give. A union of set names may
stand for an element while these names do not, and then the equivalence fails in both directions: see
`equalUnions` and `nestedUnions` below. -/
theorem hasCountermodel_instantiate (apart : s.Every (Atom.SortsApart (setVarNames s.formulas)))
    (named : s.Every Atom.NamesElements) (layered : ∀ f ∈ s.formulas, f.Layered)
    (rounds : 1 ≤ maxRounds) :
    s.HasCountermodel ↔ (s.instantiate stem maxRounds).value.HasCountermodel := by
  have regular : s.Regular (.ofFormulas s.formulas) := ⟨sorted_of_names apart named, layered⟩
  have simple : (s.instantiate stem maxRounds).value.Every
      (Atom.Sorted ((Sorts.ofFormulas s.formulas).withElement (s.freshVariable stem))) :=
    regular.every_instantiate.imp fun _ => Atom.Simple.sorted
  rw [hasCountermodel_iff_fits regular.sorted, hasCountermodel_iff_fits simple]
  constructor
  · rintro ⟨n, I, hI, hr⟩
    exact ⟨n + 1, exists_fits_instantiate stem maxRounds regular hI hr⟩
  · rintro ⟨n, I, hI, hr⟩
    exact ⟨n, refutes_of_instantiate regular rounds hI hr⟩

/-- `t` holds `x` and all of `s`, and may hold more. -/
def surplus : Sequent where
  hypotheses :=
    [{ name := "H", formula := .atom (.subset (.add (.var "x") (.var "s")) (.var "t")) },
      { name := "K"
        formula := .or (.atom (.mem (.var "y") (.var "s"))) (.atom (.eq (.var "x") (.var "y"))) }]
  goal := .atom (.setEq (.var "t") (.add (.var "x") (.var "s")))

/-- `x` and `y` are `7`, `s` is empty, and `t` holds `7` and `-3`. -/
def surplusModel : Interpretation where
  domain := [7, -3]
  elements := [("x", 7), ("y", 7)]
  sets := [("s", .ofInts []), ("t", .ofInts [7, -3])]

theorem hasCountermodel_instantiate_surplus :
    surplus.Every (Atom.SortsApart (setVarNames surplus.formulas)) ∧
      surplus.Every Atom.NamesElements ∧ (∀ f ∈ surplus.formulas, f.Layered) ∧
      surplus.HasCountermodel ∧ (surplus.instantiate "z" 1).value.HasCountermodel := by
  have regular : surplus.Regular ⟨["x", "y"], ["s", "t"], by decide⟩ := by
    constructor <;> simp [surplus, Sequent.Every, formulas, facts, Formula.Every, Formula.or,
      Atom.Sorted, Term.IsSet, Term.IsElement, Formula.Layered, Formula.isSetRelation,
      Atom.isSetRelation]
  have realizes : surplusModel.Realizes surplus.formulas := by
    refine ⟨fun x hx => ?_, by decide, fun f hf x hx unused => ?_, fun f hf p args hm => ?_⟩
    · obtain rfl | rfl : x = "s" ∨ x = "t" := by revert x; decide
      · exact ⟨_, rfl, Value.isSetWithin_ofInts (by decide)⟩
      · exact ⟨_, rfl, Value.isSetWithin_ofInts (by decide)⟩
    · obtain rfl | rfl : x = "x" ∨ x = "y" := by revert x; revert f; decide
      · exact ⟨7, by decide, rfl⟩
      · exact ⟨7, by decide, rfl⟩
    · exact ((regular.sorted f hf).of_mem_atoms hm : False).elim
  have apart : surplus.Every (Atom.SortsApart (setVarNames surplus.formulas)) :=
    regular.sorted.imp fun _ ha => ha.sortsApart (ofFormulas_partOf regular.sorted).sets
  have named : surplus.Every Atom.NamesElements := regular.sorted.imp fun _ ha => ha.namesElements
  have countermodel : surplus.HasCountermodel := ⟨surplusModel, realizes, by decide, by decide⟩
  exact ⟨apart, named, regular.layered, countermodel,
    (hasCountermodel_instantiate apart named regular.layered (by decide)).1 countermodel⟩

/-! ## Constructors that stand for elements -/

/-- `s` and `t` have the same members, so `s ∪ s` is `t ∪ t`. -/
def equalUnions : Sequent where
  hypotheses := [
    { name := "H0", formula := .atom (.subset (.var "s") (.var "t")) },
    { name := "H1", formula := .atom (.subset (.var "t") (.var "s")) }]
  goal := .atom (.eq (.union (.var "s") (.var "s")) (.union (.var "t") (.var "t")))

/-- `t` may hold more than `s`, so `s ∪ s` need not be `t ∪ t`. -/
def nestedUnions : Sequent where
  hypotheses := [{ name := "H0", formula := .atom (.subset (.var "s") (.var "t")) }]
  goal := .atom (.subset (.singleton (.union (.var "s") (.var "s")))
    (.singleton (.union (.var "t") (.var "t"))))

/-- No variable stands for an element in the two, and set relations stand alone. -/
theorem sortsApart_unions (sets : List String) :
    ∀ f ∈ equalUnions.formulas ++ nestedUnions.formulas, f.Every (Atom.SortsApart sets) ∧ f.Layered := by
  intro f hf
  simp only [equalUnions, nestedUnions, formulas, facts, List.map_cons, List.map_nil, List.cons_append,
    List.nil_append, List.mem_cons, List.not_mem_nil, or_false] at hf
  refine ⟨?_, ?_⟩
  · rcases hf with rfl | rfl | rfl | rfl | rfl
    all_goals
      exact ⟨by simp, by simp [Term.listSubterms, Atom.args, Term.subterms],
        by simp [Atom.elementTerms, Term.constructorElements]⟩
  · rcases hf with rfl | rfl | rfl | rfl | rfl
    all_goals simp [Formula.Layered, Formula.isSetRelation, Atom.isSetRelation, Formula.Every]

/-- `s` is empty, and `t` is not. -/
def strictModel : Interpretation where
  domain := [0]
  sets := [("s", .ofInts []), ("t", .ofInts [0])]

theorem hasCountermodel_of_strictModel (sets : setVarNames s.formulas ⊆ ["s", "t"])
    (vars : ∀ f ∈ s.formulas, ∀ x ∈ f.vars, x ∈ setVarNames s.formulas)
    (shapes : ∀ f ∈ s.formulas, ∀ a ∈ f.atoms, a.shape ≠ .pred)
    (facts : ∀ f ∈ s.facts, strictModel.holds f = .ok true)
    (goal : strictModel.holds s.goal = .ok false) : s.HasCountermodel := by
  refine ⟨strictModel, ⟨fun x hx => ?_, fun f hf x hx unused => ?_, fun f hf x hx unused => ?_,
    fun f hf p args hm => ?_⟩, facts, goal⟩
  · obtain rfl | rfl : x = "s" ∨ x = "t" := by simpa using sets hx
    · exact ⟨_, rfl, Value.isSetWithin_ofInts (by decide)⟩
    · exact ⟨_, rfl, Value.isSetWithin_ofInts (by decide)⟩
  · exact absurd (vars f hf x hx) unused
  · exact absurd (vars f hf x (Formula.mem_vars_of_mem_freeVars hx)) unused
  · exact absurd rfl (shapes f hf _ hm)

theorem not_hasCountermodel_equalUnions : ¬ equalUnions.HasCountermodel := by
  rintro ⟨I, realizes, facts, goal⟩
  have below := Interpretation.truth_of_holds (facts _ (.head _))
  have above := Interpretation.truth_of_holds (facts _ (.tail _ (.head _)))
  have same : I.denote "s" = I.denote "t" := by
    refine Value.ext_members (realizes.isSetWithin (by decide)).1 (realizes.isSetWithin (by decide)).1
      fun w => ⟨?_, ?_⟩
    · exact Interpretation.relates_of_truthAtom below w
    · exact Interpretation.relates_of_truthAtom above w
  have different := Interpretation.truth_of_holds goal
  simp [equalUnions, Interpretation.truth, Interpretation.truthAtom, Interpretation.value, same]
    at different

/-- The fresh name stands for an element, and no element is `s ∪ s`. -/
theorem not_hasCountermodel_instantiate_nestedUnions :
    ¬ (nestedUnions.instantiate "z" 16).value.HasCountermodel := by
  rintro ⟨I, realizes, -, goal⟩
  have opened : (nestedUnions.instantiate "z" 16).value.goal =
      .implies (.atom (.eq (.union (.var "s") (.var "s")) (.var "z0")))
        (.atom (.eq (.union (.var "t") (.var "t")) (.var "z0"))) := rfl
  obtain ⟨n, _, element⟩ := realizes.isElementWithin (x := "z0") (mem_formulas.2 (.inr rfl))
    (by decide) (by decide)
  have equal : I.value (.union (.var "s") (.var "s")) = I.denote "z0" := by
    have fails := Interpretation.truth_of_holds goal
    simp only [opened, Interpretation.truth, Interpretation.truthAtom, Connective.combine,
      Bool.or_eq_false_iff, Bool.not_eq_false', beq_iff_eq] at fails
    exact fails.1
  have set : (I.denote "z0").isSet = true :=
    equal ▸ Value.isSet_join (realizes.isSetWithin (by decide)).1
  rw [element] at set
  cases set

/-- **Where constructors stand for elements, instantiation is not exact**, although no name of a set does
and set relations stand alone. Inclusions between `s` and `t` are not used at the members of `s ∪ s` and
`t ∪ t`, so their instances have a countermodel too many. And a fresh name cannot stand for `s ∪ s`, so
the instances of an inclusion between sets of such members lack one. -/
theorem instantiate_inexact :
    (equalUnions.Every (Atom.SortsApart (setVarNames equalUnions.formulas)) ∧
        (∀ f ∈ equalUnions.formulas, f.Layered) ∧ ¬ equalUnions.HasCountermodel ∧
        (equalUnions.instantiate "z" 16).value.HasCountermodel) ∧
      nestedUnions.Every (Atom.SortsApart (setVarNames nestedUnions.formulas)) ∧
        (∀ f ∈ nestedUnions.formulas, f.Layered) ∧ nestedUnions.HasCountermodel ∧
        ¬ (nestedUnions.instantiate "z" 16).value.HasCountermodel := by
  have gained : (equalUnions.instantiate "z" 16).value.HasCountermodel :=
    hasCountermodel_of_strictModel (by decide) (by decide) (by decide) (by decide) (by decide)
  have lost : nestedUnions.HasCountermodel :=
    hasCountermodel_of_strictModel (by decide) (by decide) (by decide) (by decide) (by decide)
  refine ⟨⟨fun f hf => ?_, fun f hf => ?_, not_hasCountermodel_equalUnions, gained⟩,
    fun f hf => ?_, fun f hf => ?_, lost, not_hasCountermodel_instantiate_nestedUnions⟩
  · exact (sortsApart_unions _ f (List.mem_append_left _ hf)).1
  · exact (sortsApart_unions [] f (List.mem_append_left _ hf)).2
  · exact (sortsApart_unions _ f (List.mem_append_right _ hf)).1
  · exact (sortsApart_unions [] f (List.mem_append_right _ hf)).2

end Sequent

end SetSequent
