import SetSequent.Proofs.BranchModels
import SetSequent.Proofs.Stages

/-!
# Formulas with two sorts of names

In a problem without symbols every name is an element name or a set name.

* `Sorts` — the names of the two sorts.
* `Atom.Sorted`, `Atom.Simple` — atoms that use each name in its sort; simple ones are equations of
  element names and memberships of element names in set names.
* `Interpretation.Fits` — every element name denotes one of `n` elements, every set name a set of these.
* `Sorts.interpretation` — chosen values for the names.
* `every_sorted_eliminate`, `stable_simple` — elimination keeps the sorts, and simple atoms simple.
* `refutes_of_substitute` — a countermodel that fits is carried back over the elimination of equations.
-/

namespace SetSequent

open Model

/-- Names of elements and names of sets; no name is both. -/
structure Sorts where
  elements : List String
  sets : List String
  disjoint : ∀ x ∈ elements, x ∉ sets

/-! ## Sorts of terms and atoms -/

namespace Term

def IsElement (σ : Sorts) : Term → Prop
  | .var x => x ∈ σ.elements
  | _ => False

def IsSet (σ : Sorts) : Term → Prop
  | .var x => x ∈ σ.sets
  | .app .. => False
  | .empty => True
  | .singleton e => e.IsElement σ
  | .add e s | .remove e s => e.IsElement σ ∧ IsSet σ s
  | .union s t | .inter s t | .diff s t => IsSet σ s ∧ IsSet σ t

end Term

namespace Atom

/-- Every name is used in its sort, and there are no predicates. -/
def Sorted (σ : Sorts) : Atom → Prop
  | .eq l r => l.IsElement σ ∧ r.IsElement σ
  | .mem e s => e.IsElement σ ∧ s.IsSet σ
  | .isEmpty s => s.IsSet σ
  | .subset s t | .setEq s t => s.IsSet σ ∧ t.IsSet σ
  | .pred .. => False

/-- An equation of element names, or the membership of an element name in a set name. -/
def Simple (σ : Sorts) : Atom → Prop
  | .eq l r => l.IsElement σ ∧ r.IsElement σ
  | .mem e s => e.IsElement σ ∧ ∃ x ∈ σ.sets, s = .var x
  | _ => False

end Atom

/-- The variable and its replacement have the same sort. -/
def Replaces (σ : Sorts) (x : String) (r : Term) : Prop :=
  x ∈ σ.elements ∧ r.IsElement σ ∨ x ∈ σ.sets ∧ r.IsSet σ

section Replacement

variable {σ : Sorts} {x : String} {r : Term}

theorem Term.isElement_subst {t : Term} (ht : t.IsElement σ) (hr : Replaces σ x r) :
    (t.subst x r).IsElement σ := by
  cases t with
  | var y =>
    by_cases hy : y = x
    · subst hy
      rcases hr with ⟨_, hr⟩ | ⟨hx, _⟩
      · simpa [subst] using hr
      · exact absurd hx (σ.disjoint y ht)
    · simpa [subst, hy] using ht
  | _ => exact ht.elim

theorem Term.isSet_subst : (t : Term) → t.IsSet σ → Replaces σ x r → (t.subst x r).IsSet σ
  | .var y, ht, hr => by
    by_cases hy : y = x
    · subst hy
      rcases hr with ⟨hx, _⟩ | ⟨_, hr⟩
      · exact absurd ht (σ.disjoint y hx)
      · simpa [subst] using hr
    · simpa [subst, hy] using ht
  | .app f args, ht, _ => ht.elim
  | .empty, _, _ => trivial
  | .singleton e, ht, hr => isElement_subst (t := e) ht hr
  | .add e s, ht, hr | .remove e s, ht, hr =>
    ⟨isElement_subst ht.1 hr, isSet_subst s ht.2 hr⟩
  | .union s t, ht, hr | .inter s t, ht, hr | .diff s t, ht, hr =>
    ⟨isSet_subst s ht.1 hr, isSet_subst t ht.2 hr⟩

theorem Atom.sorted_subst {a : Atom} (ha : a.Sorted σ) (hr : Replaces σ x r) :
    (a.mapArgs (·.subst x r)).Sorted σ := by
  cases a with
  | eq l r => exact ⟨Term.isElement_subst ha.1 hr, Term.isElement_subst ha.2 hr⟩
  | mem e s => exact ⟨Term.isElement_subst ha.1 hr, Term.isSet_subst s ha.2 hr⟩
  | isEmpty s => exact Term.isSet_subst s ha hr
  | subset s t | setEq s t => exact ⟨Term.isSet_subst s ha.1 hr, Term.isSet_subst t ha.2 hr⟩
  | pred p args => exact ha.elim

theorem Atom.Sorted.isSet {a : Atom} (ha : a.Sorted σ) {u : Term} (hu : u ∈ a.setArgs) :
    u.IsSet σ := by
  cases a with
  | mem e s => rw [List.mem_singleton.1 hu]; exact ha.2
  | isEmpty s => rw [List.mem_singleton.1 hu]; exact ha
  | subset s t | setEq s t =>
    rcases List.mem_cons.1 hu with rfl | hu
    · exact ha.1
    · rw [List.mem_singleton.1 hu]; exact ha.2
  | eq | pred => cases hu

/-- Set terms are made of elements. -/
theorem Term.isElement_of_constructor : (t : Term) → t.IsSet σ →
    ∀ e ∈ t.constructorElements, e.IsElement σ
  | .var _, _, _, h | .empty, _, _, h => (List.not_mem_nil h).elim
  | .app _ _, ht, _, _ => ht.elim
  | .singleton _, ht, _, h => List.mem_singleton.1 h ▸ ht
  | .add a s, ht, e, h | .remove a s, ht, e, h => by
    rcases List.mem_cons.1 h with rfl | h
    · exact ht.1
    · exact isElement_of_constructor s ht.2 e h
  | .union s t, ht, e, h | .inter s t, ht, e, h | .diff s t, ht, e, h => by
    rcases List.mem_append.1 h with h | h
    · exact isElement_of_constructor s ht.1 e h
    · exact isElement_of_constructor t ht.2 e h

theorem Atom.Sorted.isElement {a : Atom} (ha : a.Sorted σ) {e : Term} (he : e ∈ a.elementTerms) :
    e.IsElement σ := by
  cases a with
  | eq l r =>
    rcases List.mem_cons.1 he with rfl | he
    · exact ha.1
    · rw [List.mem_singleton.1 he]; exact ha.2
  | mem t s =>
    rcases List.mem_cons.1 he with rfl | he
    · exact ha.1
    · exact s.isElement_of_constructor ha.2 e he
  | isEmpty s => exact s.isElement_of_constructor ha e he
  | subset s t | setEq s t =>
    rcases List.mem_append.1 he with he | he
    · exact s.isElement_of_constructor ha.1 e he
    · exact t.isElement_of_constructor ha.2 e he
  | pred => exact ha.elim

theorem Atom.Simple.sorted {a : Atom} (ha : a.Simple σ) : a.Sorted σ := by
  cases a with
  | eq l r => exact ha
  | mem e s =>
    obtain ⟨he, y, hy, rfl⟩ := ha
    exact ⟨he, hy⟩
  | isEmpty | subset | setEq | pred => exact ha.elim

theorem Atom.Simple.ordinary {a : Atom} (ha : a.Simple σ) : a.isSetRelation = false := by
  cases a with
  | eq | mem => rfl
  | isEmpty | subset | setEq | pred => exact ha.elim

theorem Term.IsElement.exists_var {t : Term} (ht : t.IsElement σ) : ∃ x ∈ σ.elements, t = .var x := by
  cases t with
  | var x => exact ⟨x, ht, rfl⟩
  | _ => exact ht.elim

/-- A simple atom relates two names. -/
theorem Atom.Simple.names {a : Atom} (ha : a.Simple σ) :
    (∃ x ∈ σ.elements, ∃ y ∈ σ.elements, a = .eq (.var x) (.var y)) ∨
      ∃ x ∈ σ.elements, ∃ y ∈ σ.sets, a = .mem (.var x) (.var y) := by
  cases a with
  | eq l r =>
    obtain ⟨x, hx, rfl⟩ := ha.1.exists_var
    obtain ⟨y, hy, rfl⟩ := ha.2.exists_var
    exact .inl ⟨x, hx, y, hy, rfl⟩
  | mem e s =>
    obtain ⟨he, y, hy, rfl⟩ := ha
    obtain ⟨x, hx, rfl⟩ := he.exists_var
    exact .inr ⟨x, hx, y, hy, rfl⟩
  | isEmpty | subset | setEq | pred => exact ha.elim

theorem Atom.simple_orient {a : Atom} (ha : a.Simple σ) : a.orient.Simple σ := by
  cases a with
  | eq l r =>
    rw [orient]
    split
    · exact ⟨ha.2, ha.1⟩
    · exact ha
  | _ => exact ha

theorem Atom.sorted_orient {a : Atom} (ha : a.Sorted σ) : a.orient.Sorted σ := by
  cases a with
  | eq l r => exact (simple_orient (a := .eq l r) ha).sorted
  | _ => exact ha

/-- Unfolding ends with simple atoms. -/
theorem every_simple_unfoldMember {e s : Term} (he : e.IsElement σ) (hs : s.IsSet σ) :
    (unfoldMember e s).Every (Atom.Simple σ) := by
  have equation {a : Term} (ha : a.IsElement σ) : (Atom.eq e a).orient.Simple σ :=
    Atom.simple_orient (a := .eq e a) ⟨he, ha⟩
  induction s using unfoldMember.induct with
  | case1 y => exact ⟨he, y, hs, rfl⟩
  | case2 f args => exact hs.elim
  | case3 => trivial
  | case4 a => exact equation hs
  | case5 a s ih | case6 a s ih => exact ⟨equation hs.1, ih hs.2⟩
  | case7 s t ihs iht | case8 s t ihs iht | case9 s t ihs iht => exact ⟨ihs hs.1, iht hs.2⟩

theorem every_sorted_unfold {a : Atom} (ha : a.Sorted σ) :
    (Formula.atom a).unfold.Every (Atom.Sorted σ) := by
  cases a with
  | mem e s => exact (every_simple_unfoldMember ha.1 ha.2).imp fun _ => Atom.Simple.sorted
  | eq l r => exact Atom.sorted_orient (a := .eq l r) ha
  | isEmpty | subset | setEq => exact ha
  | pred => exact ha.elim

theorem every_simple_unfold {a : Atom} (ha : a.Sorted σ) (hr : a.isSetRelation = false) :
    (Formula.atom a).unfold.Every (Atom.Simple σ) := by
  cases a with
  | mem e s => exact every_simple_unfoldMember ha.1 ha.2
  | eq l r => exact Atom.simple_orient (a := .eq l r) ha
  | isEmpty | subset | setEq => cases hr
  | pred => exact ha.elim

theorem every_sorted_eliminate {a : Atom} (ha : a.Sorted σ) (hr : Replaces σ x r) :
    ((Formula.atom a).eliminate x r).Every (Atom.Sorted σ) :=
  every_sorted_unfold (Atom.sorted_subst ha hr)

theorem every_simple_eliminate {a : Atom} (ha : a.Simple σ) (hr : Replaces σ x r) :
    ((Formula.atom a).eliminate x r).Every (Atom.Simple σ) := by
  refine every_simple_unfold (Atom.sorted_subst ha.sorted hr) ?_
  rw [← ha.ordinary]
  cases a <;> rfl

/-- The equation that offers a variable has sides of one sort. -/
theorem replaces_of_eliminate {f : Formula} (hf : f.Every (Atom.Sorted σ))
    (h : f.removal? = some (.eliminate x r)) : Replaces σ x r := by
  obtain ⟨_, rfl | rfl | rfl | rfl⟩ := Formula.equation_of_eliminate h
  · exact .inl ⟨hf.2, hf.1⟩
  · exact .inl hf
  · exact .inr ⟨hf.2, hf.1⟩
  · exact .inr hf

theorem replaces_of_elimination? {a : Atom} (ha : a.Sorted σ)
    (h : Search.Front.elimination? a = some (x, r)) : Replaces σ x r := by
  unfold Search.Front.elimination? at h
  split at h
  · obtain ⟨⟨h₁, h₂⟩ | ⟨h₁, h₂⟩, _⟩ := Equation.eq_of_elimination? h
    all_goals
      simp only at h₁ h₂
      subst h₁ h₂
    · exact .inl ⟨ha.2, ha.1⟩
    · exact .inl ha
  · cases h

/-- Propagation keeps simple atoms simple. -/
theorem stable_simple (σ : Sorts) : Search.Stable (Atom.Simple σ) := by
  refine ⟨fun a ha => Atom.simple_orient ha, fun a x r ha h b hb => ?_⟩
  exact every_simple_eliminate hb (replaces_of_elimination? ha.sorted h)

end Replacement

/-! ## Values of the two sorts -/

namespace Model

/-- One of the first `n` elements. -/
def Value.IsElementBelow (n : Nat) (v : Value) : Prop := ∃ i < n, v = .element (i : Nat)

/-- A set of some of the first `n` elements. -/
def Value.IsSetBelow (n : Nat) (v : Value) : Prop :=
  v.isSet = true ∧ ∀ w ∈ v.members, w.IsElementBelow n

namespace Value

variable {n : Nat} {v : Value}

/-- The integer that an element is. -/
def number (v : Value) : Int :=
  match v.view with
  | .element n => n
  | .set _ => 0

theorem element_number (h : v.IsElementBelow n) : .element v.number = v := by
  obtain ⟨i, _, rfl⟩ := h
  rfl

theorem isSetBelow_ofList {vs : List Value} (h : ∀ v ∈ vs, v.IsElementBelow n) :
    (ofList vs).IsSetBelow n :=
  isSetOf_ofList h

end Value

namespace Interpretation

/-- The names of the two sorts denote values of their sort over the first `n` elements, and there are
no symbols. -/
structure Fits (I : Interpretation) (σ : Sorts) (n : Nat) : Prop where
  elements : ∀ x ∈ σ.elements, (I.denote x).IsElementBelow n
  sets : ∀ x ∈ σ.sets, (I.denote x).IsSetBelow n
  functions : I.functions = fun _ _ => none
  predicates : I.predicates = fun _ => none

variable {I : Interpretation} {σ : Sorts} {n : Nat}

/-- An element term denotes what an element name denotes. -/
theorem value_of_isElement {E : Value → Prop} (he : ∀ x ∈ σ.elements, E (I.denote x)) {t : Term}
    (ht : t.IsElement σ) : E (I.value t) := by
  cases t with
  | var x => exact he x ht
  | _ => exact ht.elim

/-- A set term denotes a set of what the element names denote and the set names hold. -/
theorem isSetOf_value {E : Value → Prop} (he : ∀ x ∈ σ.elements, E (I.denote x))
    (hs : ∀ y ∈ σ.sets, (I.denote y).IsSetOf E) : (t : Term) → t.IsSet σ → (I.value t).IsSetOf E
  | .var x, ht => hs x ht
  | .app _ _, ht => ht.elim
  | .empty, _ => Value.isSetOf_ofList (by simp)
  | .singleton e, ht => Value.isSetOf_ofList (by simpa using value_of_isElement he ht)
  | .add e s, ht => by
    refine (isSetOf_value he hs s ht.2).join fun w hw => ?_
    rw [Value.mem_members_ofList, List.mem_singleton] at hw
    rw [hw]
    exact value_of_isElement he ht.1
  | .remove e s, ht => (isSetOf_value he hs s ht.2).minus _
  | .union s t, ht => (isSetOf_value he hs s ht.1).join (isSetOf_value he hs t ht.2).2
  | .inter s t, ht => (isSetOf_value he hs s ht.1).meet _
  | .diff s t, ht => (isSetOf_value he hs s ht.1).minus _

theorem Fits.isElementBelow (h : I.Fits σ n) {t : Term} (ht : t.IsElement σ) :
    (I.value t).IsElementBelow n :=
  value_of_isElement h.elements ht

theorem Fits.isSetBelow (h : I.Fits σ n) (t : Term) (ht : t.IsSet σ) : (I.value t).IsSetBelow n :=
  isSetOf_value h.elements h.sets t ht

theorem Fits.assign (h : I.Fits σ n) {x : String} {v : Value}
    (he : x ∈ σ.elements → v.IsElementBelow n) (hs : x ∈ σ.sets → v.IsSetBelow n) :
    (I.assign x v).Fits σ n := by
  refine ⟨fun y hy => ?_, fun y hy => ?_, by rw [functions_assign, h.functions],
    by rw [predicates_assign, h.predicates]⟩
  · rw [denote_assign]
    split
    · rename_i hx
      exact he (hx ▸ hy)
    · exact h.elements y hy
  · rw [denote_assign]
    split
    · rename_i hx
      exact hs (hx ▸ hy)
    · exact h.sets y hy

/-- A variable may be given the value of its replacement. -/
theorem Fits.assign_replacement (h : I.Fits σ n) {x : String} {r : Term} (hr : Replaces σ x r) :
    (I.assign x (I.value r)).Fits σ n := by
  rcases hr with ⟨hx, hr⟩ | ⟨hx, hr⟩
  · exact h.assign (fun _ => h.isElementBelow hr) fun hs => absurd hs (σ.disjoint x hx)
  · exact h.assign (fun he => absurd hx (σ.disjoint x he)) fun _ => h.isSetBelow r hr

/-- Afterwards the variable has the value of its replacement. -/
theorem denote_assign_value {x : String} {r : Term} (hx : x ∉ r.vars) :
    (I.assign x (I.value r)).denote x = (I.assign x (I.value r)).value r := by
  have hr : (I.assign x (I.value r)).value r = I.value r :=
    value_congr r ((agrees_assign I x _).imp fun y hy he => hx (he ▸ hy))
  rw [denote_assign, if_pos rfl, hr]

end Interpretation

end Model

/-! ## Values chosen for the names -/

namespace Sorts

/-- The interpretation that gives the names of the two sorts the chosen values. -/
def interpretation (σ : Sorts) (element : String → Int) (set : String → Value) :
    Interpretation where
  elements := σ.elements.map fun x => (x, element x)
  sets := σ.sets.map fun y => (y, set y)

theorem lookup_map {α : Type} (xs : List String) (g : String → α) (x : String) :
    (xs.map fun y => (y, g y)).lookup x = if x ∈ xs then some (g x) else none := by
  induction xs with
  | nil => rfl
  | cons y ys ih =>
    rw [List.map_cons]
    by_cases hx : x = y
    · subst hx
      rw [List.lookup_cons_self, if_pos (.head _)]
    · rw [Interpretation.lookup_cons_of_ne hx, ih]
      simp [hx]

variable {σ : Sorts} {element : String → Int} {set : String → Value} {x y : String}

theorem lookup_element (hx : x ∈ σ.elements) :
    (σ.interpretation element set).lookup x = .ok (.element (element x)) := by
  have hs : x ∉ σ.sets := σ.disjoint x hx
  simp only [Interpretation.lookup, interpretation, lookup_map, if_neg hs, if_pos hx]

theorem lookup_set (hy : y ∈ σ.sets) :
    (σ.interpretation element set).lookup y = .ok (set y) := by
  simp only [Interpretation.lookup, interpretation, lookup_map, if_pos hy]

theorem denote_element (hx : x ∈ σ.elements) :
    (σ.interpretation element set).denote x = .element (element x) := by
  rw [Interpretation.denote, lookup_element hx, withDefault_ok]

theorem denote_set (hy : y ∈ σ.sets) : (σ.interpretation element set).denote y = set y := by
  rw [Interpretation.denote, lookup_set hy, withDefault_ok]

theorem fits_interpretation {n : Nat}
    (he : ∀ x ∈ σ.elements, (Value.element (element x)).IsElementBelow n)
    (hs : ∀ y ∈ σ.sets, (set y).IsSetBelow n) : (σ.interpretation element set).Fits σ n := by
  refine ⟨fun x hx => ?_, fun y hy => ?_, rfl, rfl⟩
  · rw [denote_element hx]
    exact he x hx
  · rw [denote_set hy]
    exact hs y hy

end Sorts

/-! ## Back over the elimination of equations -/

namespace Sequent

variable {I : Interpretation} {s : Sequent} {σ : Sorts} {n : Nat}

theorem every_sorted_substitute (he : s.Every (Atom.Sorted σ)) :
    s.substitute.value.Every (Atom.Sorted σ) :=
  every_substitute (fun _ _ _ hf h _ ha => every_sorted_eliminate ha (replaces_of_eliminate hf h)) he

theorem every_simple_substitute (he : s.Every (Atom.Simple σ)) :
    s.substitute.value.Every (Atom.Simple σ) :=
  every_substitute (fun _ _ _ hf h _ ha => every_simple_eliminate ha
    (replaces_of_eliminate (hf.imp fun _ => Atom.Simple.sorted) h)) he

/-- An eliminated variable is gone from the other formulas, so its value is free to choose. With the value
of its replacement its equation holds, and the formulas are as true as those it was eliminated from. -/
theorem Without.refutes_assign {h : Hypothesis} {s' : Sequent} {x : String} {t : Term}
    (hw : Without h s' s) (hf : h.formula.removal? = some (.eliminate x t))
    (he : s.Every fun _ => True) (hr : I.Refutes (s'.eliminate x t)) :
    (I.assign x (I.value t)).Refutes s := by
  obtain ⟨_, he'⟩ := hw.every.1 he
  have hx := (Formula.equation_of_eliminate hf).1
  let K := I.assign x (I.value t)
  have hK : K.denote x = K.value t := Interpretation.denote_assign_value hx
  have agrees : ∀ f ∈ (s'.eliminate x t).formulas, K.Agrees I (· ∈ f.freeVars) :=
    fun f hm => (Interpretation.agrees_assign I x _).imp fun y hy e =>
      not_mem_freeVars_eliminate hx hm (e ▸ hy)
  have plain : (s'.eliminate x t).Every fun _ => True :=
    every_eliminate he' fun _ _ => Formula.every_unfold_atom _
  have hr' : K.Refutes (s'.eliminate x t) := (refutes_congr plain agrees).2 hr
  refine hw.refutes.2 ⟨?_, ?_⟩
  · exact (Formula.truth_iff_of_eliminate hf).2 hK
  · exact (refutes_eliminate he' hK).1 hr'

/-- **Elimination of equations loses no countermodel that fits**: an eliminated variable is given the
value of its replacement. -/
theorem refutes_of_substitute (he : s.Every (Atom.Sorted σ)) (hI : I.Fits σ n)
    (h : I.Refutes s.substitute.value) : ∃ J : Interpretation, J.Fits σ n ∧ J.Refutes s := by
  refine substitute_induction
    (R := fun s r => s.Every (Atom.Sorted σ) → I.Refutes r →
      ∃ J : Interpretation, J.Fits σ n ∧ J.Refutes s) ?done ?drop ?eliminate s he h
  case done =>
    intro s _ _ h
    exact ⟨I, hI, h⟩
  case drop =>
    intro s s' r g hw hf ih he h
    obtain ⟨J, hJ, hr⟩ := ih (hw.every.1 he).2 h
    exact ⟨J, hJ, hw.refutes.2 ⟨Formula.truth_of_trivial hf, hr⟩⟩
  case eliminate =>
    intro s s' r g x t hw hf ih he h
    obtain ⟨hg, he'⟩ := hw.every.1 he
    have ht := replaces_of_eliminate hg hf
    obtain ⟨J, hJ, hr⟩ := ih (every_eliminate he' fun a ha => every_sorted_eliminate ha ht) h
    have plain : s.Every fun _ => True := he.imp fun _ _ => trivial
    exact ⟨_, hJ.assign_replacement ht, hw.refutes_assign hf plain hr⟩

end Sequent

end SetSequent
