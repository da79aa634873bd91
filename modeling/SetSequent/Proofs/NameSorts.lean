import SetSequent.Proofs.Enumeration
import SetSequent.Proofs.RelevantElements

/-!
# Sorts by the use of names

A name is used as a set, or it stands for an element. If no name does both, and if names are all that
stands for elements, then the use of the names tells their sorts. The first condition alone is not enough:
a union may stand for an element although no name of a set does.

* `Atom.SortsApart` — an atom without symbols in which no set name stands for an element.
* `Atom.NamesElements` — all that stands for an element is a variable.
* `sorted_of_names` — under both conditions formulas are sorted by the use of their names.
* `ofFormulas_partOf`, `sorted_ofFormulas` — formulas that are sorted in some way are sorted by the use of
  their names, with the same sort for each name.
-/

namespace SetSequent

namespace Atom

/-- The atom has no symbols, and no name of the list stands in an element position. -/
structure SortsApart (sets : List String) (a : Atom) : Prop where
  predicates : ∀ p args, a ≠ .pred p args
  functions : ∀ f args, .app f args ∉ Term.listSubterms a.args
  elements : ∀ x ∈ sets, .var x ∉ a.elementTerms

/-- Every side of an equation, element of a membership and element inside a constructor is a variable. -/
def NamesElements (a : Atom) : Prop := ∀ e ∈ a.elementTerms, ∃ x, e = .var x

end Atom

/-- All names of the one sorts have the same sort in the other. -/
structure Sorts.PartOf (τ σ : Sorts) : Prop where
  elements : τ.elements ⊆ σ.elements
  sets : τ.sets ⊆ σ.sets

variable {σ : Sorts} {x : String}

/-! ## Terms and atoms -/

/-- A set term uses a name as a set, or as an element that it is made of. -/
theorem Term.setVars_or_constructor : (t : Term) → t.IsSet σ → x ∈ t.vars →
    x ∈ t.setVars ∨ .var x ∈ t.constructorElements
  | .var _, _, hx => .inl hx
  | .app _ _, ht, _ => ht.elim
  | .empty, _, hx => (List.not_mem_nil hx).elim
  | .singleton e, ht, hx => by
    obtain ⟨y, _, rfl⟩ := Term.IsElement.exists_var (t := e) ht
    rw [List.mem_singleton.1 hx]
    exact .inr (List.mem_singleton_self _)
  | .add e s, ht, hx | .remove e s, ht, hx => by
    rcases List.mem_append.1 hx with hx | hx
    · obtain ⟨y, _, rfl⟩ := ht.1.exists_var
      rw [List.mem_singleton.1 hx]
      exact .inr (.head _)
    · exact (setVars_or_constructor s ht.2 hx).imp_right (.tail _)
  | .union s t, ht, hx | .inter s t, ht, hx | .diff s t, ht, hx => by
    rcases List.mem_append.1 hx with hx | hx
    · exact (setVars_or_constructor s ht.1 hx).imp (List.mem_append_left _) (List.mem_append_left _)
    · exact (setVars_or_constructor t ht.2 hx).imp (List.mem_append_right _) (List.mem_append_right _)

/-- Without function symbols, what stands in the two positions decides whether a term is a set term. -/
theorem Term.isSet_of_names : (t : Term) → (∀ f args, .app f args ∉ t :: t.subterms) →
    (∀ x ∈ t.setVars, x ∈ σ.sets) → (∀ e ∈ t.constructorElements, e.IsElement σ) → t.IsSet σ
  | .var x, _, hs, _ => hs x (List.mem_singleton_self x)
  | .app f args, hf, _, _ => absurd (.head _) (hf f args)
  | .empty, _, _, _ => trivial
  | .singleton e, _, _, he => he e (List.mem_singleton_self e)
  | .add e s, hf, hs, he | .remove e s, hf, hs, he => by
    refine ⟨he e (.head _), isSet_of_names s (fun f args h => hf f args ?_) hs fun e h => he e (.tail _ h)⟩
    exact .tail _ (List.mem_append_right _ h)
  | .union s t, hf, hs, he | .inter s t, hf, hs, he | .diff s t, hf, hs, he => by
    obtain ⟨hs, ht⟩ := List.forall_mem_append.1 hs
    obtain ⟨he, he'⟩ := List.forall_mem_append.1 he
    refine ⟨isSet_of_names s (fun f args h => hf f args ?_) hs he,
      isSet_of_names t (fun f args h => hf f args ?_) ht he'⟩
    · exact .tail _ (List.mem_append_left _ h)
    · exact .tail _ (List.mem_append_right _ h)

namespace Atom

variable {a : Atom} {sets : List String}

theorem SortsApart.sorted (ha : a.SortsApart sets) (hs : ∀ u ∈ a.setArgs, ∀ x ∈ u.setVars, x ∈ σ.sets)
    (he : ∀ e ∈ a.elementTerms, e.IsElement σ) : a.Sorted σ := by
  have set {u : Term} (hu : u ∈ a.args) (hm : u ∈ a.setArgs)
      (hc : u.constructorElements ⊆ a.elementTerms) : u.IsSet σ := by
    refine u.isSet_of_names (fun f args h => ha.functions f args ?_) (hs u hm) fun e h => he e (hc h)
    exact Term.mem_listSubterms.2 ⟨u, hu, h⟩
  cases a with
  | eq l r => exact ⟨he l (.head _), he r (.tail _ (.head _))⟩
  | mem e s =>
    exact ⟨he e (.head _), set (.tail _ (.head _)) (.head _) (List.subset_cons_self _ _)⟩
  | isEmpty s => exact set (.head _) (.head _) (List.Subset.refl _)
  | subset s t | setEq s t =>
    exact ⟨set (.head _) (.head _) (List.subset_append_left ..),
      set (.tail _ (.head _)) (.tail _ (.head _)) (List.subset_append_right ..)⟩
  | pred p args => exact absurd rfl (ha.predicates p args)

theorem Sorted.sortsApart (ha : a.Sorted σ) (hs : sets ⊆ σ.sets) : a.SortsApart sets := by
  refine ⟨?_, fun f args hm => ?_, fun x hx hm => σ.disjoint x (ha.isElement hm) (hs hx)⟩
  · rintro p args rfl
    exact ha
  · obtain ⟨t, ht, hm⟩ := Term.mem_listSubterms.1 hm
    exact (t.isSorted_subterm (ha.isSorted ht) _ hm).elim False.elim False.elim

theorem Sorted.namesElements (ha : a.Sorted σ) : a.NamesElements := by
  intro e he
  obtain ⟨x, _, rfl⟩ := (ha.isElement he).exists_var
  exact ⟨x, rfl⟩

/-- A sorted atom uses a name as a set, or as an element term. -/
theorem Sorted.setVars_or_element (ha : a.Sorted σ) (occurs : x ∈ a.vars) :
    (∃ u ∈ a.setArgs, x ∈ u.setVars) ∨ .var x ∈ a.elementTerms := by
  obtain ⟨t, ht, hx⟩ := List.mem_flatMap.1 occurs
  have element {e : Term} (he : e.IsElement σ) (hx : x ∈ e.vars) : e = .var x := by
    obtain ⟨y, _, rfl⟩ := he.exists_var
    rw [List.mem_singleton.1 hx]
  cases a with
  | eq l r =>
    rcases List.mem_cons.1 ht with rfl | ht
    · exact .inr (element ha.1 hx ▸ .head _)
    · rw [List.mem_singleton.1 ht] at hx
      exact .inr (element ha.2 hx ▸ .tail _ (.head _))
  | mem e s =>
    rcases List.mem_cons.1 ht with rfl | ht
    · exact .inr (element ha.1 hx ▸ .head _)
    · rw [List.mem_singleton.1 ht] at hx
      exact (s.setVars_or_constructor ha.2 hx).imp (fun h => ⟨s, .head _, h⟩) (.tail _)
  | isEmpty s =>
    rw [List.mem_singleton.1 ht] at hx
    exact (s.setVars_or_constructor ha hx).imp_left fun h => ⟨s, .head _, h⟩
  | subset s u | setEq s u =>
    rcases List.mem_cons.1 ht with rfl | ht
    · exact (Term.setVars_or_constructor _ ha.1 hx).imp (fun h => ⟨_, .head _, h⟩)
        (List.mem_append_left _)
    · rw [List.mem_singleton.1 ht] at hx
      exact (u.setVars_or_constructor ha.2 hx).imp (fun h => ⟨u, .tail _ (.head _), h⟩)
        (List.mem_append_right _)
  | pred => exact ha.elim

end Atom

/-! ## Formulas -/

variable {fs : List Formula}

theorem mem_setVarNames :
    x ∈ setVarNames fs ↔ ∃ f ∈ fs, ∃ a ∈ f.atoms, ∃ u ∈ a.setArgs, x ∈ u.setVars := by
  simp only [setVarNames, List.mem_flatMap]

theorem mem_elementVarNames :
    x ∈ elementVarNames fs ↔ (∃ f ∈ fs, x ∈ f.vars) ∧ x ∉ setVarNames fs := by
  simp only [elementVarNames, List.mem_eraseDups, List.mem_filter, List.mem_flatMap,
    Bool.not_eq_true', List.contains_eq_mem, decide_eq_false_iff_not]

/-- Without quantifiers every name is free. -/
theorem Formula.Every.freeVars_eq {P : Atom → Prop} {f : Formula} (hf : f.Every P) :
    f.freeVars = f.vars := by
  induction f with
  | top | bot | atom => rfl
  | not f ih => exact ih hf
  | connect c l r ihl ihr => rw [freeVars, vars, ihl hf.1, ihr hf.2]
  | all x f => exact hf.elim

/-- **Names tell the sorts**, if they are all that stands for elements and none is used as a set too. -/
theorem sorted_of_names (apart : ∀ f ∈ fs, f.Every (Atom.SortsApart (setVarNames fs)))
    (named : ∀ f ∈ fs, f.Every Atom.NamesElements) :
    ∀ f ∈ fs, f.Every (Atom.Sorted (.ofFormulas fs)) := by
  intro f hf
  refine Formula.every_of_atoms ((apart f hf).imp fun _ _ => trivial) fun a ha => ?_
  have sorts := (apart f hf).of_mem_atoms ha
  refine sorts.sorted (fun u hu x hx => mem_setVarNames.2 ⟨f, hf, a, ha, u, hu, hx⟩) fun e he => ?_
  obtain ⟨x, rfl⟩ := (named f hf).of_mem_atoms ha e he
  have occurs : x ∈ f.vars := by
    rw [← (apart f hf).freeVars_eq]
    exact (apart f hf).mem_freeVars ha (Atom.mem_vars_of_elementTerms he (List.mem_singleton_self x))
  exact mem_elementVarNames.2 ⟨⟨f, hf, occurs⟩, fun used => sorts.elements x used he⟩

section Sorted

variable (hs : ∀ f ∈ fs, f.Every (Atom.Sorted σ))
include hs

/-- The use of the names in sorted formulas tells their sorts. -/
theorem ofFormulas_partOf : (Sorts.ofFormulas fs).PartOf σ := by
  refine ⟨fun x hx => ?_, fun x hx => ?_⟩
  · obtain ⟨⟨f, hf, hx⟩, unused⟩ := mem_elementVarNames.1 hx
    rw [← (hs f hf).freeVars_eq] at hx
    obtain ⟨a, ha, hx⟩ := Formula.exists_atom_of_freeVars hx
    have sorted := (hs f hf).of_mem_atoms ha
    rcases sorted.setVars_or_element hx with ⟨u, hu, hx⟩ | hx
    · exact absurd (mem_setVarNames.2 ⟨f, hf, a, ha, u, hu, hx⟩) unused
    · exact sorted.isElement hx
  · obtain ⟨f, hf, a, ha, u, hu, hx⟩ := mem_setVarNames.1 hx
    exact (u.setVars_of_isSet (((hs f hf).of_mem_atoms ha).isSet hu)).1 x hx

/-- Formulas that are sorted in some way are sorted by the use of their names. -/
theorem sorted_ofFormulas : ∀ f ∈ fs, f.Every (Atom.Sorted (.ofFormulas fs)) :=
  sorted_of_names (fun f hf => (hs f hf).imp fun _ ha => ha.sortsApart (ofFormulas_partOf hs).sets)
    fun f hf => (hs f hf).imp fun _ ha => ha.namesElements

end Sorted

end SetSequent
