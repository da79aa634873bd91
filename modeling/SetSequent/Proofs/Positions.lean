import SetSequent.Proofs.EvaluatorRules
import SetSequent.Proofs.Stages

/-!
# What stands where

The two sorts are told apart by positions. The sets of an atom and the operands of the set constructors
stand in set positions; the sides of an equation, the element of a membership and the elements inside
constructors stand in element positions. Arguments of functions and predicates stand in neither.

* `Symbol`, `Term.symbol?` — variables and function symbols, and the one that heads a term.
* `Formula.elementPositions` — the terms that stand for elements; `Formula.setPositions` has those that
  stand for sets.
* `Layout` — which symbols are used as sets and which as elements, and what values these are.
* `Term.Placed`, `Atom.Placed` — every position holds a term that the layout allows there.
* `every_placed_eliminate` — the elimination of a variable keeps the layout.
* `Interpretation.Suits` — the symbols have values of their sort. Then so has what stands in a position,
  and the evaluator has a result.
* `Sequent.Separated` — no symbol is used in positions of both sorts.
* `Interpretation.SortedFor` — the symbols of a sequent have values of the sorts they are used in.
-/

namespace SetSequent

open Model

/-- A variable, or a function symbol with its number of arguments. -/
inductive Symbol where
  | var (name : String)
  | function (name : String) (arity : Nat)
  deriving DecidableEq

/-! ## Parts of terms -/

namespace Term

/-- The symbol that a term is, or applies; none for a set constructor. -/
def symbol? : Term → Option Symbol
  | .var x => some (.var x)
  | .app f args => some (.function f args.length)
  | _ => none

theorem eq_var_of_symbol? {t : Term} {x : String} (h : .var x ∈ t.symbol?) : t = .var x := by
  cases t with
  | var => cases h; rfl
  | app | empty | singleton | add | remove | union | inter | diff => cases h

theorem exists_symbol {t : Term} (h : t.isAtomic = true) : ∃ σ, t.symbol? = some σ := by
  cases t with
  | var | app => exact ⟨_, rfl⟩
  | empty | singleton | add | remove | union | inter | diff => cases h

/-- The arguments of a set constructor that stand for elements. -/
def elementOperands : Term → List Term
  | .singleton e | .add e _ | .remove e _ => [e]
  | _ => []

theorem sizeOf_child {c t : Term} (h : c ∈ t.children) : sizeOf c < sizeOf t := by
  cases t with
  | var | empty => cases h
  | app f args =>
    have smaller : sizeOf c < sizeOf args := List.sizeOf_lt_of_mem h
    simp only [app.sizeOf_spec]
    omega
  | singleton e =>
    obtain rfl := List.mem_singleton.1 h
    simp
  | add a b | remove a b | union a b | inter a b | diff a b =>
    simp only [children, List.mem_cons, List.not_mem_nil, or_false] at h
    rcases h with rfl | rfl
    all_goals
      simp only [add.sizeOf_spec, remove.sizeOf_spec, union.sizeOf_spec, inter.sizeOf_spec,
        diff.sizeOf_spec]
      omega

/-- What holds of a term if it holds of its children holds of all terms. -/
theorem children_induction {R : Term → Prop} (step : ∀ t, (∀ c ∈ t.children, R c) → R t) (t : Term) :
    R t :=
  step t fun c _ => children_induction step c
termination_by sizeOf t
decreasing_by exact sizeOf_child ‹_›

theorem mem_subterms_iff {u t : Term} : u ∈ t.subterms ↔ ∃ c ∈ t.children, u ∈ c :: c.subterms := by
  refine ⟨fun h => ?_, fun ⟨c, hc, hu⟩ => mem_subterms_of_child hc hu⟩
  cases t with
  | var | empty => cases h
  | app f args => exact mem_listSubterms.1 h
  | singleton e => exact ⟨e, List.mem_singleton_self e, h⟩
  | add a b | remove a b | union a b | inter a b | diff a b =>
    rcases List.mem_append.1 h with h | h
    · exact ⟨a, .head _, h⟩
    · exact ⟨b, .tail _ (.head _), h⟩

theorem operands_subset (t : Term) : t.operands ⊆ t.children := by
  cases t with
  | add | remove => exact List.subset_cons_self ..
  | union | inter | diff => exact List.Subset.refl _
  | var | app | empty | singleton => exact List.nil_subset _

theorem elementOperands_subset (t : Term) : t.elementOperands ⊆ t.children := by
  cases t with
  | singleton => exact List.Subset.refl _
  | add | remove => exact List.cons_subset_cons _ (List.nil_subset _)
  | var | app | empty | union | inter | diff => exact List.nil_subset _

theorem subst_var_of_ne {x y : String} {r : Term} (h : var y ≠ var x) : (var y).subst x r = var y := by
  rw [subst, if_neg]
  rintro rfl
  exact h rfl

section Replacement

variable {x : String} {r t : Term} (h : t ≠ .var x)

include h

theorem symbol?_subst : (t.subst x r).symbol? = t.symbol? := by
  cases t with
  | var y => rw [subst_var_of_ne h]
  | app f args => simp [subst, symbol?]
  | _ => rfl

theorem children_subst : (t.subst x r).children = t.children.map (·.subst x r) := by
  cases t with
  | var y =>
    rw [subst_var_of_ne h]
    rfl
  | app f args => simp [subst, children]
  | _ => rfl

theorem operands_subst : (t.subst x r).operands = t.operands.map (·.subst x r) := by
  cases t with
  | var y =>
    rw [subst_var_of_ne h]
    rfl
  | _ => rfl

theorem elementOperands_subst : (t.subst x r).elementOperands = t.elementOperands.map (·.subst x r) := by
  cases t with
  | var y =>
    rw [subst_var_of_ne h]
    rfl
  | _ => rfl

end Replacement

end Term

/-! ## Positions -/

/-- The arguments that stand in an element position. -/
def Atom.elementArgs : Atom → List Term
  | .eq l r => [l, r]
  | .mem e _ => [e]
  | _ => []

theorem Atom.setArgs_subset (a : Atom) : a.setArgs ⊆ a.args := by
  cases a with
  | mem => exact List.subset_cons_self ..
  | isEmpty | subset | setEq => exact List.Subset.refl _
  | eq | pred => exact List.nil_subset _

theorem Atom.elementArgs_subset (a : Atom) : a.elementArgs ⊆ a.args := by
  cases a with
  | eq => exact List.Subset.refl _
  | mem => exact List.cons_subset_cons _ (List.nil_subset _)
  | isEmpty | subset | setEq | pred => exact List.nil_subset _

/-- The terms that stand for elements. -/
def Formula.elementPositions (f : Formula) : List Term :=
  f.atoms.flatMap Atom.elementArgs ++ f.terms.flatMap Term.elementOperands

/-- The values that count as elements, and those that sets may hold. -/
structure Carrier where
  element : Value → Prop
  member : Value → Prop
  member_of_element : ∀ v, element v → member v

/-- All values are elements, and sets may hold them. -/
def Carrier.any : Carrier := ⟨fun _ => True, fun _ => True, fun _ => id⟩

/-- The elements are those of the domain, and sets hold such elements. -/
def Carrier.within (domain : List Int) : Carrier :=
  ⟨Value.IsElementWithin domain, Value.IsElementWithin domain, fun _ => id⟩

/-- Which symbols occur, which of them are used as sets and which as elements, and which predicates
there are. -/
structure Layout where
  occurs : Symbol → Prop
  sets : Symbol → Prop
  elements : Symbol → Prop
  disjoint : ∀ σ, sets σ → ¬ elements σ
  predicates : String → Prop
  carrier : Carrier
  /-- Whether a set constructor may stand in an element position: only where all values are elements. -/
  nested : Prop
  element_of_nested : nested → ∀ v, carrier.element v

namespace Layout

/-- The term may stand in a set position. -/
def IsSet (L : Layout) (t : Term) : Prop := ∀ σ ∈ t.symbol?, L.sets σ

/-- The term may stand in an element position. -/
def IsElement (L : Layout) (t : Term) : Prop :=
  match t.symbol? with
  | some σ => L.elements σ
  | none => L.nested

/-- The values that a symbol may have. -/
def Allows (L : Layout) (σ : Symbol) (v : Value) : Prop :=
  (L.sets σ → v.IsSetOf L.carrier.member) ∧ (L.elements σ → L.carrier.element v)

/-- The layout in which some variables do not occur. -/
def without (L : Layout) (xs : List String) : Layout :=
  { L with occurs := fun σ => L.occurs σ ∧ ∀ x ∈ xs, σ ≠ .var x }

end Layout

variable {L : Layout}

/-- The term is one that occurs, and its operands are in place. -/
structure Term.InPlace (L : Layout) (t : Term) : Prop where
  occurs : ∀ σ ∈ t.symbol?, L.occurs σ
  sets : ∀ u ∈ t.operands, L.IsSet u
  elements : ∀ u ∈ t.elementOperands, L.IsElement u

/-- The term and all its parts are in place. -/
def Term.Placed (L : Layout) (t : Term) : Prop := ∀ u ∈ t :: t.subterms, u.InPlace L

/-- All positions of the atom hold terms that the layout allows. -/
structure Atom.Placed (L : Layout) (a : Atom) : Prop where
  args : ∀ t ∈ a.args, t.Placed L
  sets : ∀ t ∈ a.setArgs, L.IsSet t
  elements : ∀ t ∈ a.elementArgs, L.IsElement t
  predicate : ∀ p args, a = .pred p args → L.predicates p

theorem Term.placed_iff {t : Term} : t.Placed L ↔ t.InPlace L ∧ ∀ c ∈ t.children, c.Placed L := by
  constructor
  · intro h
    exact ⟨h t (.head _), fun c hc u hu => h u (.tail _ (mem_subterms_of_child hc hu))⟩
  · rintro ⟨ht, hc⟩ u hu
    rcases List.mem_cons.1 hu with rfl | hu
    · exact ht
    · obtain ⟨c, hm, hu⟩ := mem_subterms_iff.1 hu
      exact hc c hm u hu

theorem Term.Placed.operand {t u : Term} (h : t.Placed L) (hu : u ∈ t.operands) :
    u.Placed L ∧ L.IsSet u :=
  ⟨(placed_iff.1 h).2 u (t.operands_subset hu), (placed_iff.1 h).1.sets u hu⟩

theorem Term.Placed.elementOperand {t u : Term} (h : t.Placed L) (hu : u ∈ t.elementOperands) :
    u.Placed L ∧ L.IsElement u :=
  ⟨(placed_iff.1 h).2 u (t.elementOperands_subset hu), (placed_iff.1 h).1.elements u hu⟩

theorem Atom.Placed.set {a : Atom} {t : Term} (h : a.Placed L) (ht : t ∈ a.setArgs) :
    t.Placed L ∧ L.IsSet t :=
  ⟨h.args t (a.setArgs_subset ht), h.sets t ht⟩

theorem Atom.Placed.element {a : Atom} {t : Term} (h : a.Placed L) (ht : t ∈ a.elementArgs) :
    t.Placed L ∧ L.IsElement t :=
  ⟨h.args t (a.elementArgs_subset ht), h.elements t ht⟩

/-- Parts of a placed term are placed. -/
theorem Term.Placed.part {t u : Term} (h : t.Placed L) (hu : u ∈ t :: t.subterms) : u.Placed L := by
  induction t using Term.children_induction with
  | step t ih =>
    rcases List.mem_cons.1 hu with rfl | hu
    · exact h
    · obtain ⟨c, hc, hu⟩ := mem_subterms_iff.1 hu
      exact ih c hc ((placed_iff.1 h).2 c hc) hu

/-- A term that is placed and lacks a variable is placed where the variable does not occur. -/
theorem Term.Placed.without {t : Term} {x : String} (h : t.Placed L) (hx : x ∉ t.vars) :
    t.Placed (L.without [x]) := by
  intro u hu
  obtain ⟨occurs, sets, elements⟩ := h u hu
  refine ⟨fun σ hσ => ⟨occurs σ hσ, List.forall_mem_singleton.2 ?_⟩, sets, elements⟩
  rintro rfl
  rw [eq_var_of_symbol? hσ] at hu
  exact hx (t.mem_vars_iff.2 hu)

/-! ## Elimination -/

/-- The term may replace the variable wherever that stands. -/
structure Layout.Replaces (L : Layout) (x : String) (r : Term) : Prop where
  placed : r.Placed L
  absent : x ∉ r.vars
  sets : L.IsSet (.var x) → L.IsSet r
  elements : L.IsElement (.var x) → L.IsElement r

section Replacement

variable {x : String} {r : Term} (hr : L.Replaces x r)

include hr

theorem Layout.Replaces.isSet {t : Term} (h : L.IsSet t) : L.IsSet (t.subst x r) := by
  by_cases ht : t = .var x
  · subst ht
    rw [Term.subst, if_pos rfl]
    exact hr.sets h
  · rw [IsSet, Term.symbol?_subst ht]
    exact h

theorem Layout.Replaces.isElement {t : Term} (h : L.IsElement t) : L.IsElement (t.subst x r) := by
  by_cases ht : t = .var x
  · subst ht
    rw [Term.subst, if_pos rfl]
    exact hr.elements h
  · rw [IsElement, Term.symbol?_subst ht]
    exact h

theorem Term.Placed.subst {t : Term} (h : t.Placed L) : (t.subst x r).Placed (L.without [x]) := by
  induction t using Term.children_induction with
  | step t ih =>
    by_cases ht : t = .var x
    · subst ht
      rw [Term.subst, if_pos rfl]
      exact hr.placed.without hr.absent
    · obtain ⟨⟨occurs, sets, elements⟩, children⟩ := placed_iff.1 h
      refine placed_iff.2 ⟨⟨fun σ hσ => ?_, ?_, ?_⟩, ?_⟩
      · rw [symbol?_subst ht] at hσ
        refine ⟨occurs σ hσ, List.forall_mem_singleton.2 ?_⟩
        rintro rfl
        exact ht (eq_var_of_symbol? hσ)
      · rw [operands_subst ht]
        exact List.forall_mem_map.2 fun u hu => hr.isSet (sets u hu)
      · rw [elementOperands_subst ht]
        exact List.forall_mem_map.2 fun u hu => hr.isElement (elements u hu)
      · rw [children_subst ht]
        exact List.forall_mem_map.2 fun c hc => ih c hc (children c hc)

theorem Atom.Placed.subst {a : Atom} (h : a.Placed L) :
    (a.mapArgs (·.subst x r)).Placed (L.without [x]) := by
  have setArgs : (a.mapArgs (·.subst x r)).setArgs = a.setArgs.map (·.subst x r) := by cases a <;> rfl
  have elementArgs : (a.mapArgs (·.subst x r)).elementArgs = a.elementArgs.map (·.subst x r) := by
    cases a <;> rfl
  refine ⟨?_, ?_, ?_, fun p args hp => ?_⟩
  · rw [Atom.args_mapArgs]
    exact List.forall_mem_map.2 fun t ht => (h.args t ht).subst hr
  · rw [setArgs]
    exact List.forall_mem_map.2 fun t ht => hr.isSet (h.sets t ht)
  · rw [elementArgs]
    exact List.forall_mem_map.2 fun t ht => hr.isElement (h.elements t ht)
  · cases a with
    | pred q ts => cases hp; exact h.predicate _ ts rfl
    | _ => cases hp

end Replacement

theorem Atom.placed_equation {l r : Term} (hl : l.Placed L ∧ L.IsElement l)
    (hr : r.Placed L ∧ L.IsElement r) : (Atom.eq l r).orient.Placed L := by
  have either {l r : Term} (hl : l.Placed L ∧ L.IsElement l) (hr : r.Placed L ∧ L.IsElement r) :
      (Atom.eq l r).Placed L :=
    ⟨by simp [Atom.args, hl, hr], by simp [Atom.setArgs], by simp [Atom.elementArgs, hl, hr], by simp⟩
  rw [Atom.orient]
  split
  · exact either hr hl
  · exact either hl hr

/-- What unfolding asks about an element and a set are positions of the membership. -/
theorem every_placed_unfoldMember {e s : Term} (he : e.Placed L ∧ L.IsElement e)
    (hs : s.Placed L ∧ L.IsSet s) : (unfoldMember e s).Every (Atom.Placed L) := by
  induction s using unfoldMember.induct with
  | case1 | case2 =>
    exact ⟨by simp [Atom.args, he, hs], by simpa [Atom.setArgs] using hs.2,
      by simpa [Atom.elementArgs] using he.2, by simp⟩
  | case3 => trivial
  | case4 a => exact Atom.placed_equation he (hs.1.elementOperand (.head _))
  | case5 a s ih | case6 a s ih =>
    exact ⟨Atom.placed_equation he (hs.1.elementOperand (.head _)), ih (hs.1.operand (.head _))⟩
  | case7 s t ihs iht | case8 s t ihs iht | case9 s t ihs iht =>
    exact ⟨ihs (hs.1.operand (.head _)), iht (hs.1.operand (.tail _ (.head _)))⟩

theorem every_placed_unfold {a : Atom} (h : a.Placed L) :
    (Formula.atom a).unfold.Every (Atom.Placed L) := by
  cases a with
  | mem e s => exact every_placed_unfoldMember (h.element (.head _)) (h.set (.head _))
  | eq l r => exact Atom.placed_equation (h.element (.head _)) (h.element (.tail _ (.head _)))
  | isEmpty | subset | setEq | pred => exact h

/-- **Elimination keeps the layout**, and the variable does not occur any more. -/
theorem every_placed_eliminate {a : Atom} {x : String} {r : Term} (h : a.Placed L)
    (hr : L.Replaces x r) : ((Formula.atom a).eliminate x r).Every (Atom.Placed (L.without [x])) :=
  every_placed_unfold (h.subst hr)

/-- The equation that offers a variable tells what may stand in its place: no variable stands in positions
of both sorts. -/
theorem replaces_of_placed {f : Formula} {x : String} {r : Term} (h : f.Every (Atom.Placed L))
    (hf : f.removal? = some (.eliminate x r)) : L.Replaces x r := by
  obtain ⟨absent, form⟩ := Formula.equation_of_eliminate hf
  have set (e : L.elements (.var x)) (s : L.IsSet (.var x)) : L.IsSet r :=
    absurd e (L.disjoint _ (s _ rfl))
  have element (s : L.IsSet (.var x)) (e : L.IsElement (.var x)) : L.IsElement r :=
    absurd e (L.disjoint _ (s _ rfl))
  rcases form with rfl | rfl | rfl | rfl
  · obtain ⟨placed, isElement⟩ := h.element (t := r) (.head _)
    exact ⟨placed, absent, set (h.elements (.var x) (.tail _ (.head _))), fun _ => isElement⟩
  · obtain ⟨placed, isElement⟩ := h.element (t := r) (.tail _ (.head _))
    exact ⟨placed, absent, set (h.elements (.var x) (.head _)), fun _ => isElement⟩
  · obtain ⟨placed, isSet⟩ := h.set (t := r) (.head _)
    exact ⟨placed, absent, fun _ => isSet, element (h.sets (.var x) (.tail _ (.head _)))⟩
  · obtain ⟨placed, isSet⟩ := h.set (t := r) (.tail _ (.head _))
    exact ⟨placed, absent, fun _ => isSet, element (h.sets (.var x) (.head _))⟩

/-! ## Values -/

namespace Model.Interpretation

variable {I : Interpretation}

/-- The symbol has a meaning, and its values have the property. -/
def Gives (I : Interpretation) (P : Value → Prop) : Symbol → Prop
  | .var x => ∃ v, I.lookup x = .ok v ∧ P v
  | .function f n => ∃ g, I.functions f n = some g ∧ ∀ vs, P (g vs)

theorem Gives.imp {P Q : Value → Prop} {σ : Symbol} (h : I.Gives P σ) (hpq : ∀ v, P v → Q v) :
    I.Gives Q σ := by
  cases σ with
  | var x =>
    obtain ⟨v, hv, hp⟩ := h
    exact ⟨v, hv, hpq v hp⟩
  | function f n =>
    obtain ⟨g, hg, hp⟩ := h
    exact ⟨g, hg, fun vs => hpq _ (hp vs)⟩

/-- Every symbol of the layout has values of its sort, and every predicate has a meaning. -/
structure Suits (I : Interpretation) (L : Layout) : Prop where
  symbols : ∀ σ, L.occurs σ → I.Gives (L.Allows σ) σ
  predicates : ∀ p, L.predicates p → ∃ r, I.predicates p = some r

namespace Suits

variable (hI : I.Suits L)

include hI

/-- The value of a term that is no constructor is one of its symbol. -/
theorem allows {t : Term} (h : t.Placed L) {σ : Symbol} (hσ : σ ∈ t.symbol?) :
    L.Allows σ (I.value t) := by
  have given := hI.symbols σ ((h t (.head _)).occurs σ hσ)
  cases t with
  | var x =>
    cases hσ
    obtain ⟨v, hv, allowed⟩ := given
    simpa [value, denote, hv] using allowed
  | app f args =>
    cases hσ
    obtain ⟨g, hg, allowed⟩ := given
    simpa [value, function, hg] using allowed _
  | _ => cases hσ

/-- What stands in an element position is an element. -/
theorem element_value {t : Term} (h : t.Placed L ∧ L.IsElement t) : L.carrier.element (I.value t) := by
  obtain ⟨placed, ht⟩ := h
  unfold Layout.IsElement at ht
  split at ht
  · rename_i σ hσ
    exact (hI.allows placed hσ).2 ht
  · exact L.element_of_nested ht _

theorem isSetOf_singleton {t : Term} (h : t.Placed L ∧ L.IsElement t) :
    (Value.ofList [I.value t]).IsSetOf L.carrier.member :=
  Value.isSetOf_ofList (List.forall_mem_singleton.2 (L.carrier.member_of_element _ (hI.element_value h)))

/-- What stands in a set position is a set. -/
theorem isSetOf_value : (t : Term) → t.Placed L ∧ L.IsSet t → (I.value t).IsSetOf L.carrier.member
  | .var _, h | .app _ _, h => (hI.allows h.1 rfl).1 (h.2 _ rfl)
  | .empty, _ => Value.isSetOf_ofList (by simp)
  | .singleton _, h => hI.isSetOf_singleton (h.1.elementOperand (.head _))
  | .add _ s, h => by
    have hs := isSetOf_value s (h.1.operand (.head _))
    exact hs.join (hI.isSetOf_singleton (h.1.elementOperand (.head _))).2
  | .remove _ s, h => (isSetOf_value s (h.1.operand (.head _))).minus _
  | .union s t, h => by
    have hs := isSetOf_value s (h.1.operand (.head _))
    exact hs.join (isSetOf_value t (h.1.operand (.tail _ (.head _)))).2
  | .inter s _, h => (isSetOf_value s (h.1.operand (.head _))).meet _
  | .diff s _, h => (isSetOf_value s (h.1.operand (.head _))).minus _

theorem accepts {t : Term} (h : t.Placed L) : ∀ u ∈ t :: t.subterms, I.Accepts u := by
  intro u hu
  have hp : u.Placed L := h.part hu
  have occurs := (h u hu).occurs
  refine ⟨?_, ?_, fun w hw => (hI.isSetOf_value w (hp.operand hw)).1⟩
  · rintro x rfl
    obtain ⟨v, hv, _⟩ := hI.symbols _ (occurs _ rfl)
    exact ⟨v, hv⟩
  · rintro f args rfl
    obtain ⟨g, hg, _⟩ := hI.symbols _ (occurs _ rfl)
    exact ⟨g, hg⟩

/-- **The evaluator has a result on a formula that is placed.** -/
theorem evaluates {f : Formula} (h : f.Every (Atom.Placed L)) : I.Evaluates f := by
  induction f with
  | top | bot => rfl
  | atom a =>
    refine holdsAtom_of_accepts (fun t ht => hI.accepts (h.args t ht)) (fun u hu => ?_)
      fun p args ha => ?_
    · exact (hI.isSetOf_value u (h.set hu)).1
    · exact hI.predicates p (h.predicate p args ha)
  | not f ih => exact (ih h).not
  | connect c l r ihl ihr => exact (ihl h.1).connect (ihr h.2)
  | all x f => exact h.elim

end Suits

/-- A variable that gets the value of its replacement has a value of its sort. -/
theorem Suits.assign {x : String} {r : Term} (hI : I.Suits (L.without [x])) (hr : L.Replaces x r) :
    (I.assign x (I.value r)).Suits L := by
  have placed : r.Placed (L.without [x]) := hr.placed.without hr.absent
  refine ⟨fun σ hσ => ?_, fun p hp => ?_⟩
  · by_cases same : σ = .var x
    · subst same
      refine ⟨I.value r, by rw [lookup_assign, if_pos rfl], fun hs => ?_, fun he => ?_⟩
      · refine hI.isSetOf_value r ⟨placed, hr.sets fun σ hσ => ?_⟩
        cases hσ
        exact hs
      · exact hI.element_value ⟨placed, hr.elements he⟩
    · have given := hI.symbols σ ⟨hσ, List.forall_mem_singleton.2 same⟩
      cases σ with
      | var y =>
        have hy : y ≠ x := fun e => same (by rw [e])
        obtain ⟨v, hv, allowed⟩ := given
        exact ⟨v, by rw [lookup_assign, if_neg hy, hv], allowed⟩
      | function f n =>
        obtain ⟨g, hg, allowed⟩ := given
        exact ⟨g, by rw [functions_assign, hg], allowed⟩
  · rw [predicates_assign]
    exact hI.predicates p hp

end Model.Interpretation

/-! ## Sequents -/

namespace Sequent

variable {s : Sequent}

/-- The symbols that occur. -/
def symbols (s : Sequent) : List Symbol := s.formulas.flatMap fun f => f.terms.filterMap Term.symbol?

/-- The symbols that stand in set positions. -/
def setSymbols (s : Sequent) : List Symbol :=
  s.formulas.flatMap fun f => f.setPositions.filterMap Term.symbol?

/-- The symbols that stand in element positions. -/
def elementSymbols (s : Sequent) : List Symbol :=
  s.formulas.flatMap fun f => f.elementPositions.filterMap Term.symbol?

/-- No symbol stands in a set position and in an element position. -/
def Separated (s : Sequent) : Prop := ∀ σ ∈ s.setSymbols, σ ∉ s.elementSymbols

instance (s : Sequent) : Decidable s.Separated :=
  inferInstanceAs (Decidable (∀ σ ∈ s.setSymbols, σ ∉ s.elementSymbols))

/-- No set constructor stands in an element position. -/
def Flat (s : Sequent) : Prop := ∀ f ∈ s.formulas, ∀ t ∈ f.elementPositions, t.isAtomic = true

instance (s : Sequent) : Decidable s.Flat :=
  inferInstanceAs (Decidable (∀ f ∈ s.formulas, ∀ t ∈ f.elementPositions, t.isAtomic = true))

/-- The layout of a sequent. -/
def layout (s : Sequent) (separate : s.Separated) (carrier : Carrier) (nested : Prop)
    (h : nested → ∀ v, carrier.element v) : Layout where
  occurs σ := σ ∈ s.symbols
  sets σ := σ ∈ s.setSymbols
  elements σ := σ ∈ s.elementSymbols
  disjoint := separate
  predicates p := ∃ f ∈ s.formulas, ∃ args, .pred p args ∈ f.atoms
  carrier := carrier
  nested := nested
  element_of_nested := h

theorem every_placed {separate : s.Separated} {carrier : Carrier} {nested : Prop}
    {h : nested → ∀ v, carrier.element v} (he : s.Every fun _ => True) (hn : nested ∨ s.Flat) :
    s.Every (Atom.Placed (s.layout separate carrier nested h)) := by
  intro f hf
  have isSet (u : Term) (hu : u ∈ f.setPositions) : (s.layout separate carrier nested h).IsSet u :=
    fun σ hσ => List.mem_flatMap.2 ⟨f, hf, List.mem_filterMap.2 ⟨u, hu, hσ⟩⟩
  have isElement (u : Term) (hu : u ∈ f.elementPositions) :
      (s.layout separate carrier nested h).IsElement u := by
    unfold Layout.IsElement
    split
    · rename_i σ hσ
      exact List.mem_flatMap.2 ⟨f, hf, List.mem_filterMap.2 ⟨u, hu, hσ⟩⟩
    · rename_i hnone
      refine hn.resolve_right fun flat => ?_
      obtain ⟨σ, hσ⟩ := Term.exists_symbol (flat f hf u hu)
      rw [hσ] at hnone
      cases hnone
  refine Formula.every_of_atoms (he f hf) fun a ha => ?_
  have terms (t : Term) (ht : t ∈ a.args) (u : Term) (hu : u ∈ t :: t.subterms) : u ∈ f.terms :=
    List.mem_flatMap.2 ⟨a, ha, Term.mem_listSubterms.2 ⟨t, ht, hu⟩⟩
  refine ⟨fun t ht u hu => ⟨fun σ hσ => ?_, fun v hv => isSet v ?_, fun v hv => isElement v ?_⟩,
    fun t ht => isSet t ?_, fun t ht => isElement t ?_, fun p args hp => ?_⟩
  · exact List.mem_flatMap.2 ⟨f, hf, List.mem_filterMap.2 ⟨u, terms t ht u hu, hσ⟩⟩
  · exact List.mem_append_right _ (List.mem_flatMap.2 ⟨u, terms t ht u hu, hv⟩)
  · exact List.mem_append_right _ (List.mem_flatMap.2 ⟨u, terms t ht u hu, hv⟩)
  · exact List.mem_append_left _ (List.mem_flatMap.2 ⟨a, ha, ht⟩)
  · exact List.mem_append_left _ (List.mem_flatMap.2 ⟨a, ha, ht⟩)
  · exact ⟨f, hf, args, hp ▸ ha⟩

end Sequent

/-- All symbols of the sequent have a meaning, except for the variables in `unset`: those in set positions
are sets, and those in element positions are elements. -/
structure Model.Interpretation.SortedFor (I : Interpretation) (carrier : Carrier) (s : Sequent)
    (unset : List String) : Prop where
  symbols : ∀ σ ∈ s.symbols, (∀ x ∈ unset, σ ≠ .var x) →
    I.Gives (fun v => (σ ∈ s.setSymbols → v.IsSetOf carrier.member) ∧
      (σ ∈ s.elementSymbols → carrier.element v)) σ
  predicates : ∀ f ∈ s.formulas, ∀ p args, .pred p args ∈ f.atoms → ∃ r, I.predicates p = some r

namespace Model.Interpretation.SortedFor

variable {I : Interpretation} {carrier : Carrier} {s : Sequent} {unset : List String}

theorem any (h : I.SortedFor carrier s unset) : I.SortedFor .any s unset := by
  refine ⟨fun σ hσ hx => (h.symbols σ hσ hx).imp fun v allowed => ⟨fun hs => ?_, fun _ => trivial⟩,
    h.predicates⟩
  exact ⟨(allowed.1 hs).1, fun _ _ => trivial⟩

variable {separate : s.Separated} {nested : Prop} {hn : nested → ∀ v, carrier.element v}

theorem suits (h : I.SortedFor carrier s unset) :
    I.Suits ((s.layout separate carrier nested hn).without unset) :=
  ⟨fun σ hσ => h.symbols σ hσ.1 hσ.2, fun _ ⟨f, hf, args, ha⟩ => h.predicates f hf _ args ha⟩

theorem of_suits (h : I.Suits (s.layout separate carrier nested hn)) : I.SortedFor carrier s unset :=
  ⟨fun σ hσ _ => h.symbols σ hσ, fun f hf p args ha => h.predicates p ⟨f, hf, args, ha⟩⟩

end Model.Interpretation.SortedFor

end SetSequent
