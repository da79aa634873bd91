import SetSequent.Proofs.TruthRules

/-!
# Negation normal form

Pushing stops at a negation whose guard the table does not know to be decidable. Where the table knows
every atom, no guard stops it.

* `Formula.NegationNormal` — negations stand at atoms only.
* `Formula.PushCall`, `wellFounded_pushCall` — the calls that pushing makes of itself, and that there is no
  infinite sequence of them.
* `DecidabilityTable.declaring` — the standard table with further predicates declared.
* `speaks_reason_declaring` — it gives every formula of known atoms a reason that says something, as the
  reason of a compound formula needs.
* `push_reaches_normal_form` — negations are pushed down to the atoms.
-/

namespace SetSequent

/-! ## Calls -/

namespace Formula

/-- Negations stand at atoms only. -/
def NegationNormal (f : Formula) : Prop := ∀ g, .not g ∈ f.subformulas → ∃ a, g = .atom a

/-- The formulas that pushing goes on with: the result of a rule, the body of a negation that no rule
applies to, the sides of a connective. -/
inductive PushCall (t : DecidabilityTable) : Formula → Formula → Prop where
  | step {f g : Formula} (fires : (pushStep t (.not f)).value = some g) : PushCall t g (.not f)
  | body {f : Formula} (stuck : (pushStep t (.not f)).value = none) : PushCall t f (.not f)
  | left (c : Connective) (l r : Formula) : PushCall t l (.connect c l r)
  | right (c : Connective) (l r : Formula) : PushCall t r (.connect c l r)

variable {t : DecidabilityTable}

theorem PushCall.weight_lt {f g : Formula} (h : PushCall t g f) : g.weight < f.weight := by
  cases h with
  | step fires => exact weight_pushStep fires
  | body =>
    have := g.weight_pos
    simp only [weight]
    omega
  | left c _ r => exact weight_left_lt c g r
  | right c l _ => exact weight_right_lt c l g

theorem wellFounded_pushCall (t : DecidabilityTable) : WellFounded (PushCall t) :=
  Subrelation.wf PushCall.weight_lt (InvImage.wf weight Nat.lt_wfRel.wf)

/-! ## The normal form -/

variable {P : Atom → Prop}

/-- Where all guards are decidable, a rule applies to every negation but that of an atom. -/
theorem exists_atom_of_stuck (decides : ∀ g : Formula, g.Every P → t.isDecidable g = true)
    {f : Formula} (hf : f.Every P) (h : (pushStep t (.not f)).value = none) : ∃ a, f = .atom a := by
  have fires (r : NegationRule) (hr : (Formula.not f).pushRule? = some r)
      (hg : ∀ g ∈ r.guards, g.Every P) : False := by
    have met : r.guards.all t.isDecidable = true :=
      List.all_eq_true.2 fun g hm => decides g (hg g hm)
    have some : (pushStep t (.not f)).value = some r.result :=
      NegationRule.value_fire?.2 ⟨r, hr, met, rfl⟩
    rw [h] at some
    cases some
  cases f with
  | top | bot => exact (fires _ rfl (by simp)).elim
  | atom a => exact ⟨a, rfl⟩
  | not f => exact (fires _ rfl (List.forall_mem_singleton.2 hf)).elim
  | connect c l r =>
    cases c with
    | or => exact (fires _ rfl (by simp)).elim
    | and | implies => exact (fires _ rfl (List.forall_mem_singleton.2 hf.1)).elim
    | iff => exact (fires _ rfl (List.forall_mem_cons.2 ⟨hf.1, List.forall_mem_singleton.2 hf.2⟩)).elim
  | all => exact hf.elim

/-- The induction is on the calls of `push`: a rule may lead to a larger formula, but keeps its atoms. -/
theorem negationNormal_push (decides : ∀ g : Formula, g.Every P → t.isDecidable g = true)
    {f : Formula} (hf : f.Every P) : (f.push t).value.NegationNormal := by
  induction f using push.induct t with
  | case1 f _ g hg ih =>
    rw [value_push_of_step hg]
    exact ih (every_pushStep hg hf)
  | case2 f _ hn ih =>
    obtain ⟨a, rfl⟩ := exists_atom_of_stuck (f := f) decides hf hn
    rw [value_push_of_stuck hn, value_push_of_other (by simp) (by simp)]
    intro g hg
    simp only [subformulas, List.mem_cons, not.injEq, reduceCtorEq, List.not_mem_nil, or_false] at hg
    exact ⟨a, hg⟩
  | case3 c l r ihl ihr =>
    rw [value_push_connect]
    intro g hg
    simp only [subformulas, List.cons_append, List.mem_cons, reduceCtorEq, false_or,
      List.mem_append] at hg
    rcases hg with hg | hg
    · exact ihl hf.1 g hg
    · exact ihr hf.2 g hg
  | case4 f hn hc =>
    rw [value_push_of_other hn hc]
    cases f with
    | top | bot | atom => simp [NegationNormal, subformulas]
    | not f => exact absurd rfl (hn f)
    | connect c l r => exact absurd rfl (hc c l r)
    | all => exact hf.elim

end Formula

/-! ## Declared predicates -/

/-- Equations, memberships, and the predicates of the listed names. -/
def Atom.Covered (names : List String) : Atom → Prop
  | .eq .. | .mem .. => True
  | .pred p _ => p ∈ names
  | .isEmpty _ | .subset .. | .setEq .. => False

namespace DecidabilityTable

/-- The standard table after declarations of predicates, the first one first. -/
def declaring (declarations : List (String × Option String)) : DecidabilityTable :=
  declarations.foldl (fun t d => t.registerPredicate d.1 d.2) standard

theorem speaks_some {reason : String} (h : reason ≠ "") : speaks (some reason) = true := by
  unfold speaks
  split
  · rename_i none
    cases none
  · rename_i empty
    exact absurd (Option.some.inj empty) h
  · rfl

/-- A declaration comes first, with a reason that says something. -/
theorem predicates_registerPredicate (t : DecidabilityTable) (name : String) (reason : Option String) :
    ∃ r, r ≠ "" ∧ (t.registerPredicate name reason).predicates = (name, r) :: t.predicates := by
  refine ⟨_, ?_, rfl⟩
  split
  · simp
  · simp
  · rename_i r hr
    rintro rfl
    exact hr rfl

/-- A declared predicate has a reason that says something. -/
theorem speaks_registerPredicate {t : DecidabilityTable} {name p : String} {reason : Option String}
    (h : p = name ∨ speaks (t.predicates.lookup p) = true) :
    speaks ((t.registerPredicate name reason).predicates.lookup p) = true := by
  obtain ⟨r, hr, he⟩ := t.predicates_registerPredicate name reason
  rw [he]
  by_cases hp : p = name
  · rw [hp, List.lookup_cons_self]
    exact speaks_some hr
  · have other : (p == name) = false := by simpa using hp
    simpa [List.lookup_cons, other] using h.resolve_left hp

/-- The last declaration of a name counts, and none takes a reason away. -/
theorem speaks_foldl {declarations : List (String × Option String)} {p : String}
    (t : DecidabilityTable)
    (h : p ∈ declarations.map Prod.fst ∨ speaks (t.predicates.lookup p) = true) :
    speaks ((declarations.foldl (fun t d => t.registerPredicate d.1 d.2) t).predicates.lookup p) =
      true := by
  induction declarations generalizing t with
  | nil => exact h.resolve_left (by simp)
  | cons d declarations ih =>
    refine ih _ ?_
    rcases h with h | h
    · rcases List.mem_cons.1 h with h | h
      · exact .inr (speaks_registerPredicate (.inl h))
      · exact .inl h
    · exact .inr (speaks_registerPredicate (.inr h))

theorem strategies_foldl (declarations : List (String × Option String)) (t : DecidabilityTable) :
    (declarations.foldl (fun t d => t.registerPredicate d.1 d.2) t).strategies = t.strategies := by
  induction declarations generalizing t with
  | nil => rfl
  | cons d declarations ih => exact ih _

variable {declarations : List (String × Option String)}

theorem speaks_atomReason_declaring {a : Atom} (h : a.Covered (declarations.map Prod.fst)) :
    speaks ((declaring declarations).atomReason a) = true := by
  have strategies : (declaring declarations).strategies = standard.strategies :=
    strategies_foldl declarations standard
  cases a with
  | eq | mem =>
    simp only [atomReason, strategies]
    rfl
  | pred p args => exact speaks_foldl standard (.inl h)
  | isEmpty | subset | setEq => exact h.elim

/-- A compound formula has a reason since its sides have reasons that say something. -/
theorem speaks_reason_declaring {f : Formula} (h : f.Every (Atom.Covered (declarations.map Prod.fst))) :
    speaks ((declaring declarations).reason f) = true := by
  induction f with
  | top | bot => rfl
  | atom a => exact speaks_atomReason_declaring h
  | not f ih => exact ih h
  | connect c l r ihl ihr =>
    rw [reason, ihl h.1, ihr h.2]
    rfl
  | all => exact h.elim

theorem isDecidable_of_speaks {t : DecidabilityTable} {f : Formula} (h : speaks (t.reason f) = true) :
    t.isDecidable f = true := by
  rw [isDecidable]
  cases hr : t.reason f with
  | none =>
    rw [hr] at h
    cases h
  | some => rfl

end DecidabilityTable

namespace Formula

/-- **Pushing reaches the negation normal form.** Let any predicates be declared beside the standard table,
and let a formula without quantifiers be made of equations, memberships and atoms of these predicates. Then
pushing ends, and leaves negations at atoms only and the truth of the formula as it was. -/
theorem push_reaches_normal_form (declarations : List (String × Option String)) {f : Formula}
    (hf : f.Every (Atom.Covered (declarations.map Prod.fst))) :
    WellFounded (PushCall (.declaring declarations)) ∧
      (∀ g, .not g ∈ (f.push (.declaring declarations)).value.subformulas → ∃ a, g = .atom a) ∧
      ∀ I : Model.Interpretation, I.truth (f.push (.declaring declarations)).value = I.truth f := by
  refine ⟨wellFounded_pushCall _, negationNormal_push (fun g hg => ?_) hf, fun I => I.truth_push f⟩
  exact DecidabilityTable.isDecidable_of_speaks (DecidabilityTable.speaks_reason_declaring hg)

/-- `not (not x = y iff (P(x) implies x in s))`: a rule copies both sides, and then goes on in the copies. -/
def negatedEquivalence : Formula :=
  .not (.iff (.not (.atom (.eq (.var "x") (.var "y"))))
    (.implies (.atom (.pred "P" [.var "x"])) (.atom (.mem (.var "x") (.var "s")))))

/-- `P` is declared twice, first with a reason and then with one that says nothing. -/
theorem push_reaches_normal_form_equivalence :
    negatedEquivalence.Every (Atom.Covered ["P", "P"]) ∧
      (∀ g, .not g ∈ (negatedEquivalence.push
        (.declaring [("P", some "P_cases"), ("P", some "")])).value.subformulas → ∃ a, g = .atom a) := by
  have covered : negatedEquivalence.Every (Atom.Covered ["P", "P"]) :=
    ⟨trivial, List.mem_cons_self, trivial⟩
  exact ⟨covered, (push_reaches_normal_form [("P", some "P_cases"), ("P", some "")] covered).2.1⟩

end Formula

end SetSequent
