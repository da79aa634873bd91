import SetSequent.Proofs.NegationNormalForm

/-!
# Decidability of compound formulas

A formula is decidable if there is a reason, be it the empty text. A compound formula asks more of its
sides: their reasons must say something. So an atom that a strategy answers for with the empty text is
decidable, and so is its negation, but nothing that joins it to another formula.

* `Registration`, `DecidabilityTable.built` — tables as they are put together, call by call.
* `outspoken_built` — a declared predicate has a reason that says something, whatever the declaration was.
* `speaks_reason_iff` — a formula has such a reason if all of its atoms have one.
* `isDecidable_iff_atoms` — which formulas are decidable, by their atoms.
* `isDecidable_silent_side` — decidable sides do not make a decidable conjunction.
-/

namespace SetSequent

/-! ## Parts of formulas -/

namespace Formula

def QuantifierFree (f : Formula) : Prop := ∀ x g, .all x g ∉ f.subformulas

def HasConnective (f : Formula) : Prop := ∃ c l r, .connect c l r ∈ f.subformulas

theorem quantifierFree_not {f : Formula} : (Formula.not f).QuantifierFree ↔ f.QuantifierFree := by
  simp [QuantifierFree, subformulas]

theorem quantifierFree_connect {c : Connective} {l r : Formula} :
    (connect c l r).QuantifierFree ↔ l.QuantifierFree ∧ r.QuantifierFree := by
  simp [QuantifierFree, subformulas, forall_and]

theorem not_quantifierFree_all (x : String) (f : Formula) : ¬ (all x f).QuantifierFree := fun h =>
  h x f (.head _)

theorem hasConnective_not {f : Formula} : (Formula.not f).HasConnective ↔ f.HasConnective := by
  simp [HasConnective, subformulas]

theorem hasConnective_connect (c : Connective) (l r : Formula) : (connect c l r).HasConnective :=
  ⟨c, l, r, .head _⟩

end Formula

/-! ## Tables -/

/-- A strategy for a shape of atoms, or the declaration of a predicate. -/
inductive Registration where
  | shape (shape : Shape) (strategy : Atom → Option String)
  | predicate (name : String) (reason : Option String)

namespace DecidabilityTable

variable {t : DecidabilityTable} {f : Formula}

def extend (t : DecidabilityTable) : Registration → DecidabilityTable
  | .shape shape strategy => t.register shape strategy
  | .predicate name reason => t.registerPredicate name reason

/-- The empty table after a sequence of registrations, the first one first. -/
def built (calls : List Registration) : DecidabilityTable := calls.foldl extend {}

/-- The reasons of the declared predicates say something. -/
def Outspoken (t : DecidabilityTable) : Prop := ∀ entry ∈ t.predicates, entry.2 ≠ ""

theorem Outspoken.extend (h : t.Outspoken) (call : Registration) : (t.extend call).Outspoken := by
  cases call with
  | shape => exact h
  | predicate name reason =>
    obtain ⟨r, hr, he⟩ := t.predicates_registerPredicate name reason
    rw [DecidabilityTable.extend, Outspoken, he]
    exact List.forall_mem_cons.2 ⟨hr, h⟩

/-- Every registration keeps the reasons of predicates from being empty. -/
theorem outspoken_built (calls : List Registration) : (built calls).Outspoken := by
  have run (t : DecidabilityTable) (h : t.Outspoken) : (calls.foldl extend t).Outspoken := by
    induction calls generalizing t with
    | nil => exact h
    | cons call calls ih => exact ih (t.extend call) (h.extend call)
  exact run {} fun _ he => (List.not_mem_nil he).elim

/-! ## Reasons of atoms -/

theorem speaks_iff {reason : Option String} :
    speaks reason = true ↔ reason.isSome = true ∧ reason ≠ some "" := by
  cases reason with
  | none => simp [speaks]
  | some r =>
    by_cases h : r = ""
    · simp [h, speaks]
    · simp [h, speaks_some h]

theorem ne_empty_of_pred (h : t.Outspoken) (p : String) (args : List Term) :
    t.atomReason (.pred p args) ≠ some "" := by
  intro he
  obtain ⟨before, _, hp, -⟩ := List.lookup_eq_some_iff.1 he
  exact h (p, "") (hp ▸ List.mem_append_right _ (.head _)) rfl

/-! ## Reasons of formulas -/

/-- A reason that says something is one for all atoms. The induction is on the formula: connectives and
negations hand the question down, and a quantifier has no reason. -/
theorem speaks_reason_iff :
    speaks (t.reason f) = true ↔
      f.QuantifierFree ∧ ∀ a ∈ f.atoms, speaks (t.atomReason a) = true := by
  induction f with
  | top | bot => simp [reason, speaks, Formula.QuantifierFree, Formula.subformulas, Formula.atoms]
  | atom a => simp [reason, Formula.QuantifierFree, Formula.subformulas, Formula.atoms]
  | not f ih => rw [reason, ih, Formula.quantifierFree_not, Formula.atoms]
  | connect c l r ihl ihr =>
    have sides : speaks (t.reason (.connect c l r)) = (speaks (t.reason l) && speaks (t.reason r)) := by
      rw [reason]
      cases speaks (t.reason l) && speaks (t.reason r) <;> rfl
    rw [sides, Bool.and_eq_true, ihl, ihr, Formula.quantifierFree_connect, Formula.atoms,
      List.forall_mem_append]
    exact and_and_and_comm
  | all x f => simp [reason, speaks, Formula.not_quantifierFree_all]

/-- The reason of a compound formula is never the empty text. -/
theorem isDecidable_connect (t : DecidabilityTable) (c : Connective) (l r : Formula) :
    t.isDecidable (.connect c l r) = speaks (t.reason (.connect c l r)) := by
  rw [isDecidable, reason]
  split <;> rfl

/-- Down to the first connective any reason will do, and below it the reasons must say something. -/
theorem isDecidable_iff_speaks :
    t.isDecidable f = true ↔
      f.QuantifierFree ∧ (∀ a ∈ f.atoms, t.isDecidable (.atom a) = true) ∧
        (f.HasConnective → ∀ a ∈ f.atoms, speaks (t.atomReason a) = true) := by
  induction f with
  | top | bot =>
    simp [isDecidable, reason, Formula.QuantifierFree, Formula.subformulas, Formula.atoms]
  | atom a =>
    simp [Formula.QuantifierFree, Formula.HasConnective, Formula.subformulas, Formula.atoms]
  | not f ih =>
    rw [Formula.quantifierFree_not, Formula.hasConnective_not, Formula.atoms, ← ih]
    rfl
  | connect c l r =>
    rw [isDecidable_connect, speaks_reason_iff]
    refine and_congr_right fun _ => ⟨fun h => ⟨fun a ha => ?_, fun _ => h⟩, fun h => ?_⟩
    · exact isDecidable_of_speaks (h a ha)
    · exact h.2 (Formula.hasConnective_connect c l r)
  | all x f => simp [isDecidable, reason, Formula.not_quantifierFree_all]

/-- **Decidability by atoms.** With a table that is built by any sequence of registrations, a formula is
decidable exactly if it has no quantifier, all of its atoms are decidable, and, if there is a connective in
it, no strategy answers with the empty text for one of them. Declared predicates never stand in the way. -/
theorem isDecidable_iff_atoms (calls : List Registration) (f : Formula) :
    (built calls).isDecidable f = true ↔
      f.QuantifierFree ∧ (∀ a ∈ f.atoms, (built calls).isDecidable (.atom a) = true) ∧
        (f.HasConnective → ∀ a ∈ f.atoms, (∀ p args, a ≠ .pred p args) →
          (built calls).reason (.atom a) ≠ some "") := by
  rw [isDecidable_iff_speaks]
  refine and_congr_right fun _ => and_congr_right fun decidable => forall_congr' fun _ => ?_
  refine forall₂_congr fun a ha => speaks_iff.trans ⟨fun h _ => h.2, fun h => ⟨decidable a ha, ?_⟩⟩
  cases a with
  | pred p args => exact ne_empty_of_pred (outspoken_built calls) p args
  | eq | mem | isEmpty | subset | setEq => exact h fun _ _ => by simp

/-- The standard table, and then another strategy for memberships, which answers with the empty text. -/
def silentMembership : DecidabilityTable :=
  built [.shape .eq fun _ => some "eq_dec", .shape .mem fun _ => some "mem_dec", .shape .mem fun _ => some ""]

/-- `x in s and x = y` -/
def memberAndEqual : Formula :=
  .and (.atom (.mem (.var "x") (.var "s"))) (.atom (.eq (.var "x") (.var "y")))

/-- **Decidable sides are not enough.** Both atoms are decidable and there is no quantifier, but the reason
of one of them is empty. -/
theorem isDecidable_silent_side :
    memberAndEqual.QuantifierFree ∧
      (∀ a ∈ memberAndEqual.atoms, silentMembership.isDecidable (.atom a) = true) ∧
      silentMembership.isDecidable memberAndEqual = false := by
  refine ⟨fun x g => ?_, by decide, by decide⟩
  simp [memberAndEqual, Formula.subformulas]

end DecidabilityTable

end SetSequent
