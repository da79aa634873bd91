import SetSequent.Proofs.EvaluatorRules
import SetSequent.Proofs.PreparedForm

/-!
# The form of an unfolded formula

Unfolding works on every formula, also on those with set relations and quantifiers in them. It stops at
quantifiers, so its form is that of the atoms outside of them.

* `Formula.outerAtoms` — the atoms outside of quantifiers.
* `Atom.IsUnfolded` — an atom on which no rule of unfolding applies.
* `isUnfolded_of_unfold`, `unfold_of_isUnfolded` — unfolded formulas have such atoms only, and unfolding
  leaves formulas with such atoms alone.
* `unfold_of_step` — one step of unfolding leads to the same unfolded formula.
* `unfold_correct` — what unfolding is: a normal form with the truth value of the formula.
-/

namespace SetSequent

/-- The atoms outside of quantifiers, from left to right. -/
def Formula.outerAtoms : Formula → List Atom
  | .top | .bot | .all .. => []
  | .atom a => [a]
  | .not f => f.outerAtoms
  | .connect _ l r => l.outerAtoms ++ r.outerAtoms

/-- A normal atom, or a set relation, which unfolding does not open. -/
def Atom.IsUnfolded (a : Atom) : Prop := a.IsNormal ∨ a.isSetRelation = true

namespace Atom.IsUnfolded

theorem isAtomic {e s : Term} (h : (Atom.mem e s).IsUnfolded) : s.isAtomic = true :=
  h.resolve_right Bool.false_ne_true

theorem orient_eq {a : Atom} (h : a.IsUnfolded) : a.orient = a := by
  rcases h with h | h
  · exact h.orient_eq
  · cases a with
    | eq => cases h
    | isEmpty | subset | setEq | mem | pred => rfl

end Atom.IsUnfolded

namespace Formula

/-- Without quantifiers all atoms are outside of them. -/
theorem Every.of_outerAtoms {f : Formula} {P : Atom → Prop} (h : f.Every P) :
    ∀ a ∈ f.outerAtoms, P a := by
  induction f with
  | top | bot => simp [outerAtoms]
  | atom a => exact List.forall_mem_singleton.2 h
  | not f ih => exact ih h
  | connect c l r ihl ihr => exact List.forall_mem_append.2 ⟨ihl h.1, ihr h.2⟩
  | all x f => exact h.elim

theorem isUnfolded_of_unfold (f : Formula) : ∀ a ∈ f.unfold.outerAtoms, a.IsUnfolded := by
  induction f with
  | top | bot | all => simp [unfold, outerAtoms]
  | atom a =>
    cases h : a.isSetRelation with
    | false => exact fun b hb => .inl ((every_normal_unfold h).of_outerAtoms b hb)
    | true =>
      cases a with
      | isEmpty | subset | setEq => exact List.forall_mem_singleton.2 (.inr rfl)
      | eq | mem | pred => cases h
  | not f ih => exact ih
  | connect c l r ihl ihr => exact List.forall_mem_append.2 ⟨ihl, ihr⟩

theorem unfoldMember_of_isAtomic {e s : Term} (h : s.isAtomic = true) :
    unfoldMember e s = .atom (.mem e s) := by
  cases s with
  | var | app => rfl
  | empty | singleton | add | remove | union | inter | diff => cases h

theorem unfold_of_isUnfolded {f : Formula} (h : ∀ a ∈ f.outerAtoms, a.IsUnfolded) :
    f.unfold = f := by
  induction f with
  | top | bot | all => rfl
  | atom a =>
    have ha : a.IsUnfolded := List.forall_mem_singleton.1 h
    cases a with
    | mem e s => exact unfoldMember_of_isAtomic ha.isAtomic
    | eq | pred | isEmpty | subset | setEq => exact congrArg Formula.atom ha.orient_eq
  | not f ih => exact congrArg Formula.not (ih h)
  | connect c l r ihl ihr =>
    obtain ⟨hl, hr⟩ := List.forall_mem_append.1 h
    rw [unfold, ihl hl, ihr hr]

/-- An unfolded formula cannot be unfolded further. -/
theorem unfold_unfold (f : Formula) : f.unfold.unfold = f.unfold :=
  unfold_of_isUnfolded f.isUnfolded_of_unfold

/-- One step on a membership does not change what it unfolds to, so the unfolded formula is the one that
steps lead to, wherever they start. -/
theorem unfold_of_step {e s : Term} {f : Formula} (h : unfoldMember? e s = some f) :
    f.unfold = (atom (.mem e s)).unfold := by
  cases s with
  | var | app => cases h
  | empty | singleton | add | remove | union | inter | diff => cases h; rfl

/-- **Unfolding is correct and normalising.** On every formula: where the evaluator has a result, it has
the same on the unfolded formula; outside of quantifiers, containers are variables or applications and
equations are oriented; and unfolding again changes nothing. It is the normal form of the steps on
memberships, which do not change what a formula unfolds to. -/
theorem unfold_correct (f : Formula) :
    (∀ (I : Model.Interpretation) b, I.holds f = .ok b → I.holds f.unfold = .ok b) ∧
      (∀ a ∈ f.unfold.outerAtoms,
        (∀ e s, a = .mem e s → s.isAtomic = true) ∧ ∀ l r, a = .eq l r → a.orient = a) ∧
      f.unfold.unfold = f.unfold ∧
      ∀ e s g, f = .atom (.mem e s) → unfoldMember? e s = some g → g.unfold = f.unfold := by
  refine ⟨fun I b h => I.holds_unfold h, fun a ha => ?_, unfold_unfold f, ?_⟩
  · have unfolded : a.IsUnfolded := f.isUnfolded_of_unfold a ha
    refine ⟨?_, fun l r _ => unfolded.orient_eq⟩
    rintro e s rfl
    exact unfolded.isAtomic
  · rintro e s g rfl h
    exact unfold_of_step h

end Formula

end SetSequent
