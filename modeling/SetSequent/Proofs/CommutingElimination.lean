import SetSequent.Proofs.Positions
import SetSequent.Proofs.ReadTerms
import SetSequent.Proofs.UnfoldedForm

/-!
# Elimination before and after unfolding

A hypothesis may be unfolded before a variable is eliminated from it or only afterwards. Unfolding first
breaks memberships down that elimination would have found whole, and orients equations whose sides elimination
changes. The result is the same, since unfolding goes on where it stopped, and since the order of two terms
with readable names depends on nothing but the terms.

* `Term.wellNamed_subst` — replacement keeps names readable.
* `Term.eq_of_text_eq` — terms with readable names are told apart by their texts.
* `Atom.orient_eq_comm` — so an equation and its converse have the same orientation.
* `unfold_subst_unfoldMember` — memberships that are unfolded first.
* `eliminate_unfold` — formulas that are unfolded first.
-/

namespace SetSequent

/-! ## Texts of terms -/

namespace Term

theorem wellNamed_subst {name : Token → Bool} {x : String} {r t : Term} (ht : t.wellNamed name = true)
    (hr : r.wellNamed name = true) : (t.subst x r).wellNamed name = true := by
  induction t using children_induction with
  | step t ih =>
    cases t with
    | var y =>
      by_cases hy : y = x
      · simpa only [subst, if_pos hy] using hr
      · simpa only [subst, if_neg hy] using ht
    | app f args =>
      simp only [wellNamed, Bool.and_eq_true, listWellNamed_iff] at ht
      simp only [subst, listSubst_eq_map, wellNamed, Bool.and_eq_true, listWellNamed_iff, List.forall_mem_map]
      exact ⟨ht.1, fun t hm => ih t hm (ht.2 t hm)⟩
    | empty => rfl
    | singleton e => exact ih e (.head _) ht
    | add a b | remove a b | union a b | inter a b | diff a b =>
      simp only [wellNamed, Bool.and_eq_true] at ht
      simp only [subst, wellNamed, Bool.and_eq_true]
      exact ⟨ih a (.head _) ht.1, ih b (.tail _ (.head _)) ht.2⟩

/-- No two terms with readable names have the same text: both would be read from it. -/
theorem eq_of_text_eq {s t : Term} (hs : s.wellNamed Token.isIdentifier = true)
    (ht : t.wellNamed Token.isIdentifier = true) (h : s.text = t.text) : s = t := by
  have read {u : Term} (hu : u.wellNamed Token.isIdentifier = true) :
      readTerm (Token.ofText u.text) = .ok u := by
    rw [ofText_text hu]
    exact readTerm_tokens (wellNamed_of_tokens hu fun _ _ hx => (Bool.and_eq_true_iff.1 hx).1)
  have both := read hs
  rw [h, read ht] at both
  exact (Except.ok.inj both).symm

end Term

namespace Atom

variable {l r : Term} {x : String} {t : Term}

/-- An equation and its converse have the same orientation. -/
theorem orient_eq_comm (hl : l.wellNamed Token.isIdentifier = true)
    (hr : r.wellNamed Token.isIdentifier = true) : (eq l r).orient = (eq r l).orient := by
  by_cases less : r.text < l.text
  · have back : ¬ l.text < r.text := String.lt_asymm less
    simp only [orient, if_pos less, if_neg back]
  · by_cases back : l.text < r.text
    · simp only [orient, if_neg less, if_pos back]
    · have same : l.text = r.text := String.le_antisymm (String.not_lt.1 less) (String.not_lt.1 back)
      rw [Term.eq_of_text_eq hl hr same]

end Atom

/-! ## Formulas -/

namespace Formula

variable {x : String} {r : Term}

/-- An equation that is oriented before a replacement is oriented anew after it. -/
theorem unfold_subst_orient {a b : Term} (ha : a.wellNamed Token.isIdentifier = true)
    (hb : b.wellNamed Token.isIdentifier = true) (hr : r.wellNamed Token.isIdentifier = true) :
    ((atom (Atom.eq a b).orient).subst x r).unfold =
      atom (Atom.eq (a.subst x r) (b.subst x r)).orient := by
  rw [Atom.orient]
  split
  · have converse : (Atom.eq (b.subst x r) (a.subst x r)).orient =
        (Atom.eq (a.subst x r) (b.subst x r)).orient :=
      Atom.orient_eq_comm (Term.wellNamed_subst hb hr) (Term.wellNamed_subst ha hr)
    exact congrArg atom converse
  · rfl

/-- A membership may be unfolded before a replacement. The induction is on the set: at a variable that is
replaced, unfolding stopped and goes on in the replacement. -/
theorem unfold_subst_unfoldMember {e s : Term} (he : e.wellNamed Token.isIdentifier = true)
    (hs : s.wellNamed Token.isIdentifier = true) (hr : r.wellNamed Token.isIdentifier = true) :
    ((unfoldMember e s).subst x r).unfold = unfoldMember (e.subst x r) (s.subst x r) := by
  have equation {a : Term} (ha : a.wellNamed Token.isIdentifier = true) :=
    unfold_subst_orient (x := x) he ha hr
  induction s using unfoldMember.induct with
  | case1 | case2 | case3 => rfl
  | case4 a => exact equation hs
  | case5 a s ih | case6 a s ih =>
    rw [Term.wellNamed, Bool.and_eq_true] at hs
    simp only [unfoldMember, subst, unfold, Term.subst, ih hs.2]
    rw [← equation hs.1]
    rfl
  | case7 s t ihs iht | case8 s t ihs iht | case9 s t ihs iht =>
    rw [Term.wellNamed, Bool.and_eq_true] at hs
    simp only [unfoldMember, subst, unfold, Term.subst, ihs hs.1, iht hs.2]

/-- **Unfolding and elimination commute.** Let the terms of a formula and the replacement have names that the
reader accepts. Then it does not matter for the elimination of a variable whether the formula was unfolded
before. -/
theorem eliminate_unfold {f : Formula} {x : String} {r : Term}
    (hf : ∀ a ∈ f.atoms, ∀ t ∈ a.args, t.wellNamed Token.isIdentifier = true)
    (hr : r.wellNamed Token.isIdentifier = true) :
    f.unfold.eliminate x r = f.eliminate x r := by
  induction f with
  | top | bot | all => rfl
  | atom a =>
    have args := hf a (List.mem_singleton_self a)
    cases a with
    | eq a b => exact unfold_subst_orient (args a (.head _)) (args b (.tail _ (.head _))) hr
    | mem e s => exact unfold_subst_unfoldMember (args e (.head _)) (args s (.tail _ (.head _))) hr
    | isEmpty | subset | setEq | pred => rfl
  | not f ih => exact congrArg Formula.not (ih hf)
  | connect c l r ihl ihr =>
    obtain ⟨hl, hr⟩ := List.forall_mem_append.1 hf
    exact congrArg₂ (connect c) (ihl hl) (ihr hr)

/-- `x = b and y in union(x, t)`: an equation that is not oriented, and a compound set. -/
def foldedPair : Formula :=
  .and (.atom (.eq (.var "x") (.var "b"))) (.atom (.mem (.var "y") (.union (.var "x") (.var "t"))))

/-- Unfolding turns the equation around, the replacement turns it back, and it is itself a compound set. -/
theorem eliminate_unfold_foldedPair :
    (∀ a ∈ foldedPair.atoms, ∀ t ∈ a.args, t.wellNamed Token.isIdentifier = true) ∧
      (Term.add (.var "b") (.var "s")).wellNamed Token.isIdentifier = true ∧
      foldedPair.unfold.text = "(b = x and (y in x or y in t))" ∧
      (foldedPair.unfold.eliminate "x" (.add (.var "b") (.var "s"))).text =
        "(add(b, s) = b and ((b = y or y in s) or y in t))" ∧
      foldedPair.unfold.eliminate "x" (.add (.var "b") (.var "s")) =
        foldedPair.eliminate "x" (.add (.var "b") (.var "s")) := by
  have names : ∀ a ∈ foldedPair.atoms, ∀ t ∈ a.args, t.wellNamed Token.isIdentifier = true := by decide
  have replacement : (Term.add (.var "b") (.var "s")).wellNamed Token.isIdentifier = true := by decide
  exact ⟨names, replacement, by decide, by decide, eliminate_unfold names replacement⟩

end Formula

end SetSequent
