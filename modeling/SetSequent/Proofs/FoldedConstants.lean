import SetSequent.Proofs.PreparedForm

/-!
# What is left of the constants

Evaluation under literals folds the constants away. One pair of sides escapes: an equivalence whose sides
both become `false` becomes `not false`, and that negation is not folded again.

* `Formula.IsFolded` — a constant, or a formula without constants.
* `Folds` — everything that folding can make of two sides.
* `Formula.lasting` — the parts of a formula that no constant beside them decides.
* `isFolded_simplify_iff` — the result is folded unless a lasting equivalence has two false sides.
* `isFolded_of_simplify_eq`, `simplify_simplify_iff` — evaluating again changes nothing exactly if
  the result is folded.
* `simplify_folds_constants` — when the constants are gone, for all formulas without quantifiers.
-/

namespace SetSequent

namespace Formula

/-! ## Folded formulas -/

def isConstant : Formula → Bool
  | .top | .bot => true
  | _ => false

/-- Neither constant is a part of the formula. -/
def ConstantFree (f : Formula) : Prop := .top ∉ f.subformulas ∧ .bot ∉ f.subformulas

/-- The formula is a constant or has none in it. -/
def IsFolded (f : Formula) : Prop := f = .top ∨ f = .bot ∨ f.ConstantFree

instance (f : Formula) : Decidable f.ConstantFree := inferInstanceAs (Decidable (_ ∧ _))

instance (f : Formula) : Decidable f.IsFolded := inferInstanceAs (Decidable (_ ∨ _))

theorem constantFree_atom (a : Atom) : (atom a).ConstantFree := by simp [ConstantFree, subformulas]

@[simp] theorem constantFree_not {f : Formula} : (Formula.not f).ConstantFree ↔ f.ConstantFree := by
  simp [ConstantFree, subformulas]

@[simp] theorem constantFree_connect {c : Connective} {l r : Formula} :
    (connect c l r).ConstantFree ↔ l.ConstantFree ∧ r.ConstantFree := by
  simp only [ConstantFree, subformulas, List.cons_append, List.mem_cons, List.mem_append]
  grind

theorem ConstantFree.isConstant {f : Formula} (h : f.ConstantFree) : f.isConstant = false := by
  cases f with
  | top => exact absurd (List.mem_singleton_self _) h.1
  | bot => exact absurd (List.mem_singleton_self _) h.2
  | atom | not | connect | all => rfl

theorem isFolded_iff {f : Formula} : f.IsFolded ↔ f.isConstant = true ∨ f.ConstantFree := by
  cases f <;> simp [IsFolded, isConstant]

theorem isFolded_of_isConstant {f : Formula} (h : f.isConstant = true) : f.IsFolded :=
  isFolded_iff.2 (.inl h)

theorem constantFree_iff {f : Formula} : f.ConstantFree ↔ f.IsFolded ∧ f.isConstant = false := by
  constructor
  · exact fun h => ⟨.inr (.inr h), h.isConstant⟩
  · rintro ⟨h, hn⟩
    exact (isFolded_iff.1 h).resolve_left (by simp [hn])

theorem isFolded_not {f : Formula} : (Formula.not f).IsFolded ↔ f.IsFolded ∧ f.isConstant = false := by
  rw [← constantFree_iff, ← constantFree_not]
  simp [IsFolded]

theorem isFolded_connect {c : Connective} {l r : Formula} :
    (connect c l r).IsFolded ↔
      (l.IsFolded ∧ l.isConstant = false) ∧ r.IsFolded ∧ r.isConstant = false := by
  rw [← constantFree_iff, ← constantFree_iff, ← constantFree_connect (c := c)]
  simp [IsFolded]

end Formula

/-! ## What folding does -/

/-- Whether a side is the constant that decides the connective, whatever the other side is. -/
def Connective.decides : Connective → Formula → Formula → Bool
  | .and, l, r => l == .bot || r == .bot
  | .or, l, r => l == .top || r == .top
  | .implies, l, r => l == .bot || r == .top
  | .iff, _, _ => false

namespace Formula

/-- An equivalence between `false` and `false`. -/
def Clash (c : Connective) (l r : Formula) : Prop := c = .iff ∧ l = .bot ∧ r = .bot

/-- What folding can make of two sides. -/
inductive Folds (l r : Formula) : Connective → Formula → Prop where
  | decided {c : Connective} {f : Formula} (decides : c.decides l r = true)
      (constant : f.isConstant = true) : Folds l r c f
  | left {c : Connective} (undecided : c.decides l r = false) (constant : r.isConstant = true)
      (apart : ¬ Clash c l r) : Folds l r c l
  | right {c : Connective} (undecided : c.decides l r = false) (constant : l.isConstant = true)
      (apart : ¬ Clash c l r) : Folds l r c r
  | negatedLeft {c : Connective} (undecided : c.decides l r = false) (side : r = .bot)
      (rest : l.isConstant = false) : Folds l r c (.not l)
  | negatedRight (side : l = .bot) (rest : r ≠ .top) : Folds l r .iff (.not r)
  | both {c : Connective} (left : l.isConstant = false) (right : r.isConstant = false) :
      Folds l r c (.connect c l r)

theorem isConstant_of_ne {f : Formula} (ht : f ≠ .top) (hb : f ≠ .bot) : f.isConstant = false := by
  cases f with
  | top => exact absurd rfl ht
  | bot => exact absurd rfl hb
  | atom | not | connect | all => rfl

theorem folds_fold (c : Connective) (l r : Formula) : Folds l r c (fold c l r) := by
  cases c with
  | and | or =>
    simp only [fold, foldAnd, foldOr]
    split
    · exact .decided (by simp [Connective.decides]) rfl
    · exact .decided (by simp [Connective.decides]) rfl
    · exact .right (by simp_all [Connective.decides]) rfl (by simp [Clash])
    · exact .left (by simp_all [Connective.decides]) rfl (by simp [Clash])
    · exact .both (isConstant_of_ne ‹_› ‹_›) (isConstant_of_ne ‹_› ‹_›)
  | implies =>
    simp only [fold, foldImplies]
    split
    · exact .decided (by simp [Connective.decides]) rfl
    · exact .decided (by simp [Connective.decides]) rfl
    · exact .right (by simp_all [Connective.decides]) rfl (by simp [Clash])
    · exact .negatedLeft (by simp_all [Connective.decides]) rfl (isConstant_of_ne ‹_› ‹_›)
    · exact .both (isConstant_of_ne ‹_› ‹_›) (isConstant_of_ne ‹_› ‹_›)
  | iff =>
    simp only [fold, foldIff]
    split
    · exact .right rfl rfl (by simp [Clash])
    · exact .left rfl rfl (by simp [Clash])
    · exact .negatedRight rfl ‹_›
    · exact .negatedLeft rfl rfl (isConstant_of_ne ‹_› ‹_›)
    · exact .both (isConstant_of_ne ‹_› ‹_›) (isConstant_of_ne ‹_› ‹_›)

/-- **Folded sides fold to a folded formula**, unless they clash. A side that is not folded matters only if
the other does not decide. -/
theorem isFolded_fold (c : Connective) (l r : Formula) :
    (fold c l r).IsFolded ↔ c.decides l r = true ∨ l.IsFolded ∧ r.IsFolded ∧ ¬ Clash c l r := by
  have h := folds_fold c l r
  generalize fold c l r = f at h ⊢
  cases h with
  | decided decides constant => simp [decides, isFolded_of_isConstant constant]
  | left undecided constant apart | right undecided constant apart =>
    simp [undecided, isFolded_of_isConstant constant, apart]
  | negatedLeft undecided side rest =>
    subst side
    have apart : ¬ Clash c l .bot := by
      rintro ⟨_, rfl, _⟩
      cases rest
    simp [undecided, isFolded_not, rest, apart, isFolded_of_isConstant (f := .bot) rfl]
  | negatedRight side rest =>
    subst side
    have clash : Clash .iff .bot r ↔ r.isConstant = true := by
      cases r <;> simp_all [Clash, isConstant]
    simp [Connective.decides, isFolded_not, clash, isFolded_of_isConstant (f := .bot) rfl]
  | both left right =>
    have undecided : c.decides l r = false := by
      cases c <;> cases l <;> cases left <;> cases r <;> cases right <;> rfl
    have apart : ¬ Clash c l r := by
      rintro ⟨_, rfl, _⟩
      cases left
    simp [undecided, isFolded_connect, left, right, apart]

/-- A connective is the result of folding if it was a side, or if both sides are left as they are. -/
theorem eq_of_fold_eq_connect {c d : Connective} {l r l' r' : Formula}
    (h : fold c l r = .connect d l' r') :
    l = .connect d l' r' ∨ r = .connect d l' r' ∨
      l = l' ∧ r = r' ∧ l.isConstant = false ∧ r.isConstant = false := by
  have hfold := folds_fold c l r
  rw [h] at hfold
  cases hfold with
  | decided _ constant => cases constant
  | left => exact .inl rfl
  | right => exact .inr (.inl rfl)
  | both left right => exact .inr (.inr ⟨rfl, rfl, left, right⟩)

/-! ## Evaluation -/

variable {trues falses : List Atom}

/-- The parts of a formula, but of a connective that a constant decides only the connective. -/
def lasting (trues falses : List Atom) : Formula → List Formula
  | .not f => .not f :: f.lasting trues falses
  | .connect c l r =>
    .connect c l r ::
      if c.decides (l.simplify trues falses) (r.simplify trues falses) then []
      else l.lasting trues falses ++ r.lasting trues falses
  | f => [f]

/-- No equivalence among the lasting parts has two sides that become `false`. -/
def Unclashed (trues falses : List Atom) (f : Formula) : Prop :=
  ∀ l r, .iff l r ∈ f.lasting trues falses →
    ¬ (l.simplify trues falses = .bot ∧ r.simplify trues falses = .bot)

theorem unclashed_connect {c : Connective} {l r : Formula} :
    (connect c l r).Unclashed trues falses ↔
      c.decides (l.simplify trues falses) (r.simplify trues falses) = true ∨
        l.Unclashed trues falses ∧ r.Unclashed trues falses ∧
          ¬ Clash c (l.simplify trues falses) (r.simplify trues falses) := by
  cases decides : c.decides (l.simplify trues falses) (r.simplify trues falses) with
  | true =>
    have other : c ≠ .iff := by
      rintro rfl
      cases decides
    have unclashed : (connect c l r).Unclashed trues falses := by
      intro l' r' hm
      simp only [lasting, decides, if_true, List.mem_singleton, connect.injEq] at hm
      exact absurd hm.1.symm other
    simp [unclashed]
  | false =>
    simp only [Bool.false_eq_true, false_or]
    constructor
    · intro h
      refine ⟨fun l' r' hm => h l' r' ?_, fun l' r' hm => h l' r' ?_, ?_⟩
      · simp [lasting, decides, hm]
      · simp [lasting, decides, hm]
      · rintro ⟨rfl, hl, hr⟩
        exact h l r (.head _) ⟨hl, hr⟩
    · rintro ⟨hl, hr, apart⟩ l' r' hm ⟨hl', hr'⟩
      simp only [lasting, decides, Bool.false_eq_true, if_false, List.mem_cons, List.mem_append,
        connect.injEq] at hm
      rcases hm with ⟨rfl, rfl, rfl⟩ | hm | hm
      · exact apart ⟨rfl, hl', hr'⟩
      · exact hl l' r' hm ⟨hl', hr'⟩
      · exact hr l' r' hm ⟨hl', hr'⟩

theorem isFolded_simplify_atom (a : Atom) : (simplify trues falses (.atom a)).IsFolded := by
  rw [simplify]
  split
  · exact .inl rfl
  · split
    · exact .inr (.inl rfl)
    · exact .inr (.inr (constantFree_atom _))

theorem isFolded_foldNot (f : Formula) : f.foldNot.IsFolded ↔ f.IsFolded := by
  cases f with
  | top | bot => simp [foldNot, IsFolded]
  | atom | not | connect | all => simp [foldNot, isFolded_not, isConstant]

/-- **The result is folded unless a lasting equivalence has two false sides.** -/
theorem isFolded_simplify_iff {f : Formula} (hf : f.Every fun _ => True) :
    (f.simplify trues falses).IsFolded ↔ f.Unclashed trues falses := by
  induction f with
  | top | bot => simp [simplify, IsFolded, Unclashed, lasting]
  | atom a => simp [isFolded_simplify_atom, Unclashed, lasting]
  | not f ih =>
    rw [simplify, isFolded_foldNot, ih hf]
    simp [Unclashed, lasting]
  | connect c l r ihl ihr =>
    rw [simplify, isFolded_fold, ihl hf.1, ihr hf.2, unclashed_connect]
  | all => exact hf.elim

/-! ## Evaluating again -/

/-- What evaluation leaves alone is folded. -/
theorem isFolded_of_simplify_eq {f : Formula} (hf : f.Every fun _ => True)
    (h : f.simplify trues falses = f) : f.IsFolded := by
  induction f with
  | top => exact .inl rfl
  | bot => exact .inr (.inl rfl)
  | atom a => exact .inr (.inr (constantFree_atom a))
  | not f ih =>
    rw [simplify] at h
    have same : f.simplify trues falses = f ∧ f.isConstant = false := by
      revert h
      cases hs : f.simplify trues falses with
      | top | bot => exact fun h => Formula.noConfusion h
      | atom | not | connect | all =>
        intro h
        cases h
        exact ⟨rfl, rfl⟩
    exact isFolded_not.2 ⟨ih hf same.1, same.2⟩
  | connect c l r ihl ihr =>
    -- The result cannot be one of the sides, which weigh less than the connective.
    rcases eq_of_fold_eq_connect h with hl | hr | ⟨hl, hr, nl, nr⟩
    · have smaller := Nat.lt_of_le_of_lt (weight_simplify_le trues falses l) (weight_left_lt c l r)
      rw [hl] at smaller
      exact absurd smaller (Nat.lt_irrefl _)
    · have smaller := Nat.lt_of_le_of_lt (weight_simplify_le trues falses r) (weight_right_lt c l r)
      rw [hr] at smaller
      exact absurd smaller (Nat.lt_irrefl _)
    · rw [hl] at nl
      rw [hr] at nr
      exact isFolded_connect.2 ⟨⟨ihl hf.1 hl, nl⟩, ihr hf.2 hr, nr⟩
  | all => exact hf.elim

end Formula

/-! ## Known atoms -/

namespace Atom

/-- The value of the atom is known: it is an equation between a term and itself, or its oriented form is
listed. -/
def Known (trues falses : List Atom) (a : Atom) : Prop :=
  a.isReflexive = true ∨ a.orient ∈ trues ∨ a.orient ∈ falses

instance (trues falses : List Atom) (a : Atom) : Decidable (a.Known trues falses) :=
  inferInstanceAs (Decidable (_ ∨ _))

theorem isReflexive_orient (a : Atom) : a.orient.isReflexive = a.isReflexive := by
  cases a with
  | eq l r =>
    rw [orient]
    split
    · exact Bool.beq_comm
    · rfl
  | mem | isEmpty | subset | setEq | pred => rfl

theorem known_orient {trues falses : List Atom} {a : Atom} :
    a.orient.Known trues falses ↔ a.Known trues falses := by
  rw [Known, Known, isReflexive_orient, orient_orient]

end Atom

namespace Formula

theorem isConstant_simplify_of_known {a : Atom} (h : a.Known trues falses) :
    (simplify trues falses (.atom a)).isConstant = true := by
  rw [simplify, Atom.isReflexive_orient]
  split
  · rfl
  · rename_i open_
    simp only [Bool.or_eq_true, List.contains_iff_mem, not_or] at open_
    have listed : a.orient ∈ falses := (h.resolve_left open_.1).resolve_left open_.2
    rw [if_pos (List.contains_iff_mem.2 listed)]
    rfl

theorem simplify_of_not_known {a : Atom} (h : ¬ a.Known trues falses) :
    simplify trues falses (.atom a) = .atom a.orient := by
  simp only [Atom.Known, not_or] at h
  simp [simplify, Atom.isReflexive_orient, h]

theorem every_of_isConstant {P : Atom → Prop} {f : Formula} (h : f.isConstant = true) :
    f.Every P := by
  cases f with
  | top | bot => trivial
  | atom | not | connect | all => cases h

theorem every_foldNot {P : Atom → Prop} {f : Formula} (h : f.Every P) : f.foldNot.Every P := by
  cases f with
  | top | bot => trivial
  | atom | not | connect | all => exact h

/-- The atoms that are left are those that the evaluation of single atoms leaves. -/
theorem every_simplify_of_atoms {P : Atom → Prop} {f : Formula}
    (h : f.Every fun a => (simplify trues falses (.atom a)).Every P) :
    (f.simplify trues falses).Every P := by
  induction f with
  | top | bot => trivial
  | atom a => exact h
  | not f ih => exact every_foldNot (ih h)
  | connect c l r ihl ihr => exact every_fold c (ihl h.1) (ihr h.2)
  | all => exact h.elim

/-- What is left of a formula has oriented atoms of unknown value. -/
theorem every_unknown_simplify {f : Formula} (hf : f.Every fun _ => True) :
    (f.simplify trues falses).Every fun a => a.orient = a ∧ ¬ a.Known trues falses := by
  refine every_simplify_of_atoms (hf.imp fun a _ => ?_)
  by_cases h : a.Known trues falses
  · exact every_of_isConstant (isConstant_simplify_of_known h)
  · rw [simplify_of_not_known h]
    exact ⟨a.orient_orient, fun hk => h (Atom.known_orient.1 hk)⟩

theorem foldNot_of_isConstant {f : Formula} (h : f.isConstant = false) : f.foldNot = .not f := by
  cases f with
  | top | bot => cases h
  | atom | not | connect | all => rfl

theorem fold_of_isConstant {c : Connective} {l r : Formula} (hl : l.isConstant = false)
    (hr : r.isConstant = false) : fold c l r = .connect c l r := by
  cases c <;> cases l <;> cases hl <;> cases r <;> cases hr <;> rfl

theorem simplify_of_constantFree {f : Formula} (hf : f.ConstantFree)
    (h : f.Every fun a => a.orient = a ∧ ¬ a.Known trues falses) : f.simplify trues falses = f := by
  induction f with
  | top | bot => rfl
  | atom a => rw [simplify_of_not_known h.2, h.1]
  | not f ih =>
    have hf := constantFree_not.1 hf
    rw [simplify, ih hf h, foldNot_of_isConstant hf.isConstant]
  | connect c l r ihl ihr =>
    obtain ⟨hl, hr⟩ := constantFree_connect.1 hf
    rw [simplify, ihl hl h.1, ihr hr h.2, fold_of_isConstant hl.isConstant hr.isConstant]
  | all => exact h.elim

/-- **Evaluating again changes nothing exactly if the result is folded.** -/
theorem simplify_simplify_iff {f : Formula} (hf : f.Every fun _ => True) :
    (f.simplify trues falses).simplify trues falses = f.simplify trues falses ↔
      (f.simplify trues falses).IsFolded := by
  constructor
  · exact isFolded_of_simplify_eq (every_simplify hf fun _ _ => trivial)
  · rintro (h | h | h)
    · rw [h]; rfl
    · rw [h]; rfl
    · exact simplify_of_constantFree h (every_unknown_simplify hf)

/-- A formula without constants has an atom. -/
theorem not_constantFree_of_every_false {f : Formula} (h : f.Every fun _ => False) :
    ¬ f.ConstantFree := by
  induction f with
  | top | bot =>
    intro hf
    cases hf.isConstant
  | atom a => exact h.elim
  | not f ih => exact fun hf => ih h (constantFree_not.1 hf)
  | connect c l r ihl _ => exact fun hf => ihl h.1 (constantFree_connect.1 hf).1
  | all => exact h.elim

theorem constant_iff_isFolded_of_known {f : Formula} (hf : f.Every fun _ => True)
    (known : ∀ a ∈ f.atoms, a.Known trues falses) :
    f.simplify trues falses = .top ∨ f.simplify trues falses = .bot ↔
      (f.simplify trues falses).IsFolded := by
  have none : (f.simplify trues falses).Every fun _ => False :=
    every_simplify_of_atoms (every_of_atoms hf fun a ha =>
      every_of_isConstant (isConstant_simplify_of_known (known a ha)))
  rw [IsFolded, ← or_assoc]
  exact (or_iff_left (not_constantFree_of_every_false none)).symm

/-- **When the constants are folded away.** What is left of a formula without quantifiers is a constant or
has no constant in it exactly if none of its equivalences, other than those inside of a connective that a
constant decides, has two sides that become `false`. Evaluating what is left again changes nothing exactly
then; and if the value of every atom is known, a constant is left exactly then. -/
theorem simplify_folds_constants (trues falses : List Atom) {f : Formula}
    (hf : f.Every fun _ => True) :
    ((f.simplify trues falses).IsFolded ↔
        ∀ l r, .iff l r ∈ f.lasting trues falses →
          ¬ (l.simplify trues falses = .bot ∧ r.simplify trues falses = .bot)) ∧
      ((f.simplify trues falses).simplify trues falses = f.simplify trues falses ↔
        (f.simplify trues falses).IsFolded) ∧
      ((∀ a ∈ f.atoms, a.Known trues falses) →
        (f.simplify trues falses = .top ∨ f.simplify trues falses = .bot ↔
          (f.simplify trues falses).IsFolded)) :=
  ⟨isFolded_simplify_iff hf, simplify_simplify_iff hf, constant_iff_isFolded_of_known hf⟩

/-- `x` is a member of `s` exactly if it is one of `t`. -/
def sameMembership : Formula :=
  .iff (.atom (.mem (.var "x") (.var "s"))) (.atom (.mem (.var "x") (.var "t")))

/-- `x` is a member of neither `s` nor `t`. -/
def outside : List Atom := [.mem (.var "x") (.var "s"), .mem (.var "x") (.var "t")]

/-- The clash does not last where another side decides. -/
theorem simplify_folds_constants_decided :
    ((sameMembership.or (.atom (.eq (.var "x") (.var "x")))).Every fun _ => True) ∧
      (∀ a ∈ (sameMembership.or (.atom (.eq (.var "x") (.var "x")))).atoms, a.Known [] outside) ∧
      ((sameMembership.or (.atom (.eq (.var "x") (.var "x")))).simplify [] outside).IsFolded := by
  have every : (sameMembership.or (.atom (.eq (.var "x") (.var "x")))).Every fun _ => True :=
    ⟨⟨trivial, trivial⟩, trivial⟩
  refine ⟨every, by decide, (simplify_folds_constants [] outside every).1.2 fun l r hm => ?_⟩
  have only : (sameMembership.or (.atom (.eq (.var "x") (.var "x")))).lasting [] outside =
      [sameMembership.or (.atom (.eq (.var "x") (.var "x")))] := by
    decide
  rw [only, List.mem_singleton] at hm
  cases hm

/-- **A constant is left over.** The value of both sides is known, and neither `true` nor `false` is left
but a negation of `false`, which a second evaluation folds. -/
theorem simplify_leaves_not_false :
    (sameMembership.Every fun _ => True) ∧ (∀ a ∈ sameMembership.atoms, a.Known [] outside) ∧
      sameMembership.simplify [] outside = .not .bot ∧
      ¬ (sameMembership.simplify [] outside).IsFolded ∧
      (sameMembership.simplify [] outside).simplify [] outside = .top := by
  exact ⟨⟨trivial, trivial⟩, by decide⟩

end Formula

end SetSequent
