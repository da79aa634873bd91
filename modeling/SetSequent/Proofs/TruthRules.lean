import SetSequent.Proofs.Truth

/-!
# The rules of the procedure keep the truth

Every rule is judged in one interpretation at a time.

* `truth_unfold`, `truth_eliminate` — unfolding, and elimination of a variable by a term of its value.
* `truth_push`, `truth_pull`, `truth_normalize` — negations, for every table: the guards matter to a
  constructive reader only.
* `truth_simplify`, `truth_cases?`, `truth_literal?` — evaluation under literals that hold.
* `truth_instance`, `relates_of_truthAtom`, `truthAtom_of_relates` — a set relation against what it
  states about single values.
-/

namespace SetSequent.Model.Interpretation

variable {I : Interpretation} {t : DecidabilityTable}

/-! ## Unfolding -/

theorem truthAtom_eq (l r : Term) : I.truthAtom (.eq l r) = (I.value l == I.value r) := rfl

@[simp] theorem truthAtom_orient (a : Atom) : I.truthAtom a.orient = I.truthAtom a := by
  cases a with
  | eq l r =>
    simp only [Atom.orient]
    split
    · exact Bool.beq_comm
    · rfl
  | _ => rfl

theorem truth_unfoldMember (e s : Term) :
    I.truth (unfoldMember e s) = (I.value s).members.contains (I.value e) := by
  induction s using unfoldMember.induct with
  | case1 | case2 => rfl
  | case3 => simp [unfoldMember, truth, value]
  | case4 a =>
    rw [Bool.eq_iff_iff]
    simp [unfoldMember, truth, truthAtom_eq, value]
  | case5 a s ih | case6 a s ih =>
    rw [Bool.eq_iff_iff]
    simp [unfoldMember, truth, truthAtom_eq, value, Connective.combine, ih, Value.mem_members_join,
      Value.mem_members_minus, or_comm, and_comm]
  | case7 s t ihs iht | case8 s t ihs iht | case9 s t ihs iht =>
    simp [unfoldMember, truth, value, Connective.combine, ihs, iht, Value.mem_members_join,
      Value.mem_members_meet, Value.mem_members_minus]

/-- Unfolding keeps the truth. -/
theorem truth_unfold (f : Formula) : I.truth f.unfold = I.truth f := by
  induction f using Formula.unfold.induct with
  | case1 e s => exact truth_unfoldMember e s
  | case2 a ha => cases a <;> first | exact truthAtom_orient _ | exact absurd rfl (ha _ _)
  | case3 f ih => simp only [Formula.unfold, truth, ih]
  | case4 c l r ihl ihr => simp only [Formula.unfold, truth, ihl, ihr]
  | case5 f => simp [Formula.unfold]

theorem truth_eliminate {x : String} {r : Term} (h : I.denote x = I.value r) {f : Formula}
    (hf : f.Every fun _ => True) : I.truth (f.eliminate x r) = I.truth f := by
  rw [Formula.eliminate, truth_unfold, truth_subst h hf]

/-! ## Negations -/

theorem truth_pushRule? {f : Formula} {r : NegationRule} (h : f.pushRule? = some r) :
    I.truth r.result = I.truth f := by
  unfold Formula.pushRule? at h
  split at h <;> cases h <;> simp only [truth, Connective.combine, Bool.not_not, Bool.not_true,
    Bool.not_false, Bool.not_or, Bool.not_and]
  all_goals
    rename_i a b
    cases I.truth a <;> cases I.truth b <;> rfl

theorem truth_pullRule? {f : Formula} {r : NegationRule} (h : f.pullRule? = some r) :
    I.truth r.result = I.truth f := by
  unfold Formula.pullRule? at h
  split at h <;> cases h <;> simp only [truth, Connective.combine, Bool.not_not, Bool.not_or,
    Bool.not_and]
  rename_i a b
  exact Bool.or_comm ..

theorem truth_pushStep {f g : Formula} (h : (f.pushStep t).value = some g) :
    I.truth g = I.truth f := by
  obtain ⟨r, hr, _, rfl⟩ := NegationRule.value_fire?.1 h
  exact truth_pushRule? hr

theorem truth_pullStep {f g : Formula} (h : (f.pullStep t).value = some g) :
    I.truth g = I.truth f := by
  obtain ⟨r, hr, _, rfl⟩ := NegationRule.value_fire?.1 h
  exact truth_pullRule? hr

theorem truth_push (f : Formula) : I.truth (f.push t).value = I.truth f := by
  refine Formula.push_induction (R := fun f g => I.truth g = I.truth f) ?refl ?step ?not ?connect f
  case refl => exact fun _ => rfl
  case step =>
    intro f g h hs ih
    rw [ih, truth_pushStep hs]
  case not =>
    intro f g ih
    rw [truth, truth, ih]
  case connect =>
    intro c l l' r r' ihl ihr
    rw [truth, truth, ihl, ihr]

theorem truth_pull (f : Formula) : I.truth (f.pull t).value = I.truth f := by
  refine Formula.pull_induction (R := fun f g => I.truth g = I.truth f)
    ?refl ?trans ?step ?not ?connect f
  case refl => exact fun _ => rfl
  case trans =>
    intro f g h h₁ h₂
    rw [h₂, h₁]
  case step => exact fun _ _ hs => truth_pullStep hs
  case not =>
    intro f g ih
    rw [truth, truth, ih]
  case connect =>
    intro c l l' r r' ihl ihr
    rw [truth, truth, ihl, ihr]

/-- The normal form keeps the truth, whatever the table calls decidable. -/
theorem truth_normalize (usePull : Bool) (f : Formula) :
    I.truth (f.normalize t usePull).value = I.truth f := by
  rcases Formula.value_normalize (t := t) usePull f with h | h <;> rw [h]
  · exact truth_push f
  · rw [truth_pull, truth_push]

/-! ## Evaluation under literals -/

theorem truth_fold (c : Connective) (l r : Formula) :
    I.truth (Formula.fold c l r) = c.combine (I.truth l) (I.truth r) := by
  cases c <;>
    simp only [Formula.fold, Formula.foldAnd, Formula.foldOr, Formula.foldImplies,
      Formula.foldIff] <;>
    split <;> simp [truth, Connective.combine]

theorem truthAtom_of_isReflexive {a : Atom} (h : a.isReflexive = true) : I.truthAtom a = true := by
  cases a <;> simp_all [Atom.isReflexive, truthAtom]

/-- Evaluation under true and false atoms keeps the truth. -/
theorem truth_simplify {trues falses : List Atom} (ht : ∀ a ∈ trues, I.truthAtom a = true)
    (hf : ∀ a ∈ falses, I.truthAtom a = false) (f : Formula) :
    I.truth (f.simplify trues falses) = I.truth f := by
  induction f with
  | top | bot | all => rfl
  | atom a =>
    rw [truth, ← truthAtom_orient, Formula.simplify]
    split
    · rename_i h
      rcases Bool.or_eq_true_iff.1 h with h | h
      · rw [truthAtom_of_isReflexive h]; rfl
      · rw [ht _ (List.contains_iff_mem.1 h)]; rfl
    · split
      · rename_i h
        rw [hf _ (List.contains_iff_mem.1 h)]; rfl
      · rfl
  | not f ih =>
    rw [Formula.simplify, truth, ← ih]
    cases f.simplify trues falses <;> rfl
  | connect c l r ihl ihr => rw [Formula.simplify, truth_fold, ihl, ihr, truth]

/-- A disjunctive formula is true if one of its cases is. -/
theorem truth_cases? {f a b : Formula} (h : f.cases? = some (a, b)) :
    I.truth f = (I.truth a || I.truth b) := by
  unfold Formula.cases? at h
  split at h <;> cases h <;> simp only [truth, Connective.combine]
  rename_i l r
  cases I.truth l <;> cases I.truth r <;> rfl

theorem truth_literal? {f : Formula} {a : Atom} {positive : Bool}
    (h : f.literal? = some (a, positive)) : I.truth f = (I.truthAtom a == positive) := by
  unfold Formula.literal? at h
  split at h <;> cases h <;> simp [truth]

theorem truth_conjuncts {f : Formula} :
    I.truth f = true ↔ ∀ g ∈ f.conjuncts, I.truth g = true := by
  induction f using Formula.conjuncts.induct with
  | case1 l r ihl ihr =>
    simp only [truth, Connective.combine, Bool.and_eq_true, Formula.conjuncts, List.mem_append,
      or_imp, forall_and, ← ihl, ← ihr]
  | case2 f hf =>
    have : f.conjuncts = [f] := by rw [Formula.conjuncts]; exact hf
    simp [this]

theorem truth_excludedMiddle (f : Formula) : I.truth f.excludedMiddle = true := by
  simp [Formula.excludedMiddle, truth, Connective.combine]

/-! ## Set relations -/

/-- What a set relation states about one value. -/
def Relates (I : Interpretation) (w : Value) : Atom → Prop
  | .isEmpty s => w ∉ (I.value s).members
  | .subset s u => w ∈ (I.value s).members → w ∈ (I.value u).members
  | .setEq s u => w ∈ (I.value s).members ↔ w ∈ (I.value u).members
  | .eq .. | .mem .. | .pred .. => True

theorem relates_congr {J : Interpretation} {a : Atom} (h : I.Agrees J (· ∈ a.vars)) (w : Value) :
    I.Relates w a ↔ J.Relates w a := by
  have args : ∀ t ∈ a.args, I.value t = J.value t := fun t ht =>
    value_congr t (h.imp fun x hx => List.mem_flatMap.2 ⟨t, ht, hx⟩)
  cases a <;> simp_all [Relates, Atom.args]

/-- An instance says what the relation states about the value of its element. -/
theorem truth_instance {a : Atom} {e : Term} {f : Formula} (h : a.instanceAt? e = some f) :
    I.truth f = true ↔ I.Relates (I.value e) a := by
  cases a with
  | isEmpty s => cases h; simp [truth, truthAtom, Relates]
  | subset s u => cases h; simp [truth, truthAtom, Relates, Connective.combine, Decidable.imp_iff_not_or]
  | setEq s u => cases h; simp [truth, truthAtom, Relates, Connective.combine]
  | eq | mem | pred => cases h

/-- A set relation that holds states the truth about every value. -/
theorem relates_of_truthAtom {a : Atom} (h : I.truthAtom a = true) (w : Value) :
    I.Relates w a := by
  cases a with
  | isEmpty s => exact Value.not_mem_of_isVoid h
  | subset s u => exact Value.mem_of_below h
  | setEq s u =>
    have : I.value s = I.value u := by simpa [truthAtom] using h
    simp [Relates, this]
  | eq | mem | pred => trivial

/-- A relation between sets holds if it states the truth about every value. -/
theorem truthAtom_of_relates {a : Atom} (ha : a.isSetRelation = true)
    (hs : ∀ s ∈ a.setArgs, (I.value s).isSet = true) (h : ∀ w, I.Relates w a) :
    I.truthAtom a = true := by
  cases a with
  | isEmpty s => exact Value.isVoid_of_not_mem (hs s (by simp [Atom.setArgs])) h
  | subset s u =>
    exact Value.below_of_mem (hs s (by simp [Atom.setArgs])) (hs u (by simp [Atom.setArgs])) h
  | setEq s u =>
    have := Value.ext_members (hs s (by simp [Atom.setArgs])) (hs u (by simp [Atom.setArgs])) h
    simp [truthAtom, this]
  | eq | mem | pred => cases ha

/-- If the formula is a set relation, its arguments denote sets. -/
def RelatesSets (I : Interpretation) (f : Formula) : Prop :=
  ∀ a, f = .atom a → a.isSetRelation = true → ∀ u ∈ a.setArgs, (I.value u).isSet = true

theorem isSetRelation_of_unfoldMember {e s : Term} {b : Atom} (h : unfoldMember e s = .atom b) :
    b.isSetRelation = false := by
  have he := Formula.every_ordinary_unfoldMember e s
  rw [h] at he
  exact he

theorem relatesSets_eliminate {x : String} {r : Term} (hx : I.denote x = I.value r) {f : Formula}
    (hf : I.RelatesSets f) : I.RelatesSets (f.eliminate x r) := by
  intro b hb hr
  cases f with
  | top | bot | not | connect => cases hb
  | all y f =>
    simp only [Formula.eliminate, Formula.subst] at hb
    split at hb <;> cases hb
  | atom a =>
    have hf := hf a rfl
    cases a with
    | mem e s => rw [isSetRelation_of_unfoldMember hb] at hr; cases hr
    | eq l s =>
      cases hb
      simp only [Atom.orient, Atom.mapArgs] at hr
      split at hr <;> cases hr
    | pred p args => cases hb; cases hr
    | isEmpty | subset | setEq =>
      cases hb
      simp_all [Atom.isSetRelation, Atom.setArgs, Atom.mapArgs, Atom.orient, value_subst hx]

end SetSequent.Model.Interpretation
