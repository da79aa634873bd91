import SetSequent.Decision

/-!
# Formulas without quantifiers, by their atoms

* `Formula.Every P` — the formula has no quantifier and each of its atoms satisfies `P`.
* `every_unfold`, `every_eliminate`, `every_push`, `every_pull`, `every_simplify`, `every_cases?` — what
  the rules of the procedure keep. Each needs `P` only for the atoms that the rule makes.
-/

namespace SetSequent

namespace Formula

/-- The formula has no quantifier and each of its atoms satisfies `P`. -/
def Every (P : Atom → Prop) : Formula → Prop
  | .top | .bot => True
  | .atom a => P a
  | .not f => f.Every P
  | .connect _ l r => l.Every P ∧ r.Every P
  | .all .. => False

variable {P Q : Atom → Prop}

theorem Every.imp {f : Formula} (h : ∀ a, P a → Q a) (hf : f.Every P) : f.Every Q := by
  induction f with
  | top | bot => trivial
  | atom a => exact h a hf
  | not f ih => exact ih hf
  | connect c l r ihl ihr => exact ⟨ihl hf.1, ihr hf.2⟩
  | all x f => exact hf.elim

theorem Every.and {f : Formula} (hp : f.Every P) (hq : f.Every Q) :
    f.Every fun a => P a ∧ Q a := by
  induction f with
  | top | bot => trivial
  | atom a => exact ⟨hp, hq⟩
  | not f ih => exact ih hp hq
  | connect c l r ihl ihr => exact ⟨ihl hp.1 hq.1, ihr hp.2 hq.2⟩
  | all x f => exact hp.elim

theorem every_of_atoms {f : Formula} (hf : f.Every fun _ => True) (h : ∀ a ∈ f.atoms, P a) :
    f.Every P := by
  induction f with
  | top | bot => trivial
  | atom a => exact h a (List.mem_singleton_self a)
  | not f ih => exact ih hf h
  | connect c l r ihl ihr =>
    exact ⟨ihl hf.1 fun a ha => h a (List.mem_append_left _ ha),
      ihr hf.2 fun a ha => h a (List.mem_append_right _ ha)⟩
  | all x f => exact hf.elim

theorem Every.of_mem_atoms {f : Formula} (hf : f.Every P) {a : Atom} (ha : a ∈ f.atoms) : P a := by
  induction f with
  | top | bot => cases ha
  | atom b => obtain rfl := List.mem_singleton.1 ha; exact hf
  | not f ih => exact ih hf ha
  | connect c l r ihl ihr =>
    rcases List.mem_append.1 ha with ha | ha
    · exact ihl hf.1 ha
    · exact ihr hf.2 ha
  | all x f => exact hf.elim

theorem Every.mem_freeVars {f : Formula} (hf : f.Every P) {a : Atom} (ha : a ∈ f.atoms) {x : String}
    (hx : x ∈ a.vars) : x ∈ f.freeVars := by
  induction f with
  | top | bot => cases ha
  | atom b => rw [List.mem_singleton.1 ha] at hx; exact hx
  | not f ih => exact ih hf ha
  | connect c l r ihl ihr =>
    rcases List.mem_append.1 ha with ha | ha
    · exact List.mem_append_left _ (ihl hf.1 ha)
    · exact List.mem_append_right _ (ihr hf.2 ha)
  | all y f => exact hf.elim

/-! ## Replacement and unfolding -/

theorem every_orient {f : Formula} (hf : f.Every P) (ho : ∀ a, P a → P a.orient) :
    f.orient.Every P := by
  cases f with
  | atom a => exact ho a hf
  | _ => exact hf

theorem every_unfold {f : Formula} (hf : f.Every P) (h : ∀ a, P a → (Formula.atom a).unfold.Every Q) :
    f.unfold.Every Q := by
  induction f with
  | top | bot => trivial
  | atom a => exact h a hf
  | not f ih => exact ih hf
  | connect c l r ihl ihr => exact ⟨ihl hf.1, ihr hf.2⟩
  | all y f => exact hf.elim

theorem every_eliminate {f : Formula} {x : String} {t : Term} (hf : f.Every P)
    (h : ∀ a, P a → ((Formula.atom a).eliminate x t).Every Q) : (f.eliminate x t).Every Q := by
  induction f with
  | top | bot => trivial
  | atom a => exact h a hf
  | not f ih => exact ih hf
  | connect c l r ihl ihr => exact ⟨ihl hf.1, ihr hf.2⟩
  | all y f => exact hf.elim

/-- Unfolding brings no quantifier. -/
theorem every_unfoldMember (e s : Term) : (unfoldMember e s).Every fun _ => True := by
  induction s using unfoldMember.induct <;> simp_all [unfoldMember, Every]

theorem every_unfold_atom (a : Atom) : (Formula.atom a).unfold.Every fun _ => True := by
  cases a with
  | mem e s => exact every_unfoldMember e s
  | _ => trivial

theorem every_eliminate_true {f : Formula} {x : String} {t : Term} (hf : f.Every fun _ => True) :
    (f.eliminate x t).Every fun _ => True :=
  every_eliminate hf fun _ _ => every_unfold_atom _

/-- A membership unfolds to equations and memberships. -/
theorem every_ordinary_unfoldMember (e s : Term) :
    (unfoldMember e s).Every (·.isSetRelation = false) := by
  have equation (a : Term) : (Atom.eq e a).orient.isSetRelation = false := by
    rw [Atom.orient]
    split <;> rfl
  induction s using unfoldMember.induct with
  | case1 | case2 => rfl
  | case3 => trivial
  | case4 a => exact equation a
  | case5 a s ih | case6 a s ih => exact ⟨equation a, ih⟩
  | case7 s t ihs iht | case8 s t ihs iht | case9 s t ihs iht => exact ⟨ihs, iht⟩

theorem every_ordinary_unfold {a : Atom} (ha : a.isSetRelation = false) :
    (Formula.atom a).unfold.Every (·.isSetRelation = false) := by
  cases a with
  | mem e s => exact every_ordinary_unfoldMember e s
  | eq l r =>
    change (Atom.eq l r).orient.isSetRelation = false
    rw [Atom.orient]
    split <;> rfl
  | isEmpty | subset | setEq | pred => exact ha

/-! ## Negations -/

variable {t : DecidabilityTable}

theorem every_pushRule? {f : Formula} {r : NegationRule} (h : f.pushRule? = some r)
    (hf : f.Every P) : r.result.Every P := by
  unfold pushRule? at h
  split at h <;> cases h <;> simp_all [Every]

theorem every_pullRule? {f : Formula} {r : NegationRule} (h : f.pullRule? = some r)
    (hf : f.Every P) : r.result.Every P := by
  unfold pullRule? at h
  split at h <;> cases h <;> simp_all [Every]

theorem every_pushStep {f g : Formula} (h : (f.pushStep t).value = some g) (hf : f.Every P) :
    g.Every P := by
  obtain ⟨r, hr, _, rfl⟩ := NegationRule.value_fire?.1 h
  exact every_pushRule? hr hf

theorem every_pullStep {f g : Formula} (h : (f.pullStep t).value = some g) (hf : f.Every P) :
    g.Every P := by
  obtain ⟨r, hr, _, rfl⟩ := NegationRule.value_fire?.1 h
  exact every_pullRule? hr hf

theorem value_push_of_step {f g : Formula} (h : (pushStep t (.not f)).value = some g) :
    (push t (.not f)).value = (push t g).value := by
  rw [push]
  split <;> simp_all

theorem value_push_of_stuck {f : Formula} (h : (pushStep t (.not f)).value = none) :
    (push t (.not f)).value = .not (push t f).value := by
  rw [push]
  split <;> simp_all

theorem value_push_connect (c : Connective) (l r : Formula) :
    (push t (.connect c l r)).value = .connect c (push t l).value (push t r).value := by
  rw [push]; rfl

theorem value_push_of_other {f : Formula} (hn : ∀ g, f ≠ .not g) (hc : ∀ c l r, f ≠ .connect c l r) :
    (push t f).value = f := by
  rw [push] <;> simp_all

theorem value_pullRoot_of_step {f g : Formula} (h : (pullStep t f).value = some g) :
    (pullRoot t f).value = (pullRoot t g).value := by
  rw [pullRoot]
  split <;> simp_all

theorem value_pullRoot_of_stuck {f : Formula} (h : (pullStep t f).value = none) :
    (pullRoot t f).value = f := by
  rw [pullRoot]
  split <;> simp_all

/-- What is kept by every rule that fires is kept by pushing. -/
theorem push_induction {R : Formula → Formula → Prop}
    (refl : ∀ f, R f f) (step : ∀ f g h, (f.pushStep t).value = some g → R g h → R f h)
    (not : ∀ f g, R f g → R (.not f) (.not g))
    (connect : ∀ c l l' r r', R l l' → R r r' → R (.connect c l r) (.connect c l' r'))
    (f : Formula) : R f (push t f).value := by
  induction f using push.induct t with
  | case1 f _ g hg ih =>
    rw [value_push_of_step hg]
    exact step _ _ _ hg ih
  | case2 f _ hn ih =>
    rw [value_push_of_stuck hn]
    exact not _ _ ih
  | case3 c l r ihl ihr =>
    rw [value_push_connect]
    exact connect _ _ _ _ _ ihl ihr
  | case4 f hn hc =>
    rw [value_push_of_other hn hc]
    exact refl f

/-- What is kept by every rule that fires is kept by pulling. -/
theorem pull_induction {R : Formula → Formula → Prop}
    (refl : ∀ f, R f f) (trans : ∀ f g h, R f g → R g h → R f h)
    (step : ∀ f g, (f.pullStep t).value = some g → R f g)
    (not : ∀ f g, R f g → R (.not f) (.not g))
    (connect : ∀ c l l' r r', R l l' → R r r' → R (.connect c l r) (.connect c l' r'))
    (f : Formula) : R f (pull t f).value := by
  have root (f : Formula) : R f (pullRoot t f).value := by
    induction f using pullRoot.induct t with
    | case1 f _ g hg ih =>
      rw [value_pullRoot_of_step hg]
      exact trans _ _ _ (step _ _ hg) ih
    | case2 f _ hn =>
      rw [value_pullRoot_of_stuck hn]
      exact refl f
  induction f with
  | top | bot | atom | all => exact refl _
  | not f ih => exact trans _ _ _ (not _ _ ih) (root _)
  | connect c l r ihl ihr => exact trans _ _ _ (connect _ _ _ _ _ ihl ihr) (root _)

theorem every_push (f : Formula) (hf : f.Every P) : (push t f).value.Every P := by
  refine push_induction (R := fun f g => f.Every P → g.Every P) ?refl ?step ?not ?connect f hf
  case refl => exact fun _ h => h
  case step =>
    intro f g h hs ih hf
    exact ih (every_pushStep hs hf)
  case not => exact fun _ _ ih => ih
  case connect =>
    intro c l l' r r' ihl ihr hf
    exact ⟨ihl hf.1, ihr hf.2⟩

theorem every_pull (f : Formula) (hf : f.Every P) : (pull t f).value.Every P := by
  refine pull_induction (R := fun f g => f.Every P → g.Every P) ?refl ?trans ?step ?not ?connect f hf
  case refl => exact fun _ h => h
  case trans => exact fun _ _ _ h₁ h₂ hf => h₂ (h₁ hf)
  case step =>
    intro f g hs hf
    exact every_pullStep hs hf
  case not => exact fun _ _ ih => ih
  case connect =>
    intro c l l' r r' ihl ihr hf
    exact ⟨ihl hf.1, ihr hf.2⟩

/-- The normal form is the pushed form or the pulled form of it. -/
theorem value_normalize (usePull : Bool) (f : Formula) :
    (normalize t usePull f).value = (push t f).value ∨
      (normalize t usePull f).value = (pull t (push t f).value).value := by
  unfold normalize
  cases usePull with
  | false => exact .inl rfl
  | true =>
    simp only [Noted.value_bind, if_true]
    split
    · exact .inr rfl
    · exact .inl rfl

theorem every_normalize (usePull : Bool) (f : Formula) (hf : f.Every P) :
    (normalize t usePull f).value.Every P := by
  rcases value_normalize (t := t) usePull f with h | h <;> rw [h]
  · exact every_push f hf
  · exact every_pull _ (every_push f hf)

/-! ## Evaluation under literals -/

theorem every_fold (c : Connective) {l r : Formula} (hl : l.Every P) (hr : r.Every P) :
    (fold c l r).Every P := by
  cases c <;> simp only [fold, foldAnd, foldOr, foldImplies, foldIff] <;> split <;>
    simp_all [Every]

theorem every_simplify {trues falses : List Atom} {f : Formula} (hf : f.Every P)
    (ho : ∀ a, P a → P a.orient) : (f.simplify trues falses).Every P := by
  induction f with
  | top | bot => trivial
  | atom a =>
    simp only [simplify]
    split
    · trivial
    · split
      · trivial
      · exact ho a hf
  | not f ih =>
    have hs := ih hf
    simp only [simplify, foldNot]
    split <;> simp_all [Every]
  | connect c l r ihl ihr => exact every_fold c (ihl hf.1) (ihr hf.2)
  | all x f => exact hf.elim

theorem every_cases? {f a b : Formula} (h : f.cases? = some (a, b)) (hf : f.Every P) :
    a.Every P ∧ b.Every P := by
  unfold cases? at h
  split at h <;> cases h <;> simp_all [Every]

theorem every_literal? {f : Formula} {a : Atom} {positive : Bool}
    (h : f.literal? = some (a, positive)) (hf : f.Every P) (ho : ∀ a, P a → P a.orient) : P a := by
  unfold literal? at h
  split at h <;> cases h <;> exact ho _ hf

/-! ## Parts of a conjunction -/

theorem every_conjuncts {f : Formula} : f.Every P ↔ ∀ g ∈ f.conjuncts, g.Every P := by
  induction f using conjuncts.induct with
  | case1 l r ihl ihr =>
    simp only [conjuncts, List.mem_append, or_imp, forall_and, ← ihl, ← ihr]
    rfl
  | case2 f hf =>
    have : f.conjuncts = [f] := by rw [conjuncts]; exact hf
    simp [this]

end Formula

end SetSequent
