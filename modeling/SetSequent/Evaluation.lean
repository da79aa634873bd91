import SetSequent.Weight

/-!
# Evaluation under literals

* `Formula.literal?` — a formula as an oriented atom with a sign.
* `Formula.simplify` — evaluates the atoms that are known and folds constants.
* `Formula.cases?` — the two cases of a disjunctive formula.
-/

namespace SetSequent

namespace Formula

/-- The oriented atom of a literal, and whether it is asserted. -/
def literal? : Formula → Option (Atom × Bool)
  | .atom a => some (a.orient, true)
  | .not (.atom a) => some (a.orient, false)
  | _ => none

def foldNot : Formula → Formula
  | .top => .bot
  | .bot => .top
  | f => .not f

def foldAnd : Formula → Formula → Formula
  | .bot, _ | _, .bot => .bot
  | .top, r => r
  | l, .top => l
  | l, r => .and l r

def foldOr : Formula → Formula → Formula
  | .top, _ | _, .top => .top
  | .bot, r => r
  | l, .bot => l
  | l, r => .or l r

def foldImplies : Formula → Formula → Formula
  | .bot, _ | _, .top => .top
  | .top, r => r
  | l, .bot => .not l
  | l, r => .implies l r

/-- An equivalence with `false` is a negation, which is not folded further. -/
def foldIff : Formula → Formula → Formula
  | .top, r => r
  | l, .top => l
  | .bot, r => .not r
  | l, .bot => .not l
  | l, r => .iff l r

def fold : Connective → Formula → Formula → Formula
  | .and => foldAnd
  | .or => foldOr
  | .implies => foldImplies
  | .iff => foldIff

/-- Evaluates under the atoms known to be true and those known to be false. -/
def simplify (trues falses : List Atom) : Formula → Formula
  | .atom a =>
    if a.orient.isReflexive || trues.contains a.orient then .top
    else if falses.contains a.orient then .bot
    else .atom a.orient
  | .not f => foldNot (f.simplify trues falses)
  | .connect c l r => fold c (l.simplify trues falses) (r.simplify trues falses)
  | f => f

/-- The cases of a disjunction, an implication or an equivalence. -/
def cases? : Formula → Option (Formula × Formula)
  | .or l r => some (l, r)
  | .implies l r => some (.not l, r)
  | .iff l r => some (.and l r, .and (.not l) (.not r))
  | _ => none

/-! ## Weights and variables -/

theorem weight_fold_le (c : Connective) (l r : Formula) :
    (fold c l r).weight ≤ c.weight l.weight r.weight := by
  have := l.weight_pos
  have := r.weight_pos
  cases c <;> simp only [fold, foldAnd, foldOr, foldImplies, foldIff] <;> split <;>
    simp [weight, Connective.weight] <;> omega

theorem weight_mono {c : Connective} {a b a' b' : Nat} (ha : a ≤ a') (hb : b ≤ b') :
    c.weight a b ≤ c.weight a' b' := by
  cases c <;> simp [Connective.weight] <;> omega

theorem weight_simplify_le (trues falses : List Atom) (f : Formula) :
    (f.simplify trues falses).weight ≤ f.weight := by
  induction f with
  | top | bot | all => simp [simplify]
  | atom a =>
    simp only [simplify]
    split
    · simp [weight]
    · split <;> simp [weight]
  | not f ih =>
    have := f.weight_pos
    simp only [simplify, foldNot]
    split <;> simp_all [weight] <;> omega
  | connect c l r ihl ihr =>
    exact Nat.le_trans (weight_fold_le ..) (weight_mono ihl ihr)

theorem mem_freeVars_fold {c : Connective} {l r : Formula} {x : String}
    (h : x ∈ (fold c l r).freeVars) : x ∈ l.freeVars ∨ x ∈ r.freeVars := by
  cases c <;> simp only [fold, foldAnd, foldOr, foldImplies, foldIff] at h <;> split at h <;>
    simp_all [freeVars]

theorem mem_freeVars_simplify {trues falses : List Atom} {f : Formula} {x : String}
    (h : x ∈ (f.simplify trues falses).freeVars) : x ∈ f.freeVars := by
  induction f with
  | top | bot | all => simpa [simplify] using h
  | atom a =>
    simp only [simplify] at h
    split at h
    · simp [freeVars] at h
    · split at h
      · simp [freeVars] at h
      · simpa [freeVars, Atom.mem_vars_orient] using h
  | not f ih =>
    simp only [simplify, foldNot] at h
    split at h <;> simp_all [freeVars]
  | connect c l r ihl ihr =>
    simp only [freeVars, List.mem_append]
    exact (mem_freeVars_fold h).imp ihl ihr

theorem weight_cases? {f a b : Formula} (h : f.cases? = some (a, b)) :
    a.weight < f.weight ∧ b.weight < f.weight := by
  unfold cases? at h
  split at h <;> cases h <;> simp only [weight, Connective.weight] <;> omega

theorem mem_freeVars_cases? {f a b : Formula} {x : String} (h : f.cases? = some (a, b))
    (hx : x ∈ a.freeVars ∨ x ∈ b.freeVars) : x ∈ f.freeVars := by
  unfold cases? at h
  split at h <;> cases h <;> simp_all [freeVars]

end Formula

end SetSequent
