import SetSequent.Formula

/-!
# Weights of formulas

The weight falls with every rule that the procedure applies to a formula: pushing a negation inwards,
taking a conjunction apart, splitting into cases. Each constant, atom and quantifier weighs one.
-/

namespace SetSequent

def Connective.weight : Connective → Nat → Nat → Nat
  | .and, a, b | .or, a, b => a + b + 1
  | .implies, a, b => 3 * a + b + 1
  | .iff, a, b => 4 * a + 4 * b + 3

namespace Formula

def weight : Formula → Nat
  | .top | .bot | .atom _ | .all .. => 1
  | .not f => 3 * f.weight
  | .connect c l r => c.weight l.weight r.weight

theorem weight_pos (f : Formula) : 0 < f.weight := by
  induction f with
  | top | bot | atom | all => simp [weight]
  | not f ih => simp [weight]; omega
  | connect c l r ihl ihr => cases c <;> simp [weight, Connective.weight]

theorem weight_left_lt (c : Connective) (l r : Formula) :
    l.weight < (connect c l r).weight := by
  cases c <;> simp only [weight, Connective.weight] <;> omega

theorem weight_right_lt (c : Connective) (l r : Formula) :
    r.weight < (connect c l r).weight := by
  cases c <;> simp only [weight, Connective.weight] <;> omega

/-- The number of heads. -/
def size : Formula → Nat
  | .top | .bot | .atom _ | .all .. => 1
  | .not f => f.size + 1
  | .connect _ l r => l.size + r.size + 1

end Formula

end SetSequent
