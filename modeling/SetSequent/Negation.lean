import SetSequent.Decidability
import SetSequent.Membership
import SetSequent.Weight

/-!
# Negations

Negations are pushed to the atoms, or pulled to the root. A rule that holds only classically is
guarded: it is used where the table knows the formula in the last column to be decidable.

| push              | result                       | guard    |
|-------------------|------------------------------|----------|
| `¬¬a`             | `a`                          | `a`      |
| `¬(a ∨ b)`        | `¬a ∧ ¬b`                    |          |
| `¬(a ∧ b)`        | `¬a ∨ ¬b`                    | `a`      |
| `¬(a → b)`        | `a ∧ ¬b`                     | `a`      |
| `¬(a ↔ b)`        | `(a ∧ ¬b) ∨ (¬a ∧ b)`        | `a`, `b` |

Pushing also turns the negation of a constant into the other constant. Pulling uses the first row as
it stands, goes back along the three rows after it, with the same guards, and turns `¬a → ¬b` into
`b → a` where `a` is decidable.

* `pushRule?`, `pullRule?` — the rule that fits at the root; at most one does.
* `push`, `pull` — as far as the guards allow.
* `normalize` — the pushed form, or the pulled form of it where that has fewer negations.
-/

namespace SetSequent

/-- A rule that fits a formula: its name, what has to be decidable, and what it turns the formula
into. -/
structure NegationRule where
  name : String
  guards : List Formula
  result : Formula

namespace NegationRule

/-- Whether the table knows the guards to be decidable. The first that it does not know is noted. -/
def meets (t : DecidabilityTable) (rule : String) (whole : Formula) : List Formula → Noted Bool
  | [] => return true
  | f :: rest =>
    if t.isDecidable f then meets t rule whole rest
    else do
      noteDiagnostic .obligationUnmet
        (rule ++ " on " ++ whole.text ++ ": " ++ f.text ++ " is not known to be decidable")
      return false

/-- The result of a rule on `whole`, if there is a rule and its guards are met. -/
def fire? (t : DecidabilityTable) (whole : Formula) :
    Option NegationRule → Noted (Option Formula)
  | none => return none
  | some r => do
    let met ← meets t r.name whole r.guards
    return if met then some r.result else none

theorem value_meets {t : DecidabilityTable} {rule : String} {whole : Formula} {gs : List Formula} :
    (meets t rule whole gs).value = gs.all t.isDecidable := by
  induction gs with
  | nil => rfl
  | cons f gs ih =>
    simp only [meets, List.all_cons]
    split <;> simp_all

theorem value_fire? {t : DecidabilityTable} {whole g : Formula} {rule : Option NegationRule} :
    (fire? t whole rule).value = some g ↔
      ∃ r, rule = some r ∧ r.guards.all t.isDecidable ∧ r.result = g := by
  cases rule with
  | none => simp [fire?]
  | some r => simp [fire?, value_meets]

end NegationRule

namespace Formula

def pushRule? : Formula → Option NegationRule
  | .not .top => some ⟨"constant", [], .bot⟩
  | .not .bot => some ⟨"constant", [], .top⟩
  | .not (.not a) => some ⟨"double negation", [a], a⟩
  | .not (.or a b) => some ⟨"de Morgan", [], .and (.not a) (.not b)⟩
  | .not (.and a b) => some ⟨"de Morgan", [a], .or (.not a) (.not b)⟩
  | .not (.implies a b) => some ⟨"negated implication", [a], .and a (.not b)⟩
  | .not (.iff a b) => some ⟨"negated iff", [a, b], .or (.and a (.not b)) (.and (.not a) b)⟩
  | _ => none

def pullRule? : Formula → Option NegationRule
  | .not (.not a) => some ⟨"double negation", [a], a⟩
  | .and (.not a) (.not b) => some ⟨"de Morgan", [], .not (.or a b)⟩
  | .and a (.not b) => some ⟨"negated implication", [a], .not (.implies a b)⟩
  | .or (.not a) (.not b) => some ⟨"de Morgan", [a], .not (.and a b)⟩
  | .implies (.not a) (.not b) => some ⟨"contraposition", [a], .implies b a⟩
  | _ => none

/-- One rule at the root. -/
def pushStep (t : DecidabilityTable) (f : Formula) : Noted (Option Formula) :=
  NegationRule.fire? t f f.pushRule?

def pullStep (t : DecidabilityTable) (f : Formula) : Noted (Option Formula) :=
  NegationRule.fire? t f f.pullRule?

theorem weight_pushRule? {f : Formula} {r : NegationRule} (h : f.pushRule? = some r) :
    r.result.weight < f.weight := by
  unfold pushRule? at h
  split at h
  case h_3 a => cases h; have := weight_pos a; simp only [weight]; omega
  all_goals cases h
  all_goals simp [weight, Connective.weight]
  all_goals omega

theorem weight_pushStep {t : DecidabilityTable} {f g : Formula}
    (h : (pushStep t f).value = some g) : g.weight < f.weight := by
  obtain ⟨r, hr, _, rfl⟩ := NegationRule.value_fire?.1 h
  exact weight_pushRule? hr

theorem mem_freeVars_pushRule? {f : Formula} {r : NegationRule} {x : String}
    (h : f.pushRule? = some r) (hx : x ∈ r.result.freeVars) : x ∈ f.freeVars := by
  unfold pushRule? at h
  split at h <;> cases h <;> simp_all [freeVars]
  grind

theorem mem_freeVars_pushStep {t : DecidabilityTable} {f g : Formula} {x : String}
    (h : (pushStep t f).value = some g) (hx : x ∈ g.freeVars) : x ∈ f.freeVars := by
  obtain ⟨r, hr, _, rfl⟩ := NegationRule.value_fire?.1 h
  exact mem_freeVars_pushRule? hr hx

/-- Drives negations towards the atoms. -/
def push (t : DecidabilityTable) (f : Formula) : Noted Formula :=
  match f with
  | .not f =>
    let step := pushStep t (.not f)
    match _h : step.value with
    | some g => step >>= fun _ => push t g
    | none => do
      let _ ← step
      return .not (← push t f)
  | .connect c l r => do
    let l ← push t l
    let r ← push t r
    return .connect c l r
  | f => return f
termination_by f.weight
decreasing_by
  · exact weight_pushStep _h
  · have := weight_pos f; simp [weight]; omega
  · exact weight_left_lt c l r
  · exact weight_right_lt c l r

/-- What pulling lowers: twice the size, and one more for a conjunction. -/
def pullRank : Formula → Nat
  | .and l r => 2 * (l.size + r.size + 1) + 1
  | f => 2 * f.size

theorem pullRank_le (f : Formula) : f.pullRank ≤ 2 * f.size + 1 := by
  unfold pullRank
  split <;> simp [size]

theorem pullRank_pullRule? {f : Formula} {r : NegationRule} (h : f.pullRule? = some r) :
    r.result.pullRank < f.pullRank := by
  unfold pullRule? at h
  split at h
  case h_1 a =>
    cases h
    have := pullRank_le a
    have : pullRank (.not (.not a)) = 2 * (a.size + 2) := rfl
    simp only
    omega
  all_goals cases h
  all_goals simp [pullRank, size]
  all_goals omega

theorem pullRank_pullStep {t : DecidabilityTable} {f g : Formula}
    (h : (pullStep t f).value = some g) : g.pullRank < f.pullRank := by
  obtain ⟨r, hr, _, rfl⟩ := NegationRule.value_fire?.1 h
  exact pullRank_pullRule? hr

/-- Applies rules at the root until none applies. -/
def pullRoot (t : DecidabilityTable) (f : Formula) : Noted Formula :=
  let step := pullStep t f
  match _h : step.value with
  | some g => step >>= fun _ => pullRoot t g
  | none => step >>= fun _ => return f
termination_by f.pullRank
decreasing_by exact pullRank_pullStep _h

/-- Collects negations towards the root, from the atoms up. -/
def pull (t : DecidabilityTable) : Formula → Noted Formula
  | .not f => do
    let f ← pull t f
    pullRoot t (.not f)
  | .connect c l r => do
    let l ← pull t l
    let r ← pull t r
    pullRoot t (.connect c l r)
  | f => return f

def normalize (t : DecidabilityTable) (usePull : Bool) (f : Formula) : Noted Formula := do
  let pushed ← push t f
  if usePull then
    let pulled ← pull t pushed
    return if pulled.negationCount < pushed.negationCount then pulled else pushed
  else return pushed

end Formula

def Sequent.normalize (t : DecidabilityTable) (usePull : Bool) (s : Sequent) : Noted Sequent :=
  s.mapFormulas "negation" (Formula.normalize t usePull)

end SetSequent
