import SetSequent.Search.Propagation
import SetSequent.Sequent

/-!
# Refutation by cases

The negated goal joins the hypotheses, and the search closes every branch. After propagation a branch
is split: first on a candidate that no literal decides, then on a pending formula whose cases may be
told apart. A branch with neither is stuck, and so is the whole attempt.

* `Branch.split` — the next case distinction of a settled branch.
* `search` — the tree of a branch, with the number of splits made and a budget for it.
* `refute` — the search on a sequent.

Every split lowers the rank of the branch, so the search ends without a budget too.
-/

namespace SetSequent.Search

/-- The budget of splits is used up. -/
structure BudgetExhausted where
  limit : Int
  deriving DecidableEq

def BudgetExhausted.message (e : BudgetExhausted) : String :=
  "split budget exhausted after " ++ toString e.limit ++ " splits"

/-- The outcome of a part of the search: a result unless the budget ran out, the number of splits
made so far, and the notes taken. -/
structure Attempt (α : Type) where
  result : Except BudgetExhausted α
  splits : Nat
  notes : List Note := []

/-- Goes on with the result and the number of splits, if there is a result. -/
def Attempt.andThen {α β : Type} (a : Attempt α) (next : α → Nat → Attempt β) : Attempt β :=
  match a.result with
  | .error e => ⟨.error e, a.splits, a.notes⟩
  | .ok x =>
    let b := next x a.splits
    { b with notes := a.notes ++ b.notes }

/-! ## Splits -/

/-- A distinction of two cases, and the branch that each case is added to. -/
structure Split where
  inference : Inference
  first : Formula
  second : Formula
  rest : Branch

namespace Branch

/-- The branch with one more formula to refute. -/
def assume (b : Branch) (f : Formula) : Branch := { b with pending := f :: b.pending }

/-- Whether the literals of the branch decide a candidate. -/
def decides (b : Branch) : Formula → Bool
  | .atom a => a.isReflexive || b.trues.contains a || b.falses.contains a
  | _ => false

/-- The distinction whether a candidate holds. -/
def candidateSplit (b : Branch) (f : Formula) : Split where
  inference :=
    { rule := .split
      detail := f.text ++ " or not " ++ f.text
      atom := some f
      assumptions := [f, .not f] }
  first := f
  second := .not f
  rest := { b with candidates := b.candidates.filter (· ≠ f) }

/-- The distinction of the cases of a pending formula. -/
def formulaSplit (b : Branch) (f first second : Formula) (others : List Formula) : Split where
  inference :=
    { rule := .split, detail := f.text, formula := some f, assumptions := [first, second] }
  first := first
  second := second
  rest := { b with pending := others }

/-- Whether the cases of a disjunctive formula may be told apart: the premise of an implication and
both sides of an equivalence have to be decidable. -/
def mayOpen (t : DecidabilityTable) (f : Formula) : Noted Bool :=
  match f with
  | .implies l _ => allDecidable [l]
  | .iff l r => allDecidable [l, r]
  | _ => return true
where
  allDecidable : List Formula → Noted Bool
    | [] => return true
    | g :: rest =>
      if t.isDecidable g then allDecidable rest
      else do
        noteDiagnostic .obligationUnmet
          ("cannot unfold " ++ f.text ++ ": " ++ g.text ++ " is not known to be decidable")
        return false

/-- The first formula that can be split, its two cases, and the other formulas. -/
def findCases (t : DecidabilityTable) :
    List Formula → Noted (Option (Formula × Formula × Formula × List Formula))
  | [] => return none
  | f :: rest =>
    match f.cases? with
    | none => do return (← findCases t rest).map fun (g, l, r, others) => (g, l, r, f :: others)
    | some (l, r) => do
      if ← mayOpen t f then return some (f, l, r, rest)
      else return (← findCases t rest).map fun (g, l, r, others) => (g, l, r, f :: others)

def split (t : DecidabilityTable) (b : Branch) : Noted (Option Split) :=
  match b.candidates.find? (!b.decides ·) with
  | some f => return some (b.candidateSplit f)
  | none => do
    return (← findCases t b.pending).map fun (f, l, r, others) => b.formulaSplit f l r others

/-- The literals and formulas of a branch in one line. -/
def describe (b : Branch) : String :=
  let parts :=
    (Front.sorted b.trues).map (·.text) ++ (Front.sorted b.falses).map (fun f => "not " ++ f.text)
      ++ b.pending.map (·.text)
  if parts.isEmpty then "no facts" else ", ".intercalate parts

/-! ## Rank -/

/-- The number of free variables, the number of candidates and the weight of what is pending. -/
def rank (b : Branch) : Nat × Nat × Nat :=
  (distinct b.front.names, b.candidates.length, weight b.pending)

/-- A formula is found among the others if it has cases that may be told apart. -/
theorem findCases_spec {t : DecidabilityTable} {fs others : List Formula} {f l r : Formula}
    (h : (findCases t fs).value = some (f, l, r, others)) :
    f.cases? = some (l, r) ∧ (mayOpen t f).value = true ∧
      ∃ before after, fs = before ++ f :: after ∧ others = before ++ after := by
  have skip {g : Formula} {fs others : List Formula}
      (ih : ∀ {others}, (findCases t fs).value = some (f, l, r, others) →
        f.cases? = some (l, r) ∧ (mayOpen t f).value = true ∧
          ∃ before after, fs = before ++ f :: after ∧ others = before ++ after)
      (h : ((findCases t fs).value.map fun (f, l, r, others) => (f, l, r, g :: others))
        = some (f, l, r, others)) :
      f.cases? = some (l, r) ∧ (mayOpen t f).value = true ∧
        ∃ before after, g :: fs = before ++ f :: after ∧ others = before ++ after := by
    obtain ⟨⟨f', l', r', others'⟩, hv, he⟩ := Option.map_eq_some_iff.1 h
    simp only [Prod.mk.injEq] at he
    obtain ⟨rfl, rfl, rfl, rfl⟩ := he
    obtain ⟨hc, hm, before, after, rfl, rfl⟩ := ih hv
    exact ⟨hc, hm, g :: before, after, rfl, rfl⟩
  induction fs generalizing others with
  | nil => simp [findCases] at h
  | cons g fs ih =>
    rw [findCases] at h
    split at h
    · exact skip ih h
    · rename_i l' r' hc
      simp only [Noted.value_bind] at h
      split at h
      · rename_i hm
        simp only [Noted.value_pure, Option.some.injEq, Prod.mk.injEq] at h
        obtain ⟨rfl, rfl, rfl, rfl⟩ := h
        exact ⟨hc, hm, [], fs, rfl, rfl⟩
      · exact skip ih h

/-- Both cases of a split have a lower rank than the branch. -/
theorem rank_split {t : DecidabilityTable} {b : Branch} {s : Split} (h : (b.split t).value = some s)
    {f : Formula} (hf : f = s.first ∨ f = s.second) :
    Prod.Lex (· < ·) (Prod.Lex (· < ·) (· < ·)) (s.rest.assume f).rank b.rank := by
  unfold split at h
  split at h
  · rename_i c hc
    simp only [Noted.value_pure, Option.some.injEq] at h
    subst h
    have hm := List.mem_of_find?_eq_some hc
    refine lex_of_fall (.inr ⟨distinct_le fun x hx => ?_, .inl ?_⟩)
    · have hx' : x ∈ f.freeVars → x ∈ c.freeVars := by
        rcases hf with rfl | rfl <;> exact id
      simp only [Front.mem_names, front, assume, candidateSplit, List.mem_cons, List.mem_filter,
        or_and_right, exists_or, exists_eq_left, List.not_mem_nil, false_and, exists_false,
        false_or] at hx ⊢
      grind
    · simp only [assume, candidateSplit]
      exact List.length_filter_lt_length_iff_exists.2 ⟨c, hm, by simp⟩
  · simp only [Noted.value_bind, Noted.value_pure, Option.map_eq_some_iff] at h
    obtain ⟨⟨g, l, r, others⟩, hv, rfl⟩ := h
    obtain ⟨hc, _, before, after, hp, rfl⟩ := findCases_spec hv
    have hlt := Formula.weight_cases? hc
    refine lex_of_fall (.inr ⟨distinct_le fun x hx => ?_, .inr ⟨Nat.le_refl _, ?_⟩⟩)
    · have hx' : x ∈ f.freeVars → x ∈ g.freeVars := fun h =>
        Formula.mem_freeVars_cases? hc (by rcases hf with rfl | rfl <;> simp_all [formulaSplit])
      simp only [Front.mem_names, front, assume, formulaSplit, List.mem_cons, or_and_right, exists_or,
        exists_eq_left, List.not_mem_nil, false_and, exists_false, false_or, hp, List.mem_append]
        at hx ⊢
      grind
    · rcases hf with rfl | rfl <;> simp [assume, formulaSplit, hp] <;> omega

/-- Propagation does not raise the rank. -/
theorem rank_propagate {t : DecidabilityTable} {b b' : Branch} {substitutions : List (String × Term)}
    (h : (propagate t b).value = .settled b' substitutions) :
    distinct b'.front.names < distinct b.front.names ∨
      distinct b'.front.names ≤ distinct b.front.names ∧
        b'.candidates.length ≤ b.candidates.length ∧ weight b'.pending ≤ weight b.pending := by
  obtain ⟨s, rfl, hs⟩ := Front.below_of_run h
  have hn : distinct s.branch.front.names ≤ distinct s.names := distinct_le fun x hx => by
    simp only [Front.mem_names, Front.branch, front, List.not_mem_nil, false_and, exists_false,
      false_or] at hx ⊢
    grind
  rcases hs with hs | ⟨hx, hc, hl⟩
  · exact .inl (Nat.lt_of_le_of_lt hn hs)
  · refine .inr ⟨Nat.le_trans hn (distinct_le hx), hc, ?_⟩
    simp [Front.load, front] at hl
    simp [Front.branch]; omega

/-- Both cases of a split after propagation have a lower rank than the branch before it. -/
theorem rank_split_propagate {t : DecidabilityTable} {b b' : Branch}
    {substitutions : List (String × Term)} {s : Split} {f : Formula}
    (hp : (propagate t b).value = .settled b' substitutions) (hs : (b'.split t).value = some s)
    (hf : f = s.first ∨ f = s.second) :
    Prod.Lex (· < ·) (Prod.Lex (· < ·) (· < ·)) (s.rest.assume f).rank b.rank := by
  have h₁ := rank_propagate hp
  have h₂ := rank_split hs hf
  simp only [rank, Prod.lex_def] at h₂ ⊢
  omega

end Branch

/-! ## Search -/

/-- Puts the replacements of propagation above a tree, the first one outermost. -/
def underSubstitutions (substitutions : List (String × Term)) (tree : ProofTree) : ProofTree :=
  substitutions.foldr
    (fun (x, t) child => .node { rule := .substitute, detail := x ++ " := " ++ t.text } [child]) tree

/-- The budget is exhausted when the number of splits is over the limit. -/
def exhausted? (limit : Option Int) (splits : Nat) : Option BudgetExhausted :=
  match limit with
  | none => none
  | some m => if m < splits then some ⟨m⟩ else none

/-- The tree of a branch, `splits` splits having been made. The first stuck branch ends the search
and is the result. -/
def search (t : DecidabilityTable) (limit : Option Int) (b : Branch) (splits : Nat) :
    Attempt ProofTree :=
  let propagation := propagate t b
  match _hp : propagation.value with
  | .closed leaf substitutions =>
    ⟨.ok (underSubstitutions substitutions (.leaf leaf)), splits, propagation.notes⟩
  | .settled b' substitutions =>
    let choice := b'.split t
    let notes := propagation.notes ++ choice.notes
    match _hs : choice.value with
    | none => ⟨.ok (.leaf { rule := .stuck, detail := b'.describe }), splits, notes⟩
    | some split =>
      match exhausted? limit (splits + 1) with
      | some e => ⟨.error e, splits + 1, notes⟩
      | none =>
        let attempt :=
          (search t limit (split.rest.assume split.first) (splits + 1)).andThen fun first splits =>
            if first.isStuck then ⟨.ok first, splits, []⟩
            else
              (search t limit (split.rest.assume split.second) splits).andThen fun second splits =>
                if second.isStuck then ⟨.ok second, splits, []⟩
                else
                  let tree := .node split.inference [first, second]
                  ⟨.ok (underSubstitutions substitutions tree), splits, []⟩
        { attempt with notes := notes ++ attempt.notes }
termination_by b.rank
decreasing_by
  · exact Branch.rank_split_propagate _hp _hs (.inl rfl)
  · exact Branch.rank_split_propagate _hp _hs (.inr rfl)

/-- What an injected disjunction lets the search split on. -/
def candidate? (h : Hypothesis) : Option Formula :=
  match h.injected, h.formula with
  | true, .or l _ => some l.orient
  | _, _ => none

/-- The branch of a sequent: the hypotheses and the negated goal are pending. -/
def Branch.ofSequent (s : Sequent) : Branch where
  pending := (s.hypotheses.filter (candidate? · |>.isNone)).map (·.formula) ++ [.not s.goal]
  candidates := (s.hypotheses.filterMap candidate?).eraseDups

/-- Searches for a tree that refutes the hypotheses and the negated goal. -/
def refute (t : DecidabilityTable) (limit : Option Int) (s : Sequent) : Attempt ProofTree :=
  search t limit (.ofSequent s) 0

end SetSequent.Search
