import SetSequent.Proofs.InterimNotes

/-!
# The budget only cuts the search off

The number of splits is handed from case to case, and each split is counted before it is compared with the
budget. A search with a budget is followed next to the one without: it is the same search, or it ends with
the first split over the budget.

* `Attempt.CutOff` — an attempt that is another one, or ends with the first split over the budget.
* `CutOff.andThen` — two attempts that are cut off may be continued side by side.
* `cutOff_search` — the search with a budget is the search without, cut off.
* `Sequent.exhausted_iff` — when a decision reports that the budget is used up.
* `budget_cuts_off` — what this means for refutations and for decisions.
-/

namespace SetSequent

namespace Search

/-- `B` is the attempt `A` if that makes no more splits than the budget allows. Otherwise it ends when one
split more is made. A negative budget allows none. -/
inductive Attempt.CutOff {α : Type} (m : Int) (A B : Attempt α) : Prop where
  | whole (within : A.splits ≤ m.toNat) (same : B = A)
  | cut (above : m.toNat < A.splits) (result : B.result = .error ⟨m⟩)
      (splits : B.splits = m.toNat + 1)

namespace Attempt.CutOff

variable {α β : Type} {m : Int} {A B : Attempt α}

theorem refl (h : A.splits ≤ m.toNat) : CutOff m A A := .whole h rfl

theorem withNotes (h : CutOff m A B) (notes : List Note) :
    CutOff m { A with notes := notes ++ A.notes } { B with notes := notes ++ B.notes } := by
  cases h with
  | whole within same =>
    subst same
    exact .whole within rfl
  | cut above result splits => exact .cut above result splits

/-- What goes on from two attempts is cut off if it is cut off wherever the first of them is within the
budget, and makes no splits undone. -/
theorem andThen {next next' : α → Nat → Attempt β} (h : CutOff m A B) {x : α}
    (hx : A.result = .ok x) (grows : A.splits ≤ (next x A.splits).splits)
    (hn : A.splits ≤ m.toNat → CutOff m (next x A.splits) (next' x A.splits)) :
    CutOff m (A.andThen next) (B.andThen next') := by
  have hA : A.andThen next = { next x A.splits with notes := A.notes ++ (next x A.splits).notes } := by
    simp [Attempt.andThen, hx]
  rw [hA]
  cases h with
  | whole within same =>
    have hB : B.andThen next' =
        { next' x A.splits with notes := A.notes ++ (next' x A.splits).notes } := by
      simp [Attempt.andThen, same, hx]
    rw [hB]
    exact (hn within).withNotes A.notes
  | cut above result splits =>
    refine .cut (Nat.lt_of_lt_of_le above grows) ?_ ?_
    · simp [Attempt.andThen, result]
    · simp [Attempt.andThen, result, splits]

end Attempt.CutOff

/-! ## The search -/

variable {t : DecidabilityTable} {m : Int} {n : Nat}

/-- Without a budget there is always a tree, and splits are only added. -/
theorem exists_search (t : DecidabilityTable) (b : Branch) (n : Nat) :
    ∃ tree, (search t none b n).result = .ok tree ∧ n ≤ (search t none b n).splits := by
  obtain ⟨tree, k, h⟩ := exists_explores t b
  obtain ⟨hr, hs⟩ := search_of_explores h n
  exact ⟨tree, hr, by omega⟩

theorem exhausted?_eq_none (h : n ≤ m.toNat) (hn : n ≠ 0) : exhausted? (some m) n = none := by
  have : ¬ m < n := by omega
  simp [exhausted?, this]

theorem exhausted?_eq_some (h : m.toNat < n) : exhausted? (some m) n = some ⟨m⟩ := by
  have : m < n := by omega
  simp [exhausted?, this]

/-- How the search goes on after the first case of a split. -/
def secondCase (t : DecidabilityTable) (limit : Option Int) (split : Split)
    (substitutions : List (String × Term)) (first : ProofTree) (n : Nat) : Attempt ProofTree :=
  if first.isStuck then ⟨.ok first, n, []⟩
  else
    (search t limit (split.rest.assume split.second) n).andThen fun second n =>
      if second.isStuck then ⟨.ok second, n, []⟩
      else ⟨.ok (underSubstitutions substitutions (.node split.inference [first, second])), n, []⟩

theorem splitAttempt_eq (limit : Option Int) (split : Split) (substitutions : List (String × Term)) :
    splitAttempt t limit split substitutions n =
      (search t limit (split.rest.assume split.first) n).andThen
        (secondCase t limit split substitutions) := rfl

theorem le_splits_secondCase (split : Split) (substitutions : List (String × Term))
    (first : ProofTree) (n : Nat) : n ≤ (secondCase t none split substitutions first n).splits := by
  obtain ⟨second, hr, hn⟩ := exists_search t (split.rest.assume split.second) n
  rw [secondCase]
  split
  · exact Nat.le_refl _
  · rw [(Attempt.andThen_of_ok ⟨hr, rfl⟩ _).2]
    split <;> exact hn

theorem le_splits_splitAttempt (split : Split) (substitutions : List (String × Term)) (n : Nat) :
    n ≤ (splitAttempt t none split substitutions n).splits := by
  obtain ⟨first, hr, hn⟩ := exists_search t (split.rest.assume split.first) n
  rw [splitAttempt_eq, (Attempt.andThen_of_ok ⟨hr, rfl⟩ _).2]
  exact Nat.le_trans hn (le_splits_secondCase ..)

section Cases

variable {split : Split} (substitutions : List (String × Term))

theorem cutOff_secondCase
    (second : ∀ n ≤ m.toNat, Attempt.CutOff m (search t none (split.rest.assume split.second) n)
      (search t (some m) (split.rest.assume split.second) n)) (first : ProofTree)
    (hn : n ≤ m.toNat) :
    Attempt.CutOff m (secondCase t none split substitutions first n)
      (secondCase t (some m) split substitutions first n) := by
  obtain ⟨tree, hr, -⟩ := exists_search t (split.rest.assume split.second) n
  rw [secondCase, secondCase]
  split
  · exact .refl hn
  · refine (second n hn).andThen hr ?_ fun within => ?_
    · split <;> exact Nat.le_refl _
    · split <;> exact .refl within

/-- The two cases of a split are cut off if the search of each is. -/
theorem cutOff_splitAttempt
    (first : ∀ n ≤ m.toNat, Attempt.CutOff m (search t none (split.rest.assume split.first) n)
      (search t (some m) (split.rest.assume split.first) n))
    (second : ∀ n ≤ m.toNat, Attempt.CutOff m (search t none (split.rest.assume split.second) n)
      (search t (some m) (split.rest.assume split.second) n)) (hn : n ≤ m.toNat) :
    Attempt.CutOff m (splitAttempt t none split substitutions n)
      (splitAttempt t (some m) split substitutions n) := by
  obtain ⟨tree, hr, -⟩ := exists_search t (split.rest.assume split.first) n
  rw [splitAttempt_eq, splitAttempt_eq]
  refine (first n hn).andThen hr (le_splits_secondCase ..) fun within => ?_
  exact cutOff_secondCase substitutions second tree within

end Cases

/-- **The search with a budget is the search without one, cut off.** -/
theorem cutOff_search (b : Branch) (hn : n ≤ m.toNat) :
    Attempt.CutOff m (search t none b n) (search t (some m) b n) := by
  -- The number of splits made before is general: the second case counts on from the first.
  induction b using (wellFounded_case t).induction generalizing n with
  | _ b ih =>
    cases hp : (propagate t b).value with
    | closed leaf substitutions =>
      rw [search_of_closed hp, search_of_closed hp]
      exact .refl hn
    | settled settled substitutions =>
      cases hs : (settled.split t).value with
      | none =>
        rw [search_of_stuck hp hs, search_of_stuck hp hs]
        exact .refl hn
      | some split =>
        have first (n : Nat) := ih (n := n) _ ⟨settled, substitutions, split, hp, hs, .inl rfl⟩
        have second (n : Nat) := ih (n := n) _ ⟨settled, substitutions, split, hp, hs, .inr rfl⟩
        rw [search_of_split hp hs, search_of_split hp hs]
        by_cases above : m.toNat < n + 1
        · rw [exhausted?_eq_some above]
          have := le_splits_splitAttempt (t := t) split substitutions (n + 1)
          refine .cut ?_ rfl ?_
          · show m.toNat < (splitAttempt t none split substitutions (n + 1)).splits
            omega
          · show n + 1 = m.toNat + 1
            omega
        · have within : n + 1 ≤ m.toNat := by omega
          rw [exhausted?_eq_none within (by omega)]
          exact (cutOff_splitAttempt substitutions first second within).withNotes _

theorem cutOff_refute (t : DecidabilityTable) (m : Int) (s : Sequent) :
    Attempt.CutOff m (refute t none s) (refute t (some m) s) :=
  cutOff_search _ (Nat.zero_le _)

end Search

/-! ## Decisions -/

/-- The options with another budget of splits. -/
def Options.withBudget (o : Options) (limit : Option Int) : Options := { o with maxSplits := limit }

namespace Sequent

variable {o : Options} {s : Sequent}

theorem interim_journal {d : Diagnostic} (h : d ∈ (s.journal o).diagnostics) :
    d.kind.isFinal = false := by
  have interim : Interim ((s.prepare o).notes ++ (s.attempt o).notes) :=
    interim_append.2 ⟨interim_prepare o s, Search.interim_search _ _ _⟩
  exact interim d (Journal.mem_diagnostics_ofNotes.1 h)

theorem ne_budgetExhausted_of_ok {tree : ProofTree} (h : (s.attempt o).result = .ok tree)
    {d : Diagnostic} (hd : d ∈ (s.decide o).diagnostics) : d.kind ≠ .budgetExhausted := by
  have noted (hd : d ∈ (s.journal o).diagnostics) : d.kind ≠ .budgetExhausted := by
    intro hk
    have := interim_journal hd
    rw [hk] at this
    cases this
  cases hs : tree.isStuck with
  | true =>
    rw [decide_of_stuck h hs] at hd
    rcases Journal.mem_diagnostics_add.1 hd with hd | hd
    · exact noted hd
    · cases hd
      exact DiagnosticKind.noConfusion
  | false =>
    rw [decide_of_closed h hs] at hd
    exact noted hd

/-- **A decision reports that the budget is used up if the search found it so**, and in no other case. -/
theorem exhausted_iff (o : Options) (s : Sequent) :
    (∃ d ∈ (s.decide o).diagnostics, d.kind = .budgetExhausted) ↔
      ∃ e, (s.attempt o).result = .error e := by
  constructor
  · rintro ⟨d, hd, hk⟩
    cases hr : (s.attempt o).result with
    | error e => exact ⟨e, rfl⟩
    | ok tree => exact absurd hk (ne_budgetExhausted_of_ok hr hd)
  · rintro ⟨e, he⟩
    refine ⟨⟨.budgetExhausted, e.message⟩, ?_, rfl⟩
    rw [decide_of_error he]
    exact Journal.mem_diagnostics_add.2 (.inr rfl)

/-- The budget has no part in what is prepared. -/
theorem attempt_withBudget (limit : Option Int) :
    s.attempt (o.withBudget limit) = Search.refute o.table limit (s.prepare o).value := rfl

theorem decide_withBudget_congr {l l' : Option Int}
    (h : s.attempt (o.withBudget l) = s.attempt (o.withBudget l')) :
    s.decide (o.withBudget l) = s.decide (o.withBudget l') := by
  have prepared (l : Option Int) : s.prepare (o.withBudget l) = s.prepare o := rfl
  have refuted (l : Option Int) :
      Search.refute (o.withBudget l).table (o.withBudget l).maxSplits (s.prepare o).value =
        s.attempt (o.withBudget l) := rfl
  unfold decide
  simp only [prepared, refuted, h]

/-- With a budget the decision is the one without, or the search fails. -/
theorem budget_cases (o : Options) (s : Sequent) (m : Int) :
    (s.decide (o.withBudget none)).splits ≤ m.toNat ∧
        s.decide (o.withBudget (some m)) = s.decide (o.withBudget none) ∨
      m.toNat < (s.decide (o.withBudget none)).splits ∧
        (s.attempt (o.withBudget (some m))).result = .error ⟨m⟩ := by
  rw [splits_decide]
  have cut : Search.Attempt.CutOff m (s.attempt (o.withBudget none))
      (s.attempt (o.withBudget (some m))) := Search.cutOff_refute ..
  cases cut with
  | whole within same => exact .inl ⟨within, decide_withBudget_congr same⟩
  | cut above result => exact .inr ⟨above, result⟩

/-- Without a budget nothing is reported about one. -/
theorem not_exhausted (o : Options) (s : Sequent) :
    ¬ ∃ d ∈ (s.decide (o.withBudget none)).diagnostics, d.kind = .budgetExhausted := by
  rw [exhausted_iff]
  rintro ⟨e, he⟩
  obtain ⟨tree, hr, -⟩ := Search.exists_search o.table (.ofSequent (s.prepare o).value) 0
  rw [attempt_withBudget, Search.refute, hr] at he
  cases he

theorem exhausted_iff_over (o : Options) (s : Sequent) (m : Int) :
    (∃ d ∈ (s.decide (o.withBudget (some m))).diagnostics, d.kind = .budgetExhausted) ↔
      m.toNat < (s.decide (o.withBudget none)).splits := by
  rcases budget_cases o s m with ⟨within, same⟩ | ⟨above, failed⟩
  · rw [same]
    exact iff_of_false (not_exhausted o s) (Nat.not_lt_of_le within)
  · exact iff_of_true ((exhausted_iff _ _).2 ⟨_, failed⟩) above

/-- What is proved with a budget is proved within it. -/
theorem within_of_proved {m : Int} (h : (s.decide (o.withBudget (some m))).verdict = .proved) :
    (s.decide (o.withBudget none)).splits ≤ m.toNat ∧
      (s.decide (o.withBudget none)).verdict = .proved := by
  rcases budget_cases o s m with ⟨within, same⟩ | ⟨_, failed⟩
  · rw [same] at h
    exact ⟨within, h⟩
  · rw [decide_of_error failed] at h
    cases h

end Sequent

/-- **The budget only cuts the search off.** Without a budget every search returns a tree. With the budget
`m` it is the same search, with the same tree, splits and notes, if that makes no more splits than `m`
allows, and otherwise it fails. So a decision is the same as without a budget, or it reports that the budget
is used up, exactly when the budget is smaller than the number of splits made without one; and what is
proved stays proved with a larger budget and without one. A negative budget allows no splits. -/
theorem budget_cuts_off (m : Int) :
    (∀ (t : DecidabilityTable) (s : Sequent), ∃ tree, (Search.refute t none s).result = .ok tree ∧
      ((Search.refute t none s).splits ≤ m.toNat →
        Search.refute t (some m) s = Search.refute t none s) ∧
      (m.toNat < (Search.refute t none s).splits →
        (Search.refute t (some m) s).result = .error ⟨m⟩)) ∧
    ∀ (o : Options) (s : Sequent),
      ((s.decide (o.withBudget none)).splits ≤ m.toNat →
        s.decide (o.withBudget (some m)) = s.decide (o.withBudget none)) ∧
      ((∃ d ∈ (s.decide (o.withBudget (some m))).diagnostics, d.kind = .budgetExhausted) ↔
        m.toNat < (s.decide (o.withBudget none)).splits) ∧
      ((∃ d ∈ (s.decide (o.withBudget (some m))).diagnostics, d.kind = .budgetExhausted) →
        (s.decide (o.withBudget (some m))).verdict = .notProved ∧
          (s.decide (o.withBudget (some m))).certificate = none ∧
          (s.decide (o.withBudget (some m))).openBranch = none) ∧
      ((s.decide (o.withBudget (some m))).verdict = .proved →
        (∀ n, m ≤ n → (s.decide (o.withBudget (some n))).verdict = .proved) ∧
          (s.decide (o.withBudget none)).verdict = .proved) := by
  refine ⟨fun t s => ?refute, fun o s => ⟨?same, Sequent.exhausted_iff_over o s m, ?failed, ?monotone⟩⟩
  case refute =>
    obtain ⟨tree, hr, -⟩ := Search.exists_search t (.ofSequent s) 0
    refine ⟨tree, hr, fun within => ?_, fun above => ?_⟩
    · cases Search.cutOff_refute t m s with
      | whole _ same => exact same
      | cut above => omega
    · cases Search.cutOff_refute t m s with
      | whole within => omega
      | cut _ result => exact result
  case same =>
    intro within
    rcases Sequent.budget_cases o s m with ⟨_, same⟩ | ⟨above, _⟩
    · exact same
    · omega
  case failed =>
    intro exhausted
    obtain ⟨e, he⟩ := (Sequent.exhausted_iff _ _).1 exhausted
    rw [Sequent.decide_of_error he]
    exact ⟨rfl, rfl, rfl⟩
  case monotone =>
    intro proved
    obtain ⟨within, proved⟩ := Sequent.within_of_proved proved
    refine ⟨fun n hn => ?_, proved⟩
    rcases Sequent.budget_cases o s n with ⟨_, same⟩ | ⟨above, _⟩
    · rw [same]
      exact proved
    · omega

end SetSequent
