import Mathlib
import SetSequent.Proofs.PreparedForm
import SetSequent.Proofs.StuckBranch

/-!
# The branches that are split

Propagation hands a branch on to be split when it has nothing more to do on it. What holds of such branches
is kept by every step of propagation, and the cases of a split start from the literals of the branch that was
split.

* `Branch.IsSettled` — the literals agree with each other and are used up, and what is pending offers
  propagation nothing.
* `Hands` — the branches that a run of the search comes to split, in a run with or without a budget.
* `Reports`, `exists_hands` — what the search reports when it does not close is the end of such a branch.
* `Front.oriented_step` — steps keep the literals oriented.
* `isSettled_of_hands`, `every_of_hands` — what each of these branches keeps from the first one.
* `split_settled` — each of these branches is settled.
-/

namespace SetSequent.Search

/-! ## Settled branches -/

/-- No atom is both true and false; the atoms are oriented; none is an equation of a term with itself, and
no true equation offers a variable. No pending formula is a literal, a constant or a conjunction. -/
structure Branch.IsSettled (b : Branch) : Prop where
  disjoint : ∀ a ∈ b.trues, a ∉ b.falses
  oriented : ∀ a ∈ b.trues ++ b.falses, a.orient = a
  irreflexive : ∀ e, .eq e e ∉ b.trues ++ b.falses
  unsolved : ∀ x r, x ∉ r.vars → .eq (.var x) r ∉ b.trues ∧ .eq r (.var x) ∉ b.trues
  noLiteral : ∀ a, .atom a ∉ b.pending ∧ .not (.atom a) ∉ b.pending
  noConstant : .top ∉ b.pending ∧ .bot ∉ b.pending
  noConjunction : ∀ l r, .and l r ∉ b.pending

/-! ## Runs -/

/-- The search of `b`, after `n` splits, comes to split `c`: propagation settles with `c`, or the search gets
there from the first case of a split that the budget allows, or from the second case if the first one has
been closed. -/
inductive Hands (t : DecidabilityTable) (limit : Option Int) : Branch → Nat → Branch → Prop where
  | settled {b c : Branch} {n : Nat} {substitutions : List (String × Term)}
      (propagated : (propagate t b).value = .settled c substitutions) : Hands t limit b n c
  | first {b settled c : Branch} {n : Nat} {substitutions : List (String × Term)} {split : Split}
      (propagated : (propagate t b).value = .settled settled substitutions)
      (chosen : (settled.split t).value = some split) (within : exhausted? limit (n + 1) = none)
      (run : Hands t limit (split.rest.assume split.first) (n + 1) c) : Hands t limit b n c
  | second {b settled c : Branch} {n : Nat} {substitutions : List (String × Term)} {split : Split}
      {tree : ProofTree} (propagated : (propagate t b).value = .settled settled substitutions)
      (chosen : (settled.split t).value = some split) (within : exhausted? limit (n + 1) = none)
      (closed : (search t limit (split.rest.assume split.first) (n + 1)).result = .ok tree)
      (goesOn : tree.isStuck = false)
      (run : Hands t limit (split.rest.assume split.second)
        (search t limit (split.rest.assume split.first) (n + 1)).splits c) : Hands t limit b n c

/-- What a search that does not close reports is the end of the branch `c`: a case distinction of `c` that
the budget does not allow, or that there is none. -/
def Reports (t : DecidabilityTable) (c : Branch) : Except BudgetExhausted ProofTree → Prop
  | .error _ => (c.split t).value.isSome = true
  | .ok tree => (c.split t).value = none ∧ tree = .leaf { rule := .stuck, detail := c.describe }

variable {t : DecidabilityTable} {limit : Option Int} {b c : Branch} {n : Nat}

/-- The first case that does not close is the result of a split. -/
theorem result_search_of_split {settled : Branch} {substitutions : List (String × Term)} {split : Split}
    (hp : (propagate t b).value = .settled settled substitutions)
    (hs : (settled.split t).value = some split) (within : exhausted? limit (n + 1) = none) :
    (search t limit b n).result =
      let first := search t limit (split.rest.assume split.first) (n + 1)
      first.result.bind fun tree₁ =>
        if tree₁.isStuck then .ok tree₁
        else (search t limit (split.rest.assume split.second) first.splits).result.bind fun tree₂ =>
          if tree₂.isStuck then .ok tree₂
          else .ok (underSubstitutions substitutions (.node split.inference [tree₁, tree₂])) := by
  have andThen {α β : Type} (a : Attempt α) (next : α → Nat → Attempt β) :
      (a.andThen next).result = a.result.bind fun x => (next x a.splits).result := by
    unfold Attempt.andThen
    cases a.result with
    | error e => rfl
    | ok x => rfl
  simp only [search_of_split hp hs, within, splitAttempt, andThen, apply_ite Attempt.result]

theorem bind_of_open {r : Except BudgetExhausted ProofTree} {f : ProofTree → Except BudgetExhausted ProofTree}
    (h : ∀ tree, r = .ok tree → tree.isStuck = true) :
    (r.bind fun tree => if tree.isStuck then .ok tree else f tree) = r := by
  cases r with
  | error e => rfl
  | ok tree => exact if_pos (h tree rfl)

/-- **A search that does not close ends with a branch that it comes to split.** -/
theorem exists_hands
    (h : ∀ tree, (search t limit b n).result = .ok tree → tree.isStuck = true) :
    ∃ c, Hands t limit b n c ∧ Reports t c (search t limit b n).result := by
  induction b using (wellFounded_case t).induction generalizing n with
  | _ b ih =>
    cases hp : (propagate t b).value with
    | closed leaf substitutions =>
      rw [search_of_closed hp] at h
      have stuck := isStuck_of_underSubstitutions (h _ rfl)
      have closes := (Front.evidence_of_run hp).1
      simp_all [ProofTree.leaf, ProofTree.isStuck, ProofTree.inference, Rule.closes]
    | settled settled substitutions =>
      cases hs : (settled.split t).value with
      | none =>
        rw [search_of_stuck hp hs]
        exact ⟨settled, .settled hp, hs, rfl⟩
      | some split =>
        cases within : exhausted? limit (n + 1) with
        | some e =>
          rw [search_of_split hp hs, within]
          exact ⟨settled, .settled hp, by simp [Reports, hs]⟩
        | none =>
          have case₁ := ih (n := n + 1) _ ⟨settled, substitutions, split, hp, hs, .inl rfl⟩
          have case₂ (n : Nat) := ih (n := n) _ ⟨settled, substitutions, split, hp, hs, .inr rfl⟩
          rw [result_search_of_split hp hs within] at h ⊢
          dsimp only at h ⊢
          generalize first : search t limit (split.rest.assume split.first) (n + 1) = A₁ at h case₁ ⊢
          by_cases open₁ : ∀ tree, A₁.result = .ok tree → tree.isStuck = true
          · rw [bind_of_open open₁]
            obtain ⟨c, hc, reported⟩ := case₁ open₁
            exact ⟨c, .first hp hs within hc, reported⟩
          · -- The first case is closed, so the second one decides.
            simp only [not_forall, Bool.not_eq_true] at open₁
            obtain ⟨tree₁, hr₁, goesOn⟩ := open₁
            rw [hr₁, Except.bind, if_neg (by simp [goesOn])] at h ⊢
            by_cases open₂ : ∀ tree, (search t limit (split.rest.assume split.second) A₁.splits).result =
                .ok tree → tree.isStuck = true
            · rw [bind_of_open open₂]
              obtain ⟨c, hc, reported⟩ := case₂ A₁.splits open₂
              subst first
              exact ⟨c, .second hp hs within hr₁ goesOn hc, reported⟩
            · simp only [not_forall, Bool.not_eq_true] at open₂
              obtain ⟨tree₂, hr₂, closed⟩ := open₂
              rw [hr₂, Except.bind, if_neg (by simp [closed])] at h
              have stuck := isStuck_of_underSubstitutions (h _ rfl)
              have rule := (Refutation.evidence_of_split hs).1
              simp_all [ProofTree.isStuck, ProofTree.inference]

/-! ## Oriented literals -/

theorem orient_of_literal? {f : Formula} {a : Atom} {positive : Bool}
    (h : f.literal? = some (a, positive)) : a.orient = a := by
  unfold Formula.literal? at h
  split at h <;> cases h <;> exact Atom.orient_orient _

namespace Front

variable {s s' : Front}

/-- The literals of the front are oriented. -/
def Oriented (s : Front) : Prop := ∀ a ∈ s.trues ++ s.falses, a.orient = a

theorem oriented_of_learns {a : Atom} {positive : Bool} (hs : s.Oriented) (ha : a.orient = a)
    (h : s.Learns a positive (.next s')) : s'.Oriented := by
  cases h with
  | reflexive | known | knownFalse => exact hs
  | eliminated => exact fun b hb => (List.not_mem_nil hb).elim
  | asserted =>
    intro b hb
    rw [List.append_assoc, List.mem_append, List.singleton_append, List.mem_cons] at hb
    rcases hb with hb | rfl | hb
    · exact hs b (List.mem_append_left _ hb)
    · exact ha
    · exact hs b (List.mem_append_right _ hb)
  | denied =>
    intro b hb
    rw [← List.append_assoc, List.mem_append, List.mem_singleton] at hb
    rcases hb with hb | rfl
    · exact hs b hb
    · exact ha

theorem oriented_takeCompound (hs : s.Oriented) (f : Formula) :
    (s.takeCompound t f).value.Oriented := by
  unfold takeCompound
  split
  · exact hs
  · simp only [Noted.value_bind]
    split <;> exact hs

/-- A step keeps the literals oriented: what it learns comes from a literal. -/
theorem oriented_step (hs : s.Oriented) (h : (s.step t).value = .next s') : s'.Oriented := by
  have hstep := s.steps_step t
  rw [h] at hstep
  cases hstep with
  | @take f rest _ hq hf =>
    have hrest : Oriented { s with queue := rest } := hs
    cases hf with
    | literal hl learns | evaluated hl learns =>
      exact oriented_of_learns hrest (orient_of_literal? hl) learns
    | holds => exact hrest
    | compound => exact oriented_takeCompound hrest _
  | refill => exact hs

theorem oriented_of_settled (hs : s.Oriented) {substitutions : List (String × Term)}
    (h : (s.run t).value = .settled b substitutions) : b.front.Oriented := by
  refine settled_induction (R := fun s b => s.Oriented → b.front.Oriented) ?settle ?next h hs
  case settle => exact fun _ _ hs => hs
  case next =>
    intro s s' b hn ih hs
    exact ih (oriented_step hs hn)

end Front

/-! ## Every branch that is split -/

/-- What resists propagation and is coherent and oriented is settled. -/
theorem Branch.IsSettled.of_coherent (coherent : b.front.Coherent t) (oriented : b.front.Oriented)
    (resists : ∀ f ∈ b.pending, Resists t f) : b.IsSettled where
  disjoint := coherent.consistent
  oriented := oriented
  irreflexive := by
    intro e he
    have reflexive : (Atom.eq e e).isReflexive = false := by
      rcases List.mem_append.1 he with he | he
      · exact (coherent.kept _ he).1
      · exact coherent.irreflexive _ he
    simp [Atom.isReflexive] at reflexive
  unsolved := by
    intro x r hx
    have unsolved {l r : Term} (h : .eq l r ∈ b.trues) :
        Equation.solve? r l = none ∧ Equation.solve? l r = none := by
      have kept : Front.elimination? (.eq l r) = none := (coherent.kept _ h).2
      exact Option.or_eq_none_iff.1 kept
    exact ⟨fun h => hx (Equation.mem_vars_of_solve? (unsolved h).2 rfl),
      fun h => hx (Equation.mem_vars_of_solve? (unsolved h).1 rfl)⟩
  noLiteral := by
    intro a
    refine ⟨fun h => ?_, fun h => ?_⟩
    · cases (resists _ h).literal
    · cases (resists _ h).literal
  noConstant := ⟨fun h => (resists _ h).top rfl, fun h => (resists _ h).bot rfl⟩
  noConjunction := fun l r h => (resists _ h).conjunction l r rfl

/-- What a run starts with is kept in every branch that it comes to split. The induction follows the run:
propagation settles, and each case of a split takes its literals over. -/
theorem isSettled_of_hands (coherent : b.front.Coherent t) (oriented : b.front.Oriented)
    (h : Hands t limit b n c) : c.IsSettled := by
  have case {b settled : Branch} {substitutions : List (String × Term)} {split : Split}
      (coherent : b.front.Coherent t) (oriented : b.front.Oriented)
      (hp : (propagate t b).value = .settled settled substitutions)
      (hs : (settled.split t).value = some split) (f : Formula) :
      (split.rest.assume f).front.Coherent t ∧ (split.rest.assume f).front.Oriented := by
    refine ⟨Branch.coherent_split hs (Front.coherent_of_settled coherent hp).1 f, ?_⟩
    obtain ⟨trues, falses⟩ := Branch.literals_split hs
    change ∀ a ∈ split.rest.trues ++ split.rest.falses, _
    rw [trues, falses]
    exact Front.oriented_of_settled oriented hp
  induction h with
  | settled hp =>
    obtain ⟨coherent', resists⟩ := Front.coherent_of_settled coherent hp
    exact .of_coherent coherent' (Front.oriented_of_settled oriented hp) resists
  | first hp hs _ _ ih =>
    obtain ⟨coherent', oriented'⟩ := case coherent oriented hp hs _
    exact ih coherent' oriented'
  | second hp hs _ _ _ _ ih =>
    obtain ⟨coherent', oriented'⟩ := case coherent oriented hp hs _
    exact ih coherent' oriented'

theorem every_of_hands {P : Atom → Prop} (hP : Stable P) (hb : b.Every P) (h : Hands t limit b n c) :
    c.Every P := by
  induction h with
  | settled hp => exact Front.every_of_settled hP hb hp
  | first hp hs _ _ ih => exact ih (Branch.every_split hs (Front.every_of_settled hP hb hp)).1
  | second hp hs _ _ _ _ ih => exact ih (Branch.every_split hs (Front.every_of_settled hP hb hp)).2

/-- Propagation brings no set relation. -/
theorem stable_ordinary : Stable (·.isSetRelation = false) where
  orient := by
    intro a ha
    cases a with
    | eq l r =>
      rw [Atom.orient]
      split <;> rfl
    | _ => exact ha
  eliminate := by
    intro a x r _ _ b hb
    refine Formula.every_ordinary_unfold ?_
    cases b <;> exact hb

/-- **Every branch that the search comes to split is settled**, for every sequent, table and budget: no atom
is true and false, the atoms are oriented, none is an equation of a term with itself, no true equation offers
a variable, and no pending formula is a literal, a constant or a conjunction. Equality of sets is one of the
set relations, which the search does not use as equations; it finds none in a sequent that has none. And a
search that does not close reports the end of one of these branches. -/
theorem split_settled (t : DecidabilityTable) (limit : Option Int) (s : Sequent) :
    (∀ c, Hands t limit (.ofSequent s) 0 c → c.IsSettled ∧
      (s.Every (·.isSetRelation = false) → ∀ a ∈ c.trues ++ c.falses, a.isSetRelation = false)) ∧
    ((∀ tree, (refute t limit s).result = .ok tree → tree.isStuck = true) →
      ∃ c, Hands t limit (.ofSequent s) 0 c ∧ Reports t c (refute t limit s).result) := by
  refine ⟨fun c h => ⟨isSettled_of_hands ?coherent ?oriented h, fun ordinary a ha => ?ordinary⟩, exists_hands⟩
  case coherent => constructor <;> intro _ h <;> exact (List.not_mem_nil h).elim
  case oriented => exact fun _ h => (List.not_mem_nil h).elim
  case ordinary =>
    have every := every_of_hands stable_ordinary (Branch.every_ofSequent stable_ordinary.orient ordinary) h
    rcases List.mem_append.1 ha with ha | ha
    · exact every.trues a ha
    · exact every.falses a ha

/-- The first case of the disjunction replaces `y`, after the goal has been denied. -/
def disjoined : Sequent where
  hypotheses :=
    [⟨"H", .or (.atom (.eq (.var "y") (.var "x"))) (.not (.atom (.mem (.var "z") (.var "s")))), false⟩]
  goal := .atom (.mem (.var "y") (.var "s"))

/-- The branch that is left in the first case. -/
def firstCase : Branch where
  pending := []
  candidates := []
  falses := [.mem (.var "x") (.var "s")]

theorem split_settled_firstCase :
    Hands .standard (some 1) (.ofSequent disjoined) 0 firstCase ∧ firstCase.IsSettled ∧
      ∀ a ∈ firstCase.trues ++ firstCase.falses, a.isSetRelation = false := by
  have handed : Hands .standard (some 1) (.ofSequent disjoined) 0 firstCase :=
    .first (by cbv) (by cbv) (by cbv) (.settled (by cbv))
  have ordinary : disjoined.Every (·.isSetRelation = false) := by
    simp [disjoined, Sequent.Every, Sequent.formulas, Sequent.facts, Formula.Every, Atom.isSetRelation]
  have settled := (split_settled .standard (some 1) disjoined).1 firstCase handed
  exact ⟨handed, settled.1, settled.2 ordinary⟩

end SetSequent.Search
