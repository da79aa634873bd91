import SetSequent.Proofs.Certified

/-!
# What is noted on the way

Two kinds of diagnostics end an attempt: the branch is stuck, or the budget is used up. The others say why
a formula was left out or a rule was not used, and the procedure goes on. The stages and the search note
only diagnostics of the second sort; the decision itself adds the last one.

* `DiagnosticKind.isFinal` — the diagnostics that end an attempt.
* `Noted.Interim` — a computation that notes none of them.
* `Sequent.interim_prepare` — the stages before the search.
* `Search.interim_propagate`, `Branch.interim_split`, `Search.interim_search` — the search.
-/

namespace SetSequent

/-- Whether a diagnostic of this kind ends the attempt. -/
def DiagnosticKind.isFinal : DiagnosticKind → Bool
  | .outOfFragment | .obligationUnmet => false
  | .stuck | .budgetExhausted => true

/-- None of the notes is a diagnostic that ends the attempt. -/
def Interim (notes : List Note) : Prop :=
  ∀ d : Diagnostic, .diagnostic d ∈ notes → d.kind.isFinal = false

@[simp] theorem interim_nil : Interim [] := fun _ h => (List.not_mem_nil h).elim

@[simp] theorem interim_append {ns ms : List Note} : Interim (ns ++ ms) ↔ Interim ns ∧ Interim ms := by
  simp only [Interim, List.mem_append, or_imp, forall_and]

namespace Noted

variable {α β : Type}

/-- The computation notes no diagnostic that ends the attempt. -/
def Interim (x : Noted α) : Prop := SetSequent.Interim x.notes

@[simp] theorem interim_pure (a : α) : Interim (pure a : Noted α) := interim_nil

@[simp] theorem interim_bind {x : Noted α} {f : α → Noted β} :
    (x >>= f).Interim ↔ x.Interim ∧ (f x.value).Interim := interim_append

@[simp] theorem interim_map {x : Noted α} {f : α → β} : (f <$> x).Interim ↔ x.Interim := by
  rw [Interim, Interim, notes_map]

end Noted

@[simp] theorem interim_noteStep (stage description : String) :
    (noteStep stage description).Interim := by
  intro d hd
  cases List.mem_singleton.1 hd

@[simp] theorem interim_noteDiagnostic {kind : DiagnosticKind} {detail : String} :
    (noteDiagnostic kind detail).Interim ↔ kind.isFinal = false := by
  constructor
  · intro h
    exact h ⟨kind, detail⟩ (List.mem_singleton_self _)
  · intro h d hd
    cases List.mem_singleton.1 hd
    exact h

/-! ## Negations -/

section Negation

variable {t : DecidabilityTable}

theorem NegationRule.interim_fire? (whole : Formula) (rule : Option NegationRule) :
    (fire? t whole rule).Interim := by
  have meets (name : String) (guards : List Formula) : (meets t name whole guards).Interim := by
    induction guards with
    | nil => exact Noted.interim_pure _
    | cons g guards ih =>
      rw [NegationRule.meets]
      split
      · exact ih
      · simp [DiagnosticKind.isFinal]
  cases rule with
  | none => exact Noted.interim_pure _
  | some r => simp [fire?, meets]

namespace Formula

theorem interim_pushStep (f : Formula) : (f.pushStep t).Interim :=
  NegationRule.interim_fire? _ _

theorem interim_pullStep (f : Formula) : (f.pullStep t).Interim :=
  NegationRule.interim_fire? _ _

theorem interim_push (f : Formula) : (push t f).Interim := by
  induction f using push.induct t with
  | case1 f _ g hg ih =>
    change (pushStep t (.not f)).value = _ at hg
    rw [push]
    split <;> simp_all [interim_pushStep]
  | case2 f _ hn ih =>
    change (pushStep t (.not f)).value = _ at hn
    rw [push]
    split <;> simp_all [interim_pushStep]
  | case3 c l r ihl ihr =>
    rw [push]
    simp [ihl, ihr]
  | case4 f hn hc =>
    rw [push] <;> simp_all

theorem interim_pullRoot (f : Formula) : (pullRoot t f).Interim := by
  induction f using pullRoot.induct t with
  | case1 f _ g hg ih =>
    change (pullStep t f).value = _ at hg
    rw [pullRoot]
    split <;> simp_all [interim_pullStep]
  | case2 f _ hn =>
    change (pullStep t f).value = _ at hn
    rw [pullRoot]
    split <;> simp_all [interim_pullStep]

theorem interim_pull (f : Formula) : (pull t f).Interim := by
  induction f with
  | top | bot | atom | all => exact Noted.interim_pure _
  | not f ih => simp [pull, ih, interim_pullRoot]
  | connect c l r ihl ihr => simp [pull, ihl, ihr, interim_pullRoot]

theorem interim_normalize (usePull : Bool) (f : Formula) : (normalize t usePull f).Interim := by
  cases usePull <;> simp [normalize, interim_push, interim_pull]

end Formula

end Negation

/-! ## The stages -/

namespace Sequent

variable {t : DecidabilityTable}

theorem interim_introduce (hs : List Hypothesis) (goal : Formula) : (introduce hs goal).Interim := by
  induction hs, goal using introduce.induct with
  | case1 hs premise goal =>
    rename_i ih
    rw [introduce]
    exact Noted.interim_bind.2 ⟨interim_noteStep _ _, ih⟩
  | case2 hs premise =>
    rw [introduce]
    simp
  | case3 hs goal hi hn =>
    rw [introduce] <;> simp_all

theorem interim_keepRelevant (hs : List Hypothesis) : (keepRelevant t hs).Interim := by
  induction hs with
  | nil => exact Noted.interim_pure _
  | cons h hs ih =>
    rw [keepRelevant]
    split <;> simp [ih, DiagnosticKind.isFinal]

theorem interim_classify (s : Sequent) : (s.classify t).Interim := by
  have goal (g : Formula) : (relevantGoal t g).Interim := by
    rw [relevantGoal]
    split <;> simp [DiagnosticKind.isFinal]
  simp [classify, introduceGoal, interim_introduce, interim_keepRelevant, goal]

theorem interim_substitute (s : Sequent) : s.substitute.Interim := by
  induction s using substitute.induct with
  | case1 s hn =>
    rw [substitute]
    split <;> simp_all
  | case2 s h others hr ih =>
    rw [substitute]
    split <;> simp_all
  | case3 s h x r others hr ih =>
    rw [substitute]
    split <;> simp_all

theorem interim_mapFormulas {stage : String} {g : Formula → Noted Formula}
    (hg : ∀ f, (g f).Interim) (s : Sequent) : (s.mapFormulas stage g).Interim := by
  have on (hs : List Hypothesis) : (mapFormulas.onHypotheses stage g hs).Interim := by
    induction hs with
    | nil => exact Noted.interim_pure _
    | cons h hs ih =>
      simp only [mapFormulas.onHypotheses, Noted.interim_bind]
      refine ⟨hg _, ?_⟩
      split <;> simp [ih]
  simp only [mapFormulas, Noted.interim_bind]
  refine ⟨on _, hg _, ?_⟩
  split <;> simp

theorem interim_unfold (s : Sequent) : s.unfold.Interim :=
  interim_mapFormulas (fun _ => Noted.interim_pure _) s

theorem interim_openGoal (stem : String) (s : Sequent) : (s.openGoal stem).Interim := by
  unfold openGoal
  dsimp only
  split <;> simp

theorem interim_newInstances (known : List Formula) (pairs : List (Hypothesis × Term)) :
    (newInstances known pairs).Interim := by
  induction pairs generalizing known with
  | nil => exact Noted.interim_pure _
  | cons p rest ih =>
    obtain ⟨u, e⟩ := p
    rw [newInstances]
    split
    · exact ih known
    · split
      · exact ih known
      · simp [ih]

theorem interim_instanceRounds (us : List Hypothesis) (rounds : Nat) (done : List Term)
    (s : Sequent) : (instanceRounds us rounds done s).Interim := by
  induction rounds generalizing done s with
  | zero => exact Noted.interim_pure _
  | succ rounds ih =>
    rw [instanceRounds]
    split
    · exact Noted.interim_pure _
    · simp [interim_newInstances, interim_unfold, ih]

theorem interim_instantiate (stem : String) (maxRounds : Int) (s : Sequent) :
    (s.instantiate stem maxRounds).Interim := by
  have clear (us : List Hypothesis) :
      (us.forM fun u => noteStep "instantiate" ("clear " ++ u.name)).Interim := by
    induction us with
    | nil => exact Noted.interim_pure _
    | cons u us ih => exact Noted.interim_bind.2 ⟨interim_noteStep _ _, ih⟩
  simp only [instantiate, Noted.interim_bind]
  exact ⟨interim_openGoal _ _, interim_unfold _, interim_instanceRounds _ _ _ _, clear _,
    Noted.interim_pure _⟩

theorem interim_inject (s : Sequent) : (s.inject t).Interim := by
  have all (facts : List Formula) (atoms : List Atom) (hs : List Hypothesis) :
      (injectAll t facts atoms hs).Interim := by
    induction atoms generalizing hs with
    | nil => exact Noted.interim_pure _
    | cons a rest ih =>
      rw [injectAll]
      split
      · exact ih hs
      · split
        · simp [ih]
        · simp [ih, DiagnosticKind.isFinal]
  simp [inject, all]

/-- **The stages before the search note nothing that ends the attempt.** -/
theorem interim_prepare (o : Options) (s : Sequent) : (s.prepare o).Interim := by
  have normalize (s : Sequent) : (s.normalize o.table o.usePull).Interim :=
    interim_mapFormulas (Formula.interim_normalize o.usePull) s
  simp [prepare, interim_classify, interim_substitute, interim_instantiate, normalize, interim_inject]

end Sequent

/-! ## The search -/

namespace Search

variable {t : DecidabilityTable}

namespace Front

theorem interim_takeCompound (s : Front) (f : Formula) : (s.takeCompound t f).Interim := by
  unfold takeCompound
  split
  · exact Noted.interim_pure _
  · refine Noted.interim_bind.2 ⟨Formula.interim_pushStep _, ?_⟩
    split <;> exact Noted.interim_pure _

theorem interim_step (s : Front) : (s.step t).Interim := by
  have take (s : Front) (f : Formula) : (s.take t f).Interim := by
    unfold Front.take
    split
    · exact Noted.interim_pure _
    · split
      · exact Noted.interim_pure _
      · exact Noted.interim_pure _
      · split
        · exact Noted.interim_pure _
        · simp [interim_takeCompound]
  unfold step
  split
  · exact take _ _
  · split <;> exact Noted.interim_pure _

theorem interim_run (s : Front) : (s.run t).Interim := by
  induction s using run.induct t with
  | case1 s _ s' hs ih =>
    change (s.step t).value = _ at hs
    rw [run]
    split <;> simp_all [interim_step]
  | case2 s _ leaf hs =>
    change (s.step t).value = _ at hs
    rw [run]
    split <;> simp_all [interim_step]
  | case3 s _ hs =>
    change (s.step t).value = _ at hs
    rw [run]
    split <;> simp_all [interim_step]

end Front

theorem interim_propagate (b : Branch) : (propagate t b).Interim := Front.interim_run _

namespace Branch

theorem interim_mayOpen (f : Formula) : (mayOpen t f).Interim := by
  have all (gs : List Formula) : (mayOpen.allDecidable t f gs).Interim := by
    induction gs with
    | nil => exact Noted.interim_pure _
    | cons g gs ih =>
      rw [mayOpen.allDecidable]
      split
      · exact ih
      · simp [DiagnosticKind.isFinal]
  unfold mayOpen
  split
  · exact all _
  · exact all _
  · exact Noted.interim_pure _

theorem interim_findCases (fs : List Formula) : (findCases t fs).Interim := by
  induction fs with
  | nil => exact Noted.interim_pure _
  | cons f fs ih =>
    rw [findCases]
    split
    · simp [ih]
    · refine Noted.interim_bind.2 ⟨interim_mayOpen f, ?_⟩
      split <;> simp [ih]

theorem interim_split (b : Branch) : (b.split t).Interim := by
  unfold split
  split
  · exact Noted.interim_pure _
  · simp [interim_findCases]

end Branch

theorem Attempt.interim_andThen {α β : Type} {a : Attempt α} {next : α → Nat → Attempt β}
    (ha : Interim a.notes) (hn : ∀ x n, Interim (next x n).notes) :
    Interim (a.andThen next).notes := by
  unfold andThen
  split
  · exact ha
  · exact interim_append.2 ⟨ha, hn _ _⟩

/-- **The search notes nothing that ends the attempt**, under every budget. -/
theorem interim_search (limit : Option Int) (b : Branch) (n : Nat) :
    Interim (search t limit b n).notes := by
  induction b using (wellFounded_case t).induction generalizing n with
  | _ b ih =>
    have hb : Interim (propagate t b).notes := interim_propagate b
    cases hp : (propagate t b).value with
    | closed leaf substitutions =>
      rw [search_of_closed hp]
      exact hb
    | settled settled substitutions =>
      have hc : Interim ((propagate t b).notes ++ (settled.split t).notes) :=
        interim_append.2 ⟨hb, settled.interim_split⟩
      cases hs : (settled.split t).value with
      | none =>
        rw [search_of_stuck hp hs]
        exact hc
      | some split =>
        have first := ih _ ⟨settled, substitutions, split, hp, hs, .inl rfl⟩
        have second := ih _ ⟨settled, substitutions, split, hp, hs, .inr rfl⟩
        have cases : Interim (splitAttempt t limit split substitutions (n + 1)).notes := by
          refine Attempt.interim_andThen (first (n + 1)) fun tree₁ n₁ => ?_
          split
          · exact interim_nil
          · refine Attempt.interim_andThen (second n₁) fun tree₂ n₂ => ?_
            split <;> exact interim_nil
        rw [search_of_split hp hs]
        dsimp only
        split
        · exact hc
        · exact interim_append.2 ⟨hc, cases⟩

end Search

/-! ## The journal -/

namespace Journal

variable {d : Diagnostic}

theorem mem_diagnostics_add {j : Journal} {n : Note} :
    d ∈ (j.add n).diagnostics ↔ d ∈ j.diagnostics ∨ .diagnostic d = n := by
  cases n with
  | step s => simp [add]
  | diagnostic d' =>
    simp only [add, Note.diagnostic.injEq]
    split
    · rename_i hc
      have known : d' ∈ j.diagnostics := List.contains_iff_mem.1 hc
      constructor
      · exact .inl
      · rintro (h | rfl)
        · exact h
        · exact known
    · simp

/-- A journal has the diagnostics that were noted. -/
theorem mem_diagnostics_ofNotes {notes : List Note} :
    d ∈ (ofNotes notes).diagnostics ↔ .diagnostic d ∈ notes := by
  have all (j : Journal) :
      d ∈ (j.addAll notes).diagnostics ↔ d ∈ j.diagnostics ∨ .diagnostic d ∈ notes := by
    induction notes generalizing j with
    | nil => simp [addAll]
    | cons n notes ih =>
      have step : j.addAll (n :: notes) = (j.add n).addAll notes := rfl
      rw [step, ih, mem_diagnostics_add, List.mem_cons, or_assoc]
  rw [ofNotes, all]
  simp

end Journal

end SetSequent
