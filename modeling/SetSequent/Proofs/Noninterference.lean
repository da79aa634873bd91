import SetSequent.Proofs.Certified
import SetSequent.Proofs.Instances

/-!
# Names and dropped facts have no influence

A hypothesis has a name, and a fact outside the fragment is dropped. Neither may have an influence on what
is decided, although names are made up from other names, and facts that are dropped have variables too. Two
sequents that say the same are followed through the stages; they say the same to the end, where the search
does not see names at all.

* `contents` — what a list of hypotheses says, without the names.
* `Sequent.Alike` — two sequents that say the same.
* `relevantParts` — what the hypotheses of a sequent say inside the fragment.
* `alike_classify` — the same parts and the same goal give sequents that are alike.
* `Alike.substitute`, `Alike.instantiate`, `Alike.mapFormulas`, `Alike.inject` — the stages keep this.
* `decide_noninterference` — what is decided depends on the goal and the relevant parts only.
-/

namespace SetSequent

/-! ## What hypotheses say -/

/-- What a hypothesis says: its formula, and whether that only offers a split. -/
def Hypothesis.content (h : Hypothesis) : Formula × Bool := (h.formula, h.injected)

/-- What hypotheses say, in order. -/
def contents (hs : List Hypothesis) : List (Formula × Bool) := hs.map Hypothesis.content

section Contents

variable {hs hs' : List Hypothesis}

@[simp] theorem contents_cons (h : Hypothesis) (hs : List Hypothesis) :
    contents (h :: hs) = h.content :: contents hs := rfl

@[simp] theorem contents_append (hs hs' : List Hypothesis) :
    contents (hs ++ hs') = contents hs ++ contents hs' := List.map_append

theorem contents_filter (p : Formula → Bool) (hs : List Hypothesis) :
    contents (hs.filter (p ·.formula)) = (contents hs).filter (p ·.1) := by
  rw [contents, contents, List.filter_map]
  rfl

theorem contents_map (g : Formula → Formula) (hs : List Hypothesis) :
    contents (hs.map fun h => { h with formula := g h.formula }) =
      (contents hs).map fun c => (g c.1, c.2) := by
  simp [contents, Hypothesis.content]

theorem map_formula_eq (hs : List Hypothesis) : hs.map (·.formula) = (contents hs).map (·.1) := by
  simp [contents, Hypothesis.content]

end Contents

namespace Sequent

/-- Two sequents that say the same: they may differ in the names of hypotheses. -/
structure Alike (s s' : Sequent) : Prop where
  hypotheses : contents s.hypotheses = contents s'.hypotheses
  goal : s.goal = s'.goal

namespace Alike

variable {s s' : Sequent}

theorem facts (h : Alike s s') : s.facts = s'.facts := by
  rw [Sequent.facts, Sequent.facts, map_formula_eq, map_formula_eq, h.hypotheses]

theorem formulas (h : Alike s s') : s.formulas = s'.formulas := by
  rw [Sequent.formulas, Sequent.formulas, h.facts, h.goal]

theorem append (h : Alike s s') {hs hs' : List Hypothesis} (hc : contents hs = contents hs') :
    Alike { s with hypotheses := s.hypotheses ++ hs } { s' with hypotheses := s'.hypotheses ++ hs' } :=
  ⟨by simp only [contents_append, h.hypotheses, hc], h.goal⟩

end Alike

end Sequent

/-! ## The parts inside the fragment -/

/-- What hypotheses say once conjunctions are split and everything outside the fragment is dropped. -/
def relevantParts (t : DecidabilityTable) (hs : List Hypothesis) : List (Formula × Bool) :=
  contents ((hs.flatMap (·.split)).filter (·.formula.isRelevant t true))

theorem Formula.conjuncts_ne_nil (f : Formula) : f.conjuncts ≠ [] := by
  induction f using conjuncts.induct with
  | case1 l r ihl ihr => simp [conjuncts, ihl]
  | case2 f hf =>
    rw [conjuncts]
    · exact List.cons_ne_nil _ _
    · exact hf

theorem Formula.eq_of_conjuncts {f g : Formula} (h : f.conjuncts = [g]) : f = g := by
  induction f using conjuncts.induct with
  | case1 l r =>
    have hl := List.length_pos_iff.2 l.conjuncts_ne_nil
    have hr := List.length_pos_iff.2 r.conjuncts_ne_nil
    have := congrArg List.length h
    simp only [conjuncts, List.length_append, List.length_cons, List.length_nil] at this
    omega
  | case2 f hf =>
    rw [conjuncts] at h
    · exact List.head_eq_of_cons_eq h
    · exact hf

theorem contents_split (h : Hypothesis) :
    contents h.split = h.formula.conjuncts.map fun f => (f, h.injected) := by
  unfold Hypothesis.split
  split
  · rename_i g hg
    rw [hg, ← Formula.eq_of_conjuncts hg]
    rfl
  · apply List.ext_getElem
    · simp [contents]
    · simp [contents, Hypothesis.content]

section Parts

variable {t : DecidabilityTable} {hs hs' : List Hypothesis}

theorem relevantParts_append :
    relevantParts t (hs ++ hs') = relevantParts t hs ++ relevantParts t hs' := by
  simp [relevantParts]

/-- The parts depend on what the hypotheses say. -/
theorem relevantParts_eq (t : DecidabilityTable) (hs : List Hypothesis) :
    relevantParts t hs = (contents hs).flatMap fun c =>
      (c.1.conjuncts.map fun f => (f, c.2)).filter (·.1.isRelevant t true) := by
  induction hs with
  | nil => rfl
  | cons h hs ih =>
    have first : relevantParts t [h] =
        (h.formula.conjuncts.map fun f => (f, h.injected)).filter (·.1.isRelevant t true) := by
      rw [relevantParts, contents_filter, List.flatMap_singleton, contents_split]
    rw [← List.singleton_append, relevantParts_append, first, ih]
    rfl

end Parts

/-- The premises of a goal. -/
def Formula.premises : Formula → List Formula
  | .implies premise goal => premise :: goal.premises
  | .not premise => [premise]
  | _ => []

/-- What is left of a goal without its premises. -/
def Formula.conclusion : Formula → Formula
  | .implies _ goal => goal.conclusion
  | .not _ => .bot
  | goal => goal

namespace Sequent

variable {s s' : Sequent} {t : DecidabilityTable}

/-- The premises that are introduced depend on the goal only. -/
theorem exists_introduce (hs : List Hypothesis) (goal : Formula) :
    ∃ ps, (introduce hs goal).value = ⟨hs ++ ps, goal.conclusion⟩ ∧
      contents ps = goal.premises.map fun f => (f, false) := by
  induction hs, goal using introduce.induct with
  | case1 hs premise goal =>
    rename_i ih
    obtain ⟨ps, hv, hc⟩ := ih
    refine ⟨introduce.assume hs premise :: ps, ?_, ?_⟩
    · rw [introduce, Noted.value_bind, hv, List.append_assoc]
      rfl
    · rw [contents_cons, hc]
      rfl
  | case2 hs premise => exact ⟨[introduce.assume hs premise], rfl, rfl⟩
  | case3 hs goal hi hn =>
    refine ⟨[], ?_, ?_⟩
    · rw [introduce, Formula.conclusion, List.append_nil] <;> first | rfl | assumption
    · rw [Formula.premises] <;> first | rfl | assumption

/-- **The same goal and the same relevant parts give sequents that are alike.** -/
theorem alike_classify (hg : s.goal = s'.goal)
    (hp : relevantParts t s.hypotheses = relevantParts t s'.hypotheses) :
    Alike (s.classify t).value (s'.classify t).value := by
  obtain ⟨ps, hv, hc⟩ := exists_introduce s.hypotheses s.goal
  obtain ⟨ps', hv', hc'⟩ := exists_introduce s'.hypotheses s'.goal
  -- What is introduced comes after the hypotheses, so dropped parts of these do not show.
  have introduced : relevantParts t ps = relevantParts t ps' := by
    rw [relevantParts_eq, relevantParts_eq, hc, hc', hg]
  have parts : relevantParts t (s.hypotheses ++ ps) = relevantParts t (s'.hypotheses ++ ps') := by
    rw [relevantParts_append, relevantParts_append, hp, introduced]
  rw [value_classify, value_classify, opened, opened, introduceGoal, introduceGoal, hv, hv']
  refine ⟨parts, ?_⟩
  show (if s.goal.conclusion.isRelevant t true then s.goal.conclusion else .bot) =
    if s'.goal.conclusion.isRelevant t true then s'.goal.conclusion else .bot
  rw [hg]

/-! ## Elimination of equations -/

theorem findRemoval_congr {hs hs' : List Hypothesis} (h : contents hs = contents hs') :
    (findRemoval hs).map (fun r => (r.2.1, contents r.2.2)) =
      (findRemoval hs').map fun r => (r.2.1, contents r.2.2) := by
  induction hs generalizing hs' with
  | nil =>
    cases hs' with
    | nil => rfl
    | cons => cases h
  | cons g hs ih =>
    cases hs' with
    | nil => cases h
    | cons g' hs' =>
      obtain ⟨hg, hh⟩ : g.content = g'.content ∧ contents hs = contents hs' := List.cons.inj h
      have hf : g.formula = g'.formula := congrArg (·.1) hg
      rw [findRemoval, findRemoval, hf]
      cases g'.formula.removal? with
      | some r => simp only [Option.map_some, hh]
      | none =>
        have later := congrArg (Option.map fun r => (r.1, g'.content :: r.2)) (ih hh)
        simpa [Function.comp_def, hg] using later

theorem Alike.eliminate (h : Alike s s') (x : String) (r : Term) :
    Alike (s.eliminate x r) (s'.eliminate x r) := by
  refine ⟨?_, ?_⟩
  · simp only [Sequent.eliminate, contents_map, h.hypotheses]
  · simp only [Sequent.eliminate, h.goal]

theorem Alike.substitute (h : Alike s s') : Alike s.substitute.value s'.substitute.value := by
  induction s using substitute.induct generalizing s' with
  | case1 s hn =>
    have hn' : findRemoval s'.hypotheses = none := by
      have same := findRemoval_congr h.hypotheses
      rw [hn] at same
      exact Option.map_eq_none_iff.1 same.symm
    rw [value_substitute_of_none hn, value_substitute_of_none hn']
    exact h
  | case2 s g others hr ih =>
    have same := findRemoval_congr h.hypotheses
    rw [hr] at same
    obtain ⟨⟨g', r, others'⟩, hr', he⟩ := Option.map_eq_some_iff.1 same.symm
    simp only [Prod.mk.injEq] at he
    obtain ⟨rfl, hc⟩ := he
    rw [value_substitute_of_trivial hr, value_substitute_of_trivial hr']
    exact ih ⟨hc.symm, h.goal⟩
  | case3 s g x r others hr ih =>
    have same := findRemoval_congr h.hypotheses
    rw [hr] at same
    obtain ⟨⟨g', r', others'⟩, hr', he⟩ := Option.map_eq_some_iff.1 same.symm
    simp only [Prod.mk.injEq] at he
    obtain ⟨rfl, hc⟩ := he
    rw [value_substitute_of_eliminate hr, value_substitute_of_eliminate hr']
    have left : Alike { s with hypotheses := others } { s' with hypotheses := others' } :=
      ⟨hc.symm, h.goal⟩
    exact ih (left.eliminate x r)

/-! ## Instances -/

theorem Alike.mapFormulas (h : Alike s s') (stage : String) (g : Formula → Noted Formula) :
    Alike (s.mapFormulas stage g).value (s'.mapFormulas stage g).value := by
  rw [value_mapFormulas, value_mapFormulas]
  refine ⟨?_, ?_⟩
  · simp only [contents_map fun f => (g f).value, h.hypotheses]
  · simp only [h.goal]

theorem Alike.openGoal (h : Alike s s') (stem : String) :
    Alike (s.openGoal stem).value (s'.openGoal stem).value := by
  have fresh : s.freshVariable stem = s'.freshVariable stem := by
    rw [freshVariable, freshVariable, h.formulas]
  unfold Sequent.openGoal
  rw [fresh, h.goal]
  dsimp only
  split
  · exact h
  · exact ⟨h.hypotheses, rfl⟩

/-- Which instances are new depends on the formulas and the terms only. -/
theorem newInstances_congr {pairs pairs' : List (Hypothesis × Term)}
    (h : pairs.map (fun p => (p.1.formula, p.2)) = pairs'.map fun p => (p.1.formula, p.2))
    (known : List Formula) :
    contents (newInstances known pairs).value = contents (newInstances known pairs').value := by
  induction pairs generalizing pairs' known with
  | nil =>
    cases pairs' with
    | nil => rfl
    | cons => cases h
  | cons p rest ih =>
    cases pairs' with
    | nil => cases h
    | cons p' rest' =>
      obtain ⟨u, e⟩ := p
      obtain ⟨u', e'⟩ := p'
      obtain ⟨hp, hr⟩ := List.cons.inj h
      obtain ⟨hf, he⟩ : u.formula = u'.formula ∧ e = e' := Prod.mk.inj hp
      subst he
      rw [newInstances, newInstances, hf]
      cases u'.formula.instanceAt? e with
      | none => exact ih hr known
      | some f =>
        dsimp only
        split
        · exact ih hr known
        · simp only [Noted.value_bind, Noted.value_pure, contents_cons, ih hr]
          rfl

section Rounds

variable {us us' : List Hypothesis}

theorem Alike.roundTerms (h : Alike s s') (hu : contents us = contents us') (done : List Term) :
    roundTerms us done s = Sequent.roundTerms us' done s' := by
  rw [Sequent.roundTerms, Sequent.roundTerms, relevantElements, relevantElements,
    (h.append hu).formulas]

theorem Alike.roundInstances (h : Alike s s') (hu : contents us = contents us') (done : List Term) :
    contents (roundInstances us done s) = contents (Sequent.roundInstances us' done s') := by
  have pairs (us : List Hypothesis) (terms : List Term) :
      ((us.flatMap fun u => terms.map (u, ·)).map fun p => (p.1.formula, p.2)) =
        (contents us).flatMap fun c => terms.map (c.1, ·) := by
    induction us with
    | nil => rfl
    | cons u us ih => simp [ih, Hypothesis.content]
  rw [Sequent.roundInstances, Sequent.roundInstances, h.facts, h.roundTerms hu]
  apply newInstances_congr
  rw [pairs, pairs, hu]

theorem Alike.instanceRounds (h : Alike s s') (hu : contents us = contents us') (rounds : Nat)
    (done : List Term) :
    Alike (instanceRounds us rounds done s).value (Sequent.instanceRounds us' rounds done s').value := by
  induction rounds generalizing done s s' with
  | zero => exact h
  | succ rounds ih =>
    rw [value_instanceRounds_succ, value_instanceRounds_succ, h.roundTerms hu]
    split
    · exact h
    · exact ih ((h.append (h.roundInstances hu done)).mapFormulas _ _) _

end Rounds

theorem Alike.universals (h : Alike s s') : contents s.universals = contents s'.universals := by
  rw [Sequent.universals, Sequent.universals, contents_filter Formula.isSetRelation,
    contents_filter Formula.isSetRelation, h.hypotheses]

theorem Alike.ground (h : Alike s s') : Alike s.ground s'.ground := by
  have others : Alike { s with hypotheses := s.hypotheses.filter (!·.formula.isSetRelation) }
      { s' with hypotheses := s'.hypotheses.filter (!·.formula.isSetRelation) } := by
    refine ⟨?_, h.goal⟩
    show contents (s.hypotheses.filter (!·.formula.isSetRelation)) =
      contents (s'.hypotheses.filter (!·.formula.isSetRelation))
    rw [contents_filter (!·.isSetRelation), contents_filter (!·.isSetRelation), h.hypotheses]
  exact others.mapFormulas _ _

theorem Alike.instantiate (h : Alike s s') (stem : String) (maxRounds : Int) :
    Alike (s.instantiate stem maxRounds).value (s'.instantiate stem maxRounds).value := by
  have ho := h.openGoal stem
  rw [value_instantiate, value_instantiate]
  exact ho.ground.instanceRounds ho.universals _ _

/-! ## Excluded middle -/

theorem Alike.inject (h : Alike s s') (t : DecidabilityTable) :
    Alike (s.inject t).value (s'.inject t).value := by
  have all (facts : List Formula) (atoms : List Atom) (hs hs' : List Hypothesis)
      (h : contents hs = contents hs') :
      contents (injectAll t facts atoms hs).value = contents (injectAll t facts atoms hs').value := by
    induction atoms generalizing hs hs' with
    | nil => exact h
    | cons a rest ih =>
      rw [injectAll, injectAll]
      split
      · exact ih _ _ h
      · split
        · apply ih
          rw [contents_append, contents_append, h]
          rfl
        · exact ih _ _ h
  have candidates : s.splitCandidates = s'.splitCandidates := by
    rw [splitCandidates, splitCandidates, h.facts, h.goal]
  refine ⟨?_, h.goal⟩
  show contents (injectAll t s.facts s.splitCandidates s.hypotheses).value =
    contents (injectAll t s'.facts s'.splitCandidates s'.hypotheses).value
  rw [h.facts, candidates]
  exact all _ _ _ _ h.hypotheses

/-! ## Decisions -/

/-- The search sees what hypotheses say, and not their names. -/
theorem Alike.ofSequent (h : Alike s s') : Search.Branch.ofSequent s = .ofSequent s' := by
  let candidate (c : Formula × Bool) : Option Formula := Search.candidate? ⟨"", c.1, c.2⟩
  have candidates (s : Sequent) :
      s.hypotheses.filterMap Search.candidate? = (contents s.hypotheses).filterMap candidate := by
    rw [contents, List.filterMap_map]
    rfl
  have pending (s : Sequent) :
      (s.hypotheses.filter (Search.candidate? · |>.isNone)).map (·.formula) =
        ((contents s.hypotheses).filter (candidate · |>.isNone)).map (·.1) := by
    rw [contents, List.filter_map, List.map_map]
    rfl
  rw [Search.Branch.ofSequent, Search.Branch.ofSequent, candidates, candidates, pending, pending,
    h.hypotheses, h.goal]

theorem alike_prepare {o : Options} (hg : s.goal = s'.goal)
    (hp : relevantParts o.table s.hypotheses = relevantParts o.table s'.hypotheses) :
    Alike (s.prepare o).value (s'.prepare o).value :=
  (((alike_classify hg hp).substitute.instantiate _ _).mapFormulas _ _).substitute.inject _

/-- What is decided depends on the result of the attempt and on nothing that is noted. -/
theorem decide_of_attempt {o : Options} (h : s.attempt o = s'.attempt o) :
    (s.decide o).verdict = (s'.decide o).verdict ∧ (s.decide o).splits = (s'.decide o).splits ∧
      (s.decide o).openBranch = (s'.decide o).openBranch ∧
      (s.decide o).certificate.map (·.tree) = (s'.decide o).certificate.map (·.tree) := by
  cases hr : (s'.attempt o).result with
  | error e => simp only [decide_of_error hr, decide_of_error (h ▸ hr), h, and_self]
  | ok tree =>
    cases hs : tree.isStuck with
    | true => simp only [decide_of_stuck hr hs, decide_of_stuck (h ▸ hr) hs, h, and_self]
    | false =>
      simp only [decide_of_closed hr hs, decide_of_closed (h ▸ hr) hs, h, Option.map_some, and_self]

/-- **Names and dropped facts have no influence.** If two sequents have the same goal, and their hypotheses
say the same once conjunctions are split and everything outside the fragment is dropped, then both are
decided alike: the verdict, the number of splits, the open branch and the tree of the certificate are
equal. -/
theorem decide_noninterference {o : Options} (goal : s.goal = s'.goal)
    (parts : relevantParts o.table s.hypotheses = relevantParts o.table s'.hypotheses) :
    (s.decide o).verdict = (s'.decide o).verdict ∧ (s.decide o).splits = (s'.decide o).splits ∧
      (s.decide o).openBranch = (s'.decide o).openBranch ∧
      (s.decide o).certificate.map (·.tree) = (s'.decide o).certificate.map (·.tree) := by
  apply decide_of_attempt
  rw [attempt, attempt, Search.refute, Search.refute, (alike_prepare goal parts).ofSequent]

/-- Names that the procedure makes up itself, a conjunction, and facts outside the fragment. -/
def crowded : Sequent where
  hypotheses :=
    [{ name := "I0", formula := .all "z0" (.atom (.mem (.var "z0") (.var "t"))) },
      { name := "D0"
        formula := .and (.atom (.subset (.var "s") (.var "t")))
          (.not (.atom (.subset (.var "t") (.var "s")))) }]
  goal := .implies (.atom (.mem (.var "x") (.var "s"))) (.atom (.mem (.var "x") (.var "t")))

/-- What is left of `crowded` inside the fragment, under another name. -/
def tidy : Sequent where
  hypotheses := [{ name := "H", formula := .atom (.subset (.var "s") (.var "t")) }]
  goal := crowded.goal

theorem decide_noninterference_crowded :
    relevantParts .standard crowded.hypotheses = relevantParts .standard tidy.hypotheses ∧
      (crowded.decide {}).verdict = (tidy.decide {}).verdict ∧
      (crowded.decide {}).splits = (tidy.decide {}).splits ∧
      (crowded.decide {}).openBranch = (tidy.decide {}).openBranch ∧
      (crowded.decide {}).certificate.map (·.tree) = (tidy.decide {}).certificate.map (·.tree) := by
  have parts : relevantParts .standard crowded.hypotheses = relevantParts .standard tidy.hypotheses := by
    decide
  exact ⟨parts, decide_noninterference (o := {}) rfl parts⟩

end Sequent

end SetSequent
