import SetSequent.Search.Refutation

/-!
# Runs of the search

The search is described once more, as relations between what it starts from and what it ends with, so
that its properties are proved by induction on a run and never by opening the search itself.

* `Front.Learns`, `Front.Takes`, `Front.Steps` — everything that a step of propagation can do.
* `Front.Next` — one step of propagation. `Branch.Case` — a branch that the search goes on with.
* `Explores` — the runs of the search that end with a tree, with the number of their splits.
* `explores_of_search` — what the search returns is the result of a run, under every budget.
* `search_of_explores` — without a budget the search returns the result of each run.
* `refute_terminates` — there are no infinite runs.
-/

namespace SetSequent.Search

/-! ## What a step does -/

namespace Front

/-- What a front makes of an atom that is asserted, or denied. -/
inductive Learns (s : Front) (a : Atom) : Bool → Progress → Prop where
  | reflexive (reflexive : a.isReflexive = true) : Learns s a true (.next s)
  | known (known : a ∈ s.trues) : Learns s a true (.next s)
  | refuted (denied : a ∈ s.falses) : Learns s a true (.closed (assertAtom.contradiction s a))
  | eliminated {x : String} {r : Term} (offers : elimination? a = some (x, r)) :
      Learns s a true (.next (s.eliminate x r))
  | asserted (irreflexive : a.isReflexive = false) (open_ : a ∉ s.falses)
      (kept : elimination? a = none) :
      Learns s a true (.next { s with trues := s.trues ++ [a], learned := true })
  | irreflexive (reflexive : a.isReflexive = true) :
      Learns s a false
        (.closed { rule := .reflexivity, detail := "not " ++ a.text, atom := some (.atom a) })
  | contradicted (asserted : a ∈ s.trues) :
      Learns s a false (.closed (assertAtom.contradiction s a))
  | knownFalse (known : a ∈ s.falses) : Learns s a false (.next s)
  | denied (irreflexive : a.isReflexive = false) (open_ : a ∉ s.trues) :
      Learns s a false (.next { s with falses := s.falses ++ [a], learned := true })

theorem learns_takeLiteral (s : Front) (a : Atom) (positive : Bool) :
    s.Learns a positive (s.takeLiteral (a, positive)) := by
  cases positive with
  | true =>
    simp only [takeLiteral, assertAtom]
    split
    · rename_i hr
      exact .reflexive hr
    · rename_i hr
      split
      · rename_i hf
        exact .refuted (List.contains_iff_mem.1 hf)
      · rename_i hf
        split
        · rename_i ht
          exact .known (List.contains_iff_mem.1 ht)
        · split
          · rename_i x r he
            exact .eliminated he
          · rename_i he
            exact .asserted (by simpa using hr) (fun h => hf (List.contains_iff_mem.2 h)) he
  | false =>
    simp only [takeLiteral, denyAtom]
    split
    · rename_i hr
      exact .irreflexive hr
    · rename_i hr
      split
      · rename_i ht
        exact .contradicted (List.contains_iff_mem.1 ht)
      · rename_i ht
        split
        · rename_i hf
          exact .knownFalse (List.contains_iff_mem.1 hf)
        · exact .denied (by simpa using hr) fun h => ht (List.contains_iff_mem.2 h)

/-- What a front makes of a formula. -/
inductive Takes (t : DecidabilityTable) (s : Front) (f : Formula) : Progress → Prop where
  | literal {a : Atom} {positive : Bool} {p : Progress} (literal : f.literal? = some (a, positive))
      (learns : s.Learns a positive p) : Takes t s f p
  | falsity (evaluates : f.simplify s.trues s.falses = .bot) : Takes t s f (.closed (s.falsity f))
  | holds (evaluates : f.simplify s.trues s.falses = .top) : Takes t s f (.next s)
  | evaluated {a : Atom} {positive : Bool} {p : Progress}
      (literal : (f.simplify s.trues s.falses).literal? = some (a, positive))
      (learns : s.Learns a positive p) : Takes t s f p
  | compound (literal : (f.simplify s.trues s.falses).literal? = none)
      (top : f.simplify s.trues s.falses ≠ .top) (bot : f.simplify s.trues s.falses ≠ .bot) :
      Takes t s f (.next (s.takeCompound t (f.simplify s.trues s.falses)).value)

theorem takes_take (t : DecidabilityTable) (s : Front) (f : Formula) :
    s.Takes t f (s.take t f).value := by
  unfold take
  split
  · rename_i l hl
    exact .literal hl (learns_takeLiteral ..)
  · split
    · rename_i hb
      exact .falsity hb
    · rename_i ht
      exact .holds ht
    · rename_i hb ht
      split
      · rename_i l hl
        exact .evaluated hl (learns_takeLiteral ..)
      · rename_i hl
        exact .compound hl ht hb

/-- What one step makes of a front. -/
inductive Steps (t : DecidabilityTable) (s : Front) : Progress → Prop where
  | take {f : Formula} {rest : List Formula} {p : Progress} (queue : s.queue = f :: rest)
      (takes : Takes t { s with queue := rest } f p) : Steps t s p
  | refill (queue : s.queue = []) :
      Steps t s (.next { s with queue := s.residual, residual := [], learned := false })
  | settle (queue : s.queue = []) : Steps t s .settled

theorem steps_step (t : DecidabilityTable) (s : Front) : s.Steps t (s.step t).value := by
  unfold step
  split
  · rename_i f rest hq
    exact .take hq (takes_take ..)
  · rename_i hq
    split
    · exact .refill hq
    · exact .settle hq

/-- The front before its first formula is taken. -/
theorem eq_cons_of_queue {s : Front} {f : Formula} {rest : List Formula} (h : s.queue = f :: rest) :
    s = ({ s with queue := rest } : Front).cons f := by
  rw [cons, ← h]

variable {t : DecidabilityTable}

/-- What holds of a front that settles, and is kept by steps backwards, relates the start of
propagation to the settled branch. -/
theorem settled_induction {R : Front → Branch → Prop}
    (settle : ∀ s : Front, (s.step t).value = .settled → R s s.branch)
    (next : ∀ s s' b, (s.step t).value = .next s' → R s' b → R s b) {s : Front} {b : Branch}
    {substitutions : List (String × Term)} (h : (s.run t).value = .settled b substitutions) :
    R s b := by
  induction s using run.induct t with
  | case1 s _ s' hs ih =>
    change (s.step t).value = _ at hs
    rw [value_run_of_next hs] at h
    exact next s s' b hs (ih h)
  | case2 s _ leaf hs =>
    change (s.step t).value = _ at hs
    rw [value_run_of_closed hs] at h
    cases h
  | case3 s _ hs =>
    change (s.step t).value = _ at hs
    rw [value_run_of_settled hs] at h
    cases h
    exact settle s hs

/-- The same for a front on which propagation closes. -/
theorem closed_induction {R : Front → Inference → Prop}
    (close : ∀ (s : Front) leaf, (s.step t).value = .closed leaf → R s leaf)
    (next : ∀ s s' leaf, (s.step t).value = .next s' → R s' leaf → R s leaf) {s : Front}
    {leaf : Inference} {substitutions : List (String × Term)}
    (h : (s.run t).value = .closed leaf substitutions) : R s leaf := by
  induction s using run.induct t with
  | case1 s _ s' hs ih =>
    change (s.step t).value = _ at hs
    rw [value_run_of_next hs] at h
    exact next s s' leaf hs (ih h)
  | case2 s _ leaf' hs =>
    change (s.step t).value = _ at hs
    rw [value_run_of_closed hs] at h
    cases h
    exact close s leaf hs
  | case3 s _ hs =>
    change (s.step t).value = _ at hs
    rw [value_run_of_settled hs] at h
    cases h

end Front

/-! ## Steps -/

/-- `s'` is what one step of propagation makes of `s`. -/
def Front.Next (t : DecidabilityTable) (s' s : Front) : Prop := (s.step t).value = .next s'

/-- `c` is one of the two cases that the search looks at after propagation of `b`. -/
inductive Branch.Case (t : DecidabilityTable) (c b : Branch) : Prop where
  | intro (settled : Branch) (substitutions : List (String × Term)) (split : Split)
      (propagated : (propagate t b).value = .settled settled substitutions)
      (chosen : (settled.split t).value = some split)
      (assumed : c = split.rest.assume split.first ∨ c = split.rest.assume split.second)

theorem wellFounded_triple :
    WellFounded (α := Nat × Nat × Nat) (Prod.Lex (· < ·) (Prod.Lex (· < ·) (· < ·))) :=
  (Prod.lex Nat.lt_wfRel (Prod.lex Nat.lt_wfRel Nat.lt_wfRel)).wf

theorem Front.Next.falls {t : DecidabilityTable} {s' s : Front} (h : Front.Next t s' s) :
    Prod.Lex (· < ·) (Prod.Lex (· < ·) (· < ·)) s'.rank s.rank :=
  (Front.falls_step h).rank

theorem Branch.Case.falls {t : DecidabilityTable} {c b : Branch} (h : Branch.Case t c b) :
    Prod.Lex (· < ·) (Prod.Lex (· < ·) (· < ·)) c.rank b.rank := by
  obtain ⟨settled, substitutions, split, hp, hs, rfl | rfl⟩ := h
  · exact Branch.rank_split_propagate hp hs (.inl rfl)
  · exact Branch.rank_split_propagate hp hs (.inr rfl)

/-- Propagation takes finitely many steps from every front. -/
theorem wellFounded_next (t : DecidabilityTable) : WellFounded (Front.Next t) :=
  Subrelation.wf Front.Next.falls (InvImage.wf Front.rank wellFounded_triple)

/-- The search goes finitely deep from every branch. -/
theorem wellFounded_case (t : DecidabilityTable) : WellFounded (Branch.Case t) :=
  Subrelation.wf Branch.Case.falls (InvImage.wf Branch.rank wellFounded_triple)

/-! ## Runs -/

/-- The runs that end with a tree: `Explores t b tree n` if the search of `b` makes `n` splits and
returns `tree`. A stuck case ends the run, and its leaf is the result. -/
inductive Explores (t : DecidabilityTable) : Branch → ProofTree → Nat → Prop where
  | closed {b : Branch} {leaf : Inference} {substitutions : List (String × Term)}
      (propagated : (propagate t b).value = .closed leaf substitutions) :
      Explores t b (underSubstitutions substitutions (.leaf leaf)) 0
  | stuck {b settled : Branch} {substitutions : List (String × Term)}
      (propagated : (propagate t b).value = .settled settled substitutions)
      (chosen : (settled.split t).value = none) :
      Explores t b (.leaf { rule := .stuck, detail := settled.describe }) 0
  | first {b settled : Branch} {substitutions : List (String × Term)} {split : Split}
      {tree : ProofTree} {n : Nat}
      (propagated : (propagate t b).value = .settled settled substitutions)
      (chosen : (settled.split t).value = some split)
      (run : Explores t (split.rest.assume split.first) tree n) (isStuck : tree.isStuck = true) :
      Explores t b tree (n + 1)
  | second {b settled : Branch} {substitutions : List (String × Term)} {split : Split}
      {tree₁ tree₂ : ProofTree} {n₁ n₂ : Nat}
      (propagated : (propagate t b).value = .settled settled substitutions)
      (chosen : (settled.split t).value = some split)
      (run₁ : Explores t (split.rest.assume split.first) tree₁ n₁) (goesOn : tree₁.isStuck = false)
      (run₂ : Explores t (split.rest.assume split.second) tree₂ n₂)
      (isStuck : tree₂.isStuck = true) :
      Explores t b tree₂ (n₁ + n₂ + 1)
  | both {b settled : Branch} {substitutions : List (String × Term)} {split : Split}
      {tree₁ tree₂ : ProofTree} {n₁ n₂ : Nat}
      (propagated : (propagate t b).value = .settled settled substitutions)
      (chosen : (settled.split t).value = some split)
      (run₁ : Explores t (split.rest.assume split.first) tree₁ n₁) (closed₁ : tree₁.isStuck = false)
      (run₂ : Explores t (split.rest.assume split.second) tree₂ n₂)
      (closed₂ : tree₂.isStuck = false) :
      Explores t b (underSubstitutions substitutions (.node split.inference [tree₁, tree₂]))
        (n₁ + n₂ + 1)

/-- There is a run from every branch. -/
theorem exists_explores (t : DecidabilityTable) (b : Branch) : ∃ tree n, Explores t b tree n := by
  -- The two cases of a split are the only branches that the search goes on to.
  induction b using (wellFounded_case t).induction with
  | _ b ih =>
    match hp : (propagate t b).value with
    | .closed leaf substitutions => exact ⟨_, _, .closed hp⟩
    | .settled settled substitutions =>
      match hs : (settled.split t).value with
      | none => exact ⟨_, _, .stuck hp hs⟩
      | some split =>
        obtain ⟨tree₁, n₁, h₁⟩ := ih _ ⟨settled, substitutions, split, hp, hs, .inl rfl⟩
        cases hs₁ : tree₁.isStuck with
        | true => exact ⟨_, _, .first hp hs h₁ hs₁⟩
        | false =>
          obtain ⟨tree₂, n₂, h₂⟩ := ih _ ⟨settled, substitutions, split, hp, hs, .inr rfl⟩
          cases hs₂ : tree₂.isStuck with
          | true => exact ⟨_, _, .second hp hs h₁ hs₁ h₂ hs₂⟩
          | false => exact ⟨_, _, .both hp hs h₁ hs₁ h₂ hs₂⟩

/-! ## The search follows the runs -/

variable {t : DecidabilityTable} {limit : Option Int} {b settled : Branch} {n : Nat}
  {substitutions : List (String × Term)} {split : Split}

theorem search_of_closed {leaf : Inference}
    (hp : (propagate t b).value = .closed leaf substitutions) :
    search t limit b n =
      ⟨.ok (underSubstitutions substitutions (.leaf leaf)), n, (propagate t b).notes⟩ := by
  rw [search]
  split <;> simp_all

theorem search_of_stuck (hp : (propagate t b).value = .settled settled substitutions)
    (hs : (settled.split t).value = none) :
    search t limit b n =
      ⟨.ok (.leaf { rule := .stuck, detail := settled.describe }), n,
        (propagate t b).notes ++ (settled.split t).notes⟩ := by
  rw [search]
  split
  · simp_all
  · rename_i hp'
    simp only [hp, Propagation.settled.injEq] at hp'
    obtain ⟨rfl, rfl⟩ := hp'
    cases exhausted? limit (n + 1) <;> dsimp only <;> split <;> simp_all

/-- The two cases of a split, one after the other. -/
def splitAttempt (t : DecidabilityTable) (limit : Option Int) (split : Split)
    (substitutions : List (String × Term)) (n : Nat) : Attempt ProofTree :=
  (search t limit (split.rest.assume split.first) n).andThen fun first n =>
    if first.isStuck then ⟨.ok first, n, []⟩
    else
      (search t limit (split.rest.assume split.second) n).andThen fun second n =>
        if second.isStuck then ⟨.ok second, n, []⟩
        else
          ⟨.ok (underSubstitutions substitutions (.node split.inference [first, second])), n, []⟩

theorem search_of_split (hp : (propagate t b).value = .settled settled substitutions)
    (hs : (settled.split t).value = some split) :
    search t limit b n =
      let notes := (propagate t b).notes ++ (settled.split t).notes
      match exhausted? limit (n + 1) with
      | some e => ⟨.error e, n + 1, notes⟩
      | none =>
        let attempt := splitAttempt t limit split substitutions (n + 1)
        { attempt with notes := notes ++ attempt.notes } := by
  rw [search]
  split
  · simp_all
  · rename_i hp'
    simp only [hp, Propagation.settled.injEq] at hp'
    obtain ⟨rfl, rfl⟩ := hp'
    cases exhausted? limit (n + 1) <;> dsimp only
    all_goals
      split
      · simp_all
      · rename_i hs'
        simp only [hs, Option.some.injEq] at hs'
        subst hs'
        rfl

theorem Attempt.andThen_of_ok {α β : Type} {a : Attempt α} {x : α} {k : Nat}
    (h : a.result = .ok x ∧ a.splits = k) (next : α → Nat → Attempt β) :
    (a.andThen next).result = (next x k).result ∧ (a.andThen next).splits = (next x k).splits := by
  simp [andThen, h.1, h.2]

theorem Attempt.ok_of_andThen {α β : Type} {a : Attempt α} {next : α → Nat → Attempt β} {y : β}
    (h : (a.andThen next).result = .ok y) : ∃ x, a.result = .ok x := by
  unfold andThen at h
  split at h
  · cases h
  · rename_i x hx
    exact ⟨x, hx⟩

/-- **What the search returns is the result of a run**, and the splits it made are those of the run. -/
theorem explores_of_search {tree : ProofTree} (h : (search t limit b n).result = .ok tree) :
    ∃ k, Explores t b tree k ∧ (search t limit b n).splits = n + k := by
  induction b using (wellFounded_case t).induction generalizing n tree with
  | _ b ih =>
    match hp : (propagate t b).value with
    | .closed leaf substitutions =>
      simp only [search_of_closed hp, Except.ok.injEq] at h ⊢
      subst h
      exact ⟨0, .closed hp, rfl⟩
    | .settled settled substitutions =>
      match hs : (settled.split t).value with
      | none =>
        simp only [search_of_stuck hp hs, Except.ok.injEq] at h ⊢
        subst h
        exact ⟨0, .stuck hp hs, rfl⟩
      | some split =>
        simp only [search_of_split hp hs] at h ⊢
        split at h
        · cases h
        · simp only [splitAttempt] at h ⊢
          obtain ⟨tree₁, h₁⟩ := Attempt.ok_of_andThen h
          obtain ⟨k₁, hk₁, hn₁⟩ := ih _ ⟨settled, substitutions, split, hp, hs, .inl rfl⟩ h₁
          rw [(Attempt.andThen_of_ok ⟨h₁, hn₁⟩ _).1] at h
          rw [(Attempt.andThen_of_ok ⟨h₁, hn₁⟩ _).2]
          -- The second case is looked at only if the first is not stuck, and counts on from it.
          cases hs₁ : tree₁.isStuck with
          | true =>
            simp only [hs₁, if_true, Except.ok.injEq] at h ⊢
            subst h
            exact ⟨k₁ + 1, .first hp hs hk₁ hs₁, by omega⟩
          | false =>
            simp only [hs₁, Bool.false_eq_true, if_false] at h ⊢
            obtain ⟨tree₂, h₂⟩ := Attempt.ok_of_andThen h
            obtain ⟨k₂, hk₂, hn₂⟩ := ih _ ⟨settled, substitutions, split, hp, hs, .inr rfl⟩ h₂
            rw [(Attempt.andThen_of_ok ⟨h₂, hn₂⟩ _).1] at h
            rw [(Attempt.andThen_of_ok ⟨h₂, hn₂⟩ _).2]
            cases hs₂ : tree₂.isStuck with
            | true =>
              simp only [hs₂, if_true, Except.ok.injEq] at h ⊢
              subst h
              exact ⟨k₁ + k₂ + 1, .second hp hs hk₁ hs₁ hk₂ hs₂, by omega⟩
            | false =>
              simp only [hs₂, Bool.false_eq_true, if_false, Except.ok.injEq] at h ⊢
              subst h
              exact ⟨k₁ + k₂ + 1, .both hp hs hk₁ hs₁ hk₂ hs₂, by omega⟩

/-- **Without a budget the search returns the result of each run.** -/
theorem search_of_explores {tree : ProofTree} {k : Nat} (h : Explores t b tree k) (n : Nat) :
    (search t none b n).result = .ok tree ∧ (search t none b n).splits = n + k := by
  induction h generalizing n with
  | closed hp => simp [search_of_closed hp]
  | stuck hp hs => simp [search_of_stuck hp hs]
  | first hp hs _ hstuck ih =>
    simp only [search_of_split hp hs, exhausted?, splitAttempt, Attempt.andThen_of_ok (ih (n + 1)),
      hstuck, if_true]
    exact ⟨trivial, by omega⟩
  | second hp hs _ hs₁ _ hs₂ ih₁ ih₂ =>
    simp only [search_of_split hp hs, exhausted?, splitAttempt, Attempt.andThen_of_ok (ih₁ (n + 1)),
      hs₁, Bool.false_eq_true, if_false, Attempt.andThen_of_ok (ih₂ _), hs₂, if_true]
    exact ⟨trivial, by omega⟩
  | both hp hs _ hs₁ _ hs₂ ih₁ ih₂ =>
    simp only [search_of_split hp hs, exhausted?, splitAttempt, Attempt.andThen_of_ok (ih₁ (n + 1)),
      hs₁, Bool.false_eq_true, if_false, Attempt.andThen_of_ok (ih₂ _), hs₂]
    exact ⟨trivial, by omega⟩

/-- **The search ends.** There is no infinite sequence of propagation steps and none of cases within
cases, so on every sequent the search without a budget has one finite run, and returns its tree. -/
theorem refute_terminates (t : DecidabilityTable) :
    WellFounded (Front.Next t) ∧ WellFounded (Branch.Case t) ∧
      ∀ s : Sequent, ∃ tree n, Explores t (.ofSequent s) tree n ∧
        (refute t none s).result = .ok tree ∧ (refute t none s).splits = n := by
  refine ⟨wellFounded_next t, wellFounded_case t, fun s => ?_⟩
  obtain ⟨tree, n, h⟩ := exists_explores t (.ofSequent s)
  obtain ⟨hr, hn⟩ := search_of_explores h 0
  exact ⟨tree, n, h, hr, by rw [refute, hn, Nat.zero_add]⟩

end SetSequent.Search
