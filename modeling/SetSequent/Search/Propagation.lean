import SetSequent.Equation
import SetSequent.Negation
import SetSequent.Proof
import SetSequent.Search.Rank

/-!
# Propagation

A branch is a list of formulas to refute, the candidates for case splits, and the atoms known to be
true and to be false. Propagation takes the formulas in turn: it simplifies, takes conjunctions
apart, pushes negations and learns literals, until nothing new is learned or the branch closes. A
true equation that solves a variable is used up by replacing the variable everywhere.

* `Branch` — what a case of the search assumes.
* `Front.step` — one formula of the queue.
* `propagate` — steps until the branch closes or settles.
* `rank_step` — each step lowers the rank, so propagation ends.
-/

namespace SetSequent.Search

structure Branch where
  pending : List Formula
  candidates : List Formula
  trues : List Atom := []
  falses : List Atom := []
  deriving DecidableEq

/-- A branch in the middle of propagation. The formulas of `queue` are still to be looked at, those
of `residual` have been and could not be used; `learned` tells whether a literal came in since the
queue was last filled. -/
structure Front where
  queue : List Formula
  residual : List Formula := []
  candidates : List Formula
  trues : List Atom
  falses : List Atom
  learned : Bool := false
  substitutions : List (String × Term) := []
  deriving DecidableEq

/-- What one step makes of a front. -/
inductive Progress where
  | next (front : Front)
  | closed (leaf : Inference)
  | settled
  deriving DecidableEq

def Branch.front (b : Branch) : Front where
  queue := b.pending
  candidates := b.candidates
  trues := b.trues
  falses := b.falses

namespace Front

def branch (s : Front) : Branch := ⟨s.residual, s.candidates, s.trues, s.falses⟩

/-- Atoms as formulas, in the order of their written forms. -/
def sorted (atoms : List Atom) : List Formula := Formula.sortByText (atoms.map .atom)

/-- The literals of a front as formulas. -/
def knownFacts (s : Front) : List Formula :=
  sorted s.trues ++ (sorted s.falses).map Formula.not

/-- Each candidate once, oriented, after `x` has been replaced. -/
def eliminateCandidates (x : String) (t : Term) (candidates : List Formula) : List Formula :=
  (candidates.map fun f => (f.eliminate x t).orient).eraseDups

/-- Replaces `x` by `t` everywhere. What was known goes back into the queue. -/
def eliminate (s : Front) (x : String) (t : Term) : Front where
  queue := (s.queue ++ s.residual ++ s.knownFacts).map (·.eliminate x t)
  candidates := eliminateCandidates x t s.candidates
  trues := []
  falses := []
  learned := true
  substitutions := s.substitutions ++ [(x, t)]

/-- The variable that a true atom solves. -/
def elimination? : Atom → Option (String × Term)
  | .eq l r => Equation.elimination? ⟨.element, l, r⟩
  | _ => none

/-- Takes in an oriented atom as true. -/
def assertAtom (s : Front) (a : Atom) : Progress :=
  if a.isReflexive then .next s
  else if s.falses.contains a then .closed (contradiction s a)
  else if s.trues.contains a then .next s
  else
    match elimination? a with
    | some (x, t) => .next (s.eliminate x t)
    | none => .next { s with trues := s.trues ++ [a], learned := true }
where
  contradiction (s : Front) (a : Atom) : Inference :=
    { rule := .contradiction
      detail := a.text ++ " and not " ++ a.text
      atom := some (.atom a)
      trueAtoms := sorted (if s.trues.contains a then s.trues else s.trues ++ [a])
      falseAtoms := sorted (if s.falses.contains a then s.falses else s.falses ++ [a]) }

/-- Takes in an oriented atom as false. -/
def denyAtom (s : Front) (a : Atom) : Progress :=
  if a.isReflexive then
    .closed { rule := .reflexivity, detail := "not " ++ a.text, atom := some (.atom a) }
  else if s.trues.contains a then .closed (assertAtom.contradiction s a)
  else if s.falses.contains a then .next s
  else .next { s with falses := s.falses ++ [a], learned := true }

def takeLiteral (s : Front) : Atom × Bool → Progress
  | (a, true) => s.assertAtom a
  | (a, false) => s.denyAtom a

/-- Takes in a simplified formula that is no constant and no literal. -/
def takeCompound (t : DecidabilityTable) (s : Front) : Formula → Noted Front
  | .and l r => return { s with queue := l :: r :: s.queue }
  | f => do
    match ← f.pushStep t with
    | some g => return { s with queue := g :: s.queue }
    | none => return { s with residual := s.residual ++ [f] }

/-- The leaf for a formula that evaluates to false. -/
def falsity (s : Front) (f : Formula) : Inference :=
  { rule := .falsity
    detail := f.text ++ " evaluates to false"
    formula := some f
    trueAtoms := sorted s.trues
    falseAtoms := sorted s.falses }

/-- Takes in a formula. -/
def take (t : DecidabilityTable) (s : Front) (f : Formula) : Noted Progress :=
  match f.literal? with
  | some l => return s.takeLiteral l
  | none =>
    match f.simplify s.trues s.falses with
    | .bot => return .closed (s.falsity f)
    | .top => return .next s
    | g =>
      match g.literal? with
      | some l => return s.takeLiteral l
      | none => return .next (← s.takeCompound t g)

/-- Takes the first formula of the queue. An empty queue is filled again from the residual if
something was learned since it was filled. -/
def step (t : DecidabilityTable) (s : Front) : Noted Progress :=
  match s.queue with
  | f :: rest => take t { s with queue := rest } f
  | [] =>
    if s.learned && !s.residual.isEmpty then
      return .next { s with queue := s.residual, residual := [], learned := false }
    else return .settled

/-! ## Rank -/

/-- Every formula of a front. -/
def formulas (s : Front) : List Formula :=
  s.queue ++ s.residual ++ s.candidates ++ s.trues.map .atom ++ s.falses.map .atom

/-- The names that occur free in a front, with repetitions. -/
def names (s : Front) : List String := freeVars s.formulas

/-- The weight of what is still to be used. -/
def load (s : Front) : Nat := weight (s.queue ++ s.residual)

/-- The number of free variables, twice the load and one more if something was learned, and the
length of the queue. -/
def rank (s : Front) : Nat × Nat × Nat :=
  (distinct s.names, 2 * s.load + s.learned.toNat, s.queue.length)

/-- `s'` has fewer free variables than `s`, or it has no others, no more candidates and no more
load. -/
def Below (s' s : Front) : Prop :=
  distinct s'.names < distinct s.names ∨
    (∀ x ∈ s'.names, x ∈ s.names) ∧ s'.candidates.length ≤ s.candidates.length ∧ s'.load ≤ s.load

theorem Below.refl (s : Front) : Below s s := .inr ⟨fun _ h => h, Nat.le_refl _, Nat.le_refl _⟩

theorem Below.trans {s₁ s₂ s₃ : Front} (h₁ : Below s₁ s₂) (h₂ : Below s₂ s₃) : Below s₁ s₃ := by
  rcases h₁ with h₁ | ⟨hn₁, hc₁, hl₁⟩
  · rcases h₂ with h₂ | ⟨hn₂, _, _⟩
    · exact .inl (Nat.lt_trans h₁ h₂)
    · exact .inl (Nat.lt_of_lt_of_le h₁ (distinct_le hn₂))
  · rcases h₂ with h₂ | ⟨hn₂, hc₂, hl₂⟩
    · exact .inl (Nat.lt_of_le_of_lt (distinct_le hn₁) h₂)
    · exact .inr ⟨fun x h => hn₂ x (hn₁ x h), Nat.le_trans hc₁ hc₂, Nat.le_trans hl₁ hl₂⟩

theorem mem_names {s : Front} {x : String} :
    x ∈ s.names ↔
      (∃ f ∈ s.queue, x ∈ f.freeVars) ∨ (∃ f ∈ s.residual, x ∈ f.freeVars) ∨
      (∃ f ∈ s.candidates, x ∈ f.freeVars) ∨ (∃ a ∈ s.trues, x ∈ a.vars) ∨
      (∃ a ∈ s.falses, x ∈ a.vars) := by
  have atoms (as : List Atom) :
      (∃ f ∈ as.map Formula.atom, x ∈ f.freeVars) ↔ ∃ a ∈ as, x ∈ a.vars := by
    simp only [List.mem_map]
    constructor
    · rintro ⟨_, ⟨a, ha, rfl⟩, hx⟩
      exact ⟨a, ha, hx⟩
    · rintro ⟨a, ha, hx⟩
      exact ⟨.atom a, ⟨a, ha, rfl⟩, hx⟩
  simp only [names, freeVars, formulas, List.mem_flatMap, List.mem_append, or_and_right, exists_or,
    atoms, or_assoc]

theorem mem_sorted {atoms : List Atom} {f : Formula} :
    f ∈ sorted atoms ↔ ∃ a ∈ atoms, .atom a = f := by
  simp [sorted, Formula.sortByText]

/-- An elimination brings no new name and removes the variable. -/
theorem mem_names_eliminate {s : Front} {x y : String} {t : Term}
    (h : y ∈ (s.eliminate x t).names) : (y ∈ s.names ∧ y ≠ x) ∨ y ∈ t.vars := by
  have back {f : Formula} (hf : y ∈ (f.eliminate x t).freeVars)
      (hs : y ∈ f.freeVars → y ∈ s.names) : (y ∈ s.names ∧ y ≠ x) ∨ y ∈ t.vars :=
    (Formula.mem_freeVars_eliminate hf).imp_left fun ⟨h, hx⟩ => ⟨hs h, hx⟩
  rcases mem_names.1 h with ⟨g, hg, hy⟩ | ⟨g, hg, hy⟩ | ⟨g, hg, hy⟩ | ⟨a, ha, hy⟩ | ⟨a, ha, hy⟩
  · obtain ⟨f, hf, rfl⟩ := List.mem_map.1 hg
    refine back hy fun hy => mem_names.2 ?_
    simp only [knownFacts, List.mem_append, List.mem_map, mem_sorted] at hf
    rcases hf with (hf | hf) | ⟨a, ha, rfl⟩ | ⟨_, ⟨a, ha, rfl⟩, rfl⟩
    · exact .inl ⟨f, hf, hy⟩
    · exact .inr (.inl ⟨f, hf, hy⟩)
    · exact .inr (.inr (.inr (.inl ⟨a, ha, hy⟩)))
    · exact .inr (.inr (.inr (.inr ⟨a, ha, hy⟩)))
  · cases hg
  · simp only [eliminate, eliminateCandidates, List.mem_eraseDups, List.mem_map] at hg
    obtain ⟨f, hf, rfl⟩ := hg
    exact back (Formula.mem_freeVars_orient.1 hy) fun hy =>
      mem_names.2 (.inr (.inr (.inl ⟨f, hf, hy⟩)))
  · cases ha
  · cases ha

/-- The front with one more formula at the head of the queue. -/
def cons (s : Front) (f : Formula) : Front := { s with queue := f :: s.queue }

theorem mem_names_cons {s : Front} {f : Formula} {x : String} :
    x ∈ (s.cons f).names ↔ x ∈ f.freeVars ∨ x ∈ s.names := by
  simp only [mem_names, cons, List.mem_cons, or_and_right, exists_or, exists_eq_left, or_assoc]

@[simp] theorem load_cons (s : Front) (f : Formula) : (s.cons f).load = f.weight + s.load := by
  simp [load, cons]

/-- The rank falls, and the free variables, candidates and load allow a split to fall too. -/
structure Falls (s' s : Front) : Prop where
  rank : Prod.Lex (· < ·) (Prod.Lex (· < ·) (· < ·)) s'.rank s.rank
  below : Below s' s

/-- A step that brings no name falls if it uses up weight, or if it shortens the queue. -/
theorem Falls.of_keep {s' s : Front} (hn : ∀ x ∈ s'.names, x ∈ s.names)
    (hc : s'.candidates.length ≤ s.candidates.length)
    (hl : s'.load < s.load ∨
      s'.load ≤ s.load ∧ s'.learned = s.learned ∧ s'.queue.length < s.queue.length) :
    Falls s' s := by
  refine ⟨lex_of_fall (.inr ⟨distinct_le hn, ?_⟩), .inr ⟨hn, hc, by omega⟩⟩
  have (b : Bool) : b.toNat ≤ 1 := by cases b <;> simp
  have := this s'.learned
  rcases hl with hl | ⟨hl, he, hq⟩
  · omega
  · rw [he]; omega

theorem vars_elimination? {a : Atom} {x : String} {t : Term} (h : elimination? a = some (x, t)) :
    x ∈ a.vars ∧ (∀ y ∈ t.vars, y ∈ a.vars) ∧ x ∉ t.vars := by
  unfold elimination? at h
  split at h
  · obtain ⟨⟨h₁, h₂⟩ | ⟨h₁, h₂⟩, hn⟩ := Equation.eq_of_elimination? h
    all_goals
      simp only at h₁ h₂
      subst h₁ h₂
      simp_all [Term.vars]
  · cases h

theorem Falls.of_eliminate {s : Front} {a : Atom} {f : Formula} {x : String} {t : Term}
    (ha : ∀ y ∈ a.vars, y ∈ f.freeVars) (h : elimination? a = some (x, t)) :
    Falls (s.eliminate x t) (s.cons f) := by
  obtain ⟨hx, ht, hn⟩ := vars_elimination? h
  have hlt : distinct (s.eliminate x t).names < distinct (s.cons f).names := by
    refine distinct_lt (fun y hy => mem_names_cons.2 ?_) (mem_names_cons.2 (.inl (ha x hx))) ?_
    · rcases mem_names_eliminate hy with ⟨hy, _⟩ | hy
      · exact .inr hy
      · exact .inl (ha y (ht y hy))
    · intro hy
      rcases mem_names_eliminate hy with ⟨_, hy⟩ | hy
      · exact hy rfl
      · exact hn hy
  exact ⟨lex_of_fall (.inl hlt), .inl hlt⟩

theorem Falls.of_drop (s : Front) (f : Formula) : Falls s (s.cons f) :=
  .of_keep (fun _ hx => mem_names_cons.2 (.inr hx)) (Nat.le_refl _)
    (.inl (by have := f.weight_pos; simp; omega))

theorem falls_takeLiteral {s s' : Front} {f : Formula} {a : Atom} {positive : Bool}
    (ha : ∀ y ∈ a.vars, y ∈ f.freeVars) (h : s.takeLiteral (a, positive) = .next s') :
    Falls s' (s.cons f) := by
  have add {s'' : Front} (hn : ∀ x ∈ s''.names, x ∈ a.vars ∨ x ∈ s.names)
      (hc : s''.candidates = s.candidates) (hl : s''.load = s.load) : Falls s'' (s.cons f) :=
    .of_keep (fun x hx => mem_names_cons.2 ((hn x hx).imp_left (ha x)))
      (Nat.le_of_eq (congrArg _ hc)) (.inl (by have := f.weight_pos; simp [hl]; omega))
  cases positive with
  | true =>
    simp only [takeLiteral, assertAtom] at h
    split at h
    · cases h; exact .of_drop s f
    · split at h
      · cases h
      · split at h
        · cases h; exact .of_drop s f
        · split at h
          · rename_i he
            cases h
            exact .of_eliminate ha he
          · cases h
            refine add (fun x hx => ?_) rfl rfl
            simp only [mem_names, List.mem_append, List.mem_singleton, or_and_right, exists_or,
              exists_eq_left] at hx ⊢
            grind
  | false =>
    simp only [takeLiteral, denyAtom] at h
    split at h
    · cases h
    · split at h
      · cases h
      · split at h
        · cases h; exact .of_drop s f
        · cases h
          refine add (fun x hx => ?_) rfl rfl
          simp only [mem_names, List.mem_append, List.mem_singleton, or_and_right, exists_or,
            exists_eq_left] at hx ⊢
          grind

theorem falls_takeCompound {t : DecidabilityTable} {s : Front} {f g : Formula}
    (hv : ∀ x ∈ g.freeVars, x ∈ f.freeVars) (hw : g.weight ≤ f.weight) :
    Falls (s.takeCompound t g).value (s.cons f) := by
  unfold takeCompound
  split
  · rename_i l r
    refine .of_keep (fun x hx => ?_) (Nat.le_refl _) (.inl ?_)
    · have hl : x ∈ l.freeVars → x ∈ f.freeVars := fun h => hv x (by simp [Formula.freeVars, h])
      have hr : x ∈ r.freeVars → x ∈ f.freeVars := fun h => hv x (by simp [Formula.freeVars, h])
      rw [mem_names_cons]
      simp only [Noted.value_pure, mem_names, List.mem_cons, or_and_right, exists_or,
        exists_eq_left] at hx ⊢
      grind
    · simp only [Formula.weight, Connective.weight] at hw
      simp [load, cons]; omega
  · simp only [Noted.value_bind]
    split
    · rename_i g' hg
      refine .of_keep (fun x hx => ?_) (Nat.le_refl _) (.inl ?_)
      · have hg : x ∈ g'.freeVars → x ∈ f.freeVars := fun h =>
          hv x (Formula.mem_freeVars_pushStep hg h)
        rw [mem_names_cons]
        simp only [Noted.value_pure, mem_names, List.mem_cons, or_and_right, exists_or,
          exists_eq_left] at hx ⊢
        grind
      · have := Formula.weight_pushStep hg
        simp [load, cons]; omega
    · refine .of_keep (fun x hx => ?_) (Nat.le_refl _) (.inr ⟨?_, rfl, ?_⟩)
      · rw [mem_names_cons]
        simp only [Noted.value_pure, mem_names, List.mem_append, List.mem_singleton, or_and_right,
          exists_or, exists_eq_left] at hx ⊢
        grind
      · simp [load, cons]; omega
      · simp [cons]

theorem vars_literal? {f : Formula} {a : Atom} {positive : Bool}
    (h : f.literal? = some (a, positive)) : ∀ x ∈ a.vars, x ∈ f.freeVars := by
  intro x hx
  unfold Formula.literal? at h
  split at h <;> cases h <;> simpa [Formula.freeVars, Atom.mem_vars_orient] using hx

theorem falls_take {t : DecidabilityTable} {s s' : Front} {f : Formula}
    (h : (s.take t f).value = .next s') : Falls s' (s.cons f) := by
  unfold take at h
  split at h
  · rename_i l hl
    exact falls_takeLiteral (vars_literal? hl) h
  · have hv (x : String) (hx : x ∈ (f.simplify s.trues s.falses).freeVars) : x ∈ f.freeVars :=
      Formula.mem_freeVars_simplify hx
    have hw := f.weight_simplify_le s.trues s.falses
    generalize f.simplify s.trues s.falses = g at h hv hw
    split at h
    · cases h
    · cases h; exact .of_drop s f
    · split at h
      · rename_i l hl
        exact falls_takeLiteral (fun x hx => hv x (vars_literal? hl x hx)) h
      · simp only [Noted.value_bind, Noted.value_pure, Progress.next.injEq] at h
        subst h
        exact falls_takeCompound hv hw

/-- Each step lowers the rank. -/
theorem falls_step {t : DecidabilityTable} {s s' : Front} (h : (s.step t).value = .next s') :
    Falls s' s := by
  unfold step at h
  split at h
  · rename_i f rest hq
    have : s = ({ s with queue := rest } : Front).cons f := by cases s; simp_all [cons]
    rw [this]
    exact falls_take h
  · rename_i hq
    split at h
    · rename_i hl
      simp only [Noted.value_pure, Progress.next.injEq] at h
      subst h
      simp only [Bool.and_eq_true] at hl
      have hn : ∀ x ∈ ({ s with queue := s.residual, residual := [], learned := false } : Front).names,
          x ∈ s.names := by
        intro x hx
        simp only [mem_names, hq, List.not_mem_nil, false_and, exists_false, false_or] at hx ⊢
        exact hx
      refine ⟨lex_of_fall (.inr ⟨distinct_le hn, .inl ?_⟩), .inr ⟨hn, Nat.le_refl _, ?_⟩⟩
      · simp [load, hq, hl.1]
      · simp [load, hq]
    · simp at h

end Front

/-! ## Propagation to the end -/

/-- How propagation ends, with the replacements it made. -/
inductive Propagation where
  | closed (leaf : Inference) (substitutions : List (String × Term))
  | settled (branch : Branch) (substitutions : List (String × Term))
  deriving DecidableEq

/-- Takes steps until the front closes or settles. -/
def Front.run (t : DecidabilityTable) (s : Front) : Noted Propagation :=
  let step := s.step t
  match _h : step.value with
  | .next s' => step >>= fun _ => s'.run t
  | .closed leaf => step >>= fun _ => return .closed leaf s.substitutions
  | .settled => step >>= fun _ => return .settled s.branch s.substitutions
termination_by s.rank
decreasing_by exact (Front.falls_step _h).rank

def propagate (t : DecidabilityTable) (b : Branch) : Noted Propagation := b.front.run t

namespace Front

theorem value_run_of_next {t : DecidabilityTable} {s s' : Front}
    (h : (s.step t).value = .next s') : (s.run t).value = (s'.run t).value := by
  rw [run]
  split <;> simp_all

theorem value_run_of_closed {t : DecidabilityTable} {s : Front} {leaf : Inference}
    (h : (s.step t).value = .closed leaf) : (s.run t).value = .closed leaf s.substitutions := by
  rw [run]
  split <;> simp_all

theorem value_run_of_settled {t : DecidabilityTable} {s : Front}
    (h : (s.step t).value = .settled) : (s.run t).value = .settled s.branch s.substitutions := by
  rw [run]
  split <;> simp_all

/-- A settled branch is that of a front below the one propagation began with. -/
theorem below_of_run {t : DecidabilityTable} {s : Front} {b : Branch}
    {substitutions : List (String × Term)} (h : (s.run t).value = .settled b substitutions) :
    ∃ s' : Front, s'.branch = b ∧ s'.Below s := by
  induction s using run.induct t with
  | case1 s _ s' hs ih =>
    change (s.step t).value = _ at hs
    rw [value_run_of_next hs] at h
    obtain ⟨s₀, hb, hl⟩ := ih h
    exact ⟨s₀, hb, hl.trans (falls_step hs).below⟩
  | case2 s _ leaf hs =>
    change (s.step t).value = _ at hs
    simp [value_run_of_closed hs] at h
  | case3 s _ hs =>
    change (s.step t).value = _ at hs
    simp only [value_run_of_settled hs, Propagation.settled.injEq] at h
    exact ⟨s, h.1, .refl s⟩

end Front

end SetSequent.Search
