import SetSequent.Decision
import SetSequent.Proofs.SearchRun

/-!
# Certificates pass their check

* `ProofTree.count` — how often a rule is used in a tree.
* `Refutation` — a closed tree without defects and without stuck leaf, and the number of its splits.
* `evidence_of_run` — the leaf that ends propagation carries its evidence, whatever was learned,
  forgotten and learned again before.
* `refutation_of_explores` — a run ends stuck, with one leaf, or with a refutation.
* `decide_certified` — a sequent is proved if and only if there is a certificate, which then passes.
-/

namespace SetSequent

namespace Formula

/-- Evaluation looks at the members of its lists only. -/
theorem simplify_congr {T F T' F' : List Atom} (ht : ∀ a, a ∈ T ↔ a ∈ T') (hf : ∀ a, a ∈ F ↔ a ∈ F')
    (f : Formula) : f.simplify T F = f.simplify T' F' := by
  have hT (a : Atom) : T.contains a = T'.contains a := by
    rw [Bool.eq_iff_iff, List.contains_iff_mem, List.contains_iff_mem, ht]
  have hF (a : Atom) : F.contains a = F'.contains a := by
    rw [Bool.eq_iff_iff, List.contains_iff_mem, List.contains_iff_mem, hf]
  induction f with
  | top | bot | all => rfl
  | atom a => simp only [simplify, hT, hF]
  | not f ih => simp only [simplify, ih]
  | connect c l r ihl ihr => simp only [simplify, ihl, ihr]

end Formula

namespace ProofTree

mutual

/-- How often a rule is used in a tree. -/
def count (rule : Rule) : ProofTree → Nat
  | .node i cs => (if i.rule = rule then 1 else 0) + countAll rule cs

def countAll (rule : Rule) : List ProofTree → Nat
  | [] => 0
  | c :: cs => count rule c + countAll rule cs

end

end ProofTree

namespace Search

/-- A closed tree without defects and without stuck leaf, with `n` splits. -/
structure Refutation (tree : ProofTree) (n : Nat) : Prop where
  closed : tree.isClosed = true
  sound : tree.defects = []
  open_free : tree.count .stuck = 0
  splits : tree.count .split = n

/-! ## Leaves -/

/-- The rule closes a branch, and the evidence recorded for it is there. -/
def Evident (leaf : Inference) : Prop := leaf.rule.closes = true ∧ leaf.evidenceDefect? 0 = none

namespace Front

theorem mem_filterMap_sorted {atoms : List Atom} {a : Atom} :
    a ∈ (sorted atoms).filterMap (·.atom?) ↔ a ∈ atoms := by
  simp only [List.mem_filterMap, mem_sorted]
  constructor
  · rintro ⟨_, ⟨b, hb, rfl⟩, he⟩
    cases he; exact hb
  · exact fun ha => ⟨.atom a, ⟨a, ha, rfl⟩, rfl⟩

theorem evident_falsity {s : Front} {f : Formula} (h : f.simplify s.trues s.falses = .bot) :
    Evident (s.falsity f) := by
  refine ⟨rfl, if_pos ?_⟩
  rw [← h]
  exact Formula.simplify_congr (fun _ => mem_filterMap_sorted) (fun _ => mem_filterMap_sorted) f

theorem evident_contradiction (s : Front) (a : Atom) : Evident (assertAtom.contradiction s a) := by
  have recorded (atoms : List Atom) :
      (sorted (if atoms.contains a then atoms else atoms ++ [a])).contains (.atom a) = true := by
    rw [List.contains_iff_mem, mem_sorted]
    refine ⟨a, ?_, rfl⟩
    split
    · rename_i h; exact List.contains_iff_mem.1 h
    · exact List.mem_append_right _ (List.mem_singleton_self a)
  refine ⟨rfl, ?_⟩
  simp only [assertAtom.contradiction, Inference.evidenceDefect?, recorded, Bool.and_self, if_true]

theorem evident_of_learns {s : Front} {a : Atom} {positive : Bool} {leaf : Inference}
    (h : s.Learns a positive (.closed leaf)) : Evident leaf := by
  cases h with
  | refuted | contradicted => exact evident_contradiction s a
  | irreflexive hr =>
    refine ⟨rfl, ?_⟩
    simp [Inference.evidenceDefect?, Formula.isReflexive, hr]

theorem evident_step {t : DecidabilityTable} {s : Front} {leaf : Inference}
    (h : (s.step t).value = .closed leaf) : Evident leaf := by
  have hs := s.steps_step t
  rw [h] at hs
  cases hs with
  | take _ hf =>
    cases hf with
    | literal _ hl | evaluated _ hl => exact evident_of_learns hl
    | falsity hb => exact evident_falsity hb

/-- A leaf that ends propagation is evident. -/
theorem evidence_of_run {t : DecidabilityTable} {s : Front} {leaf : Inference}
    {substitutions : List (String × Term)} (h : (s.run t).value = .closed leaf substitutions) :
    Evident leaf :=
  closed_induction (R := fun _ leaf => Evident leaf) (fun _ _ => evident_step) (fun _ _ _ _ ih => ih) h

end Front

/-! ## Trees -/

namespace Refutation

theorem leaf {i : Inference} (h : Evident i) : Refutation (.leaf i) 0 where
  closed := by simp [ProofTree.leaf, ProofTree.isClosed, h.1]
  sound := by simp [ProofTree.leaf, ProofTree.defects, ProofTree.allDefects, Inference.defects, h.2]
  open_free := by
    have : i.rule ≠ .stuck := fun he => by simp [Evident, he, Rule.closes] at h
    simp [ProofTree.leaf, ProofTree.count, ProofTree.countAll, this]
  splits := by
    have : i.rule ≠ .split := fun he => by simp [Evident, he, Rule.closes] at h
    simp [ProofTree.leaf, ProofTree.count, ProofTree.countAll, this]

theorem under {tree : ProofTree} {n : Nat} (h : Refutation tree n)
    (substitutions : List (String × Term)) :
    Refutation (underSubstitutions substitutions tree) n := by
  induction substitutions with
  | nil => exact h
  | cons p rest ih =>
    obtain ⟨hc, hd, ho, hn⟩ := ih
    unfold underSubstitutions at hc hd ho hn ⊢
    refine ⟨?_, ?_, ?_, ?_⟩
    · simp [List.foldr_cons, ProofTree.isClosed, ProofTree.allClosed, hc]
    · simp [List.foldr_cons, ProofTree.defects, ProofTree.allDefects, Inference.defects,
        Inference.evidenceDefect?, Rule.closes, hd]
    · simp [List.foldr_cons, ProofTree.count, ProofTree.countAll, ho]
    · simp [List.foldr_cons, ProofTree.count, ProofTree.countAll, hn]

/-- A split covers its cases. -/
theorem evidence_of_split {t : DecidabilityTable} {b : Branch} {s : Split}
    (h : (b.split t).value = some s) :
    s.inference.rule = .split ∧ s.inference.evidenceDefect? 2 = none := by
  unfold Branch.split at h
  split at h
  · simp only [Noted.value_pure, Option.some.injEq] at h
    subst h
    exact ⟨rfl, by simp [Branch.candidateSplit, Inference.evidenceDefect?]⟩
  · simp only [Noted.value_bind, Noted.value_pure, Option.map_eq_some_iff] at h
    obtain ⟨⟨f, l, r, others⟩, hf, rfl⟩ := h
    have hc := (Branch.findCases_spec hf).1
    exact ⟨rfl, by simp [Branch.formulaSplit, Inference.evidenceDefect?, hc]⟩

theorem node {t : DecidabilityTable} {b : Branch} {s : Split} {tree₁ tree₂ : ProofTree} {n₁ n₂ : Nat}
    (hs : (b.split t).value = some s) (h₁ : Refutation tree₁ n₁) (h₂ : Refutation tree₂ n₂) :
    Refutation (.node s.inference [tree₁, tree₂]) (n₁ + n₂ + 1) := by
  obtain ⟨hr, he⟩ := evidence_of_split hs
  refine ⟨?_, ?_, ?_, ?_⟩
  · simp [ProofTree.isClosed, ProofTree.allClosed, hr, h₁.closed, h₂.closed]
  · simp [ProofTree.defects, ProofTree.allDefects, Inference.defects, he, hr, Rule.closes, h₁.sound,
      h₂.sound]
  · simp [ProofTree.count, ProofTree.countAll, hr, h₁.open_free, h₂.open_free]
  · simp only [ProofTree.count, ProofTree.countAll, hr, h₁.splits, h₂.splits, if_true]
    omega

end Refutation

/-- A run ends with one stuck leaf, or with a refutation that has a node for each split made. -/
theorem refutation_of_explores {t : DecidabilityTable} {b : Branch} {tree : ProofTree} {n : Nat}
    (h : Explores t b tree n) :
    (∃ detail, tree = .leaf { rule := .stuck, detail := detail }) ∨ Refutation tree n := by
  induction h with
  | closed hp => exact .inr ((Refutation.leaf (Front.evidence_of_run hp)).under _)
  | stuck _ _ => exact .inl ⟨_, rfl⟩
  -- A stuck case is handed up as it is, never under a replacement or a split.
  | first _ _ _ hs ih => exact .inl (ih.resolve_right fun h => not_isStuck h hs)
  | second _ _ _ _ _ hs _ ih => exact .inl (ih.resolve_right fun h => not_isStuck h hs)
  | both _ hs _ h₁ _ h₂ ih₁ ih₂ =>
    have r₁ := ih₁.resolve_left fun ⟨_, he⟩ => by rw [he] at h₁; cases h₁
    have r₂ := ih₂.resolve_left fun ⟨_, he⟩ => by rw [he] at h₂; cases h₂
    exact .inr ((Refutation.node hs r₁ r₂).under _)
where
  not_isStuck {tree : ProofTree} {n : Nat} (h : Refutation tree n) (hs : tree.isStuck = true) :
      False := by
    cases tree with
    | node i cs =>
      have : i.rule = .stuck := by simpa [ProofTree.isStuck, ProofTree.inference] using hs
      have := h.closed
      simp_all [ProofTree.isClosed, Rule.closes]

theorem refutation_of_refute {t : DecidabilityTable} {limit : Option Int} {s : Sequent}
    {tree : ProofTree} (h : (refute t limit s).result = .ok tree) :
    (∃ detail, tree = .leaf { rule := .stuck, detail := detail }) ∨
      Refutation tree (refute t limit s).splits := by
  obtain ⟨n, hn, hs⟩ := explores_of_search h
  rw [refute, hs, Nat.zero_add]
  exact refutation_of_explores hn

end Search

/-! ## Decisions -/

namespace Sequent

/-- The attempt that a decision rests on. -/
def attempt (o : Options) (s : Sequent) : Search.Attempt ProofTree :=
  Search.refute o.table o.maxSplits (s.prepare o).value

/-- The journal of an attempt, before its outcome is added. -/
def journal (o : Options) (s : Sequent) : Journal :=
  .ofNotes ((s.prepare o).notes ++ (s.attempt o).notes)

section Outcome

variable {o : Options} {s : Sequent}

theorem decide_of_error {e : Search.BudgetExhausted} (h : (s.attempt o).result = .error e) :
    s.decide o =
      { verdict := .notProved
        sequent := (s.prepare o).value
        diagnostics := ((s.journal o).add (.diagnostic ⟨.budgetExhausted, e.message⟩)).diagnostics
        splits := (s.attempt o).splits } := by
  rw [attempt] at h
  unfold decide
  simp only [h]
  rfl

theorem decide_of_stuck {tree : ProofTree} (h : (s.attempt o).result = .ok tree)
    (hs : tree.isStuck = true) :
    s.decide o =
      { verdict := .notProved
        sequent := (s.prepare o).value
        diagnostics := ((s.journal o).add (.diagnostic ⟨.stuck, tree.inference.detail⟩)).diagnostics
        openBranch := some tree.inference.detail
        splits := (s.attempt o).splits } := by
  rw [attempt] at h
  unfold decide
  simp only [h, hs, if_true]
  rfl

theorem decide_of_closed {tree : ProofTree} (h : (s.attempt o).result = .ok tree)
    (hs : tree.isStuck = false) :
    s.decide o =
      { verdict := .proved
        sequent := (s.prepare o).value
        certificate := some ⟨(s.journal o).steps, tree⟩
        diagnostics := (s.journal o).diagnostics
        splits := (s.attempt o).splits } := by
  rw [attempt] at h
  unfold decide
  simp only [h, hs, Bool.false_eq_true, if_false]
  rfl

end Outcome

theorem splits_decide (o : Options) (s : Sequent) : (s.decide o).splits = (s.attempt o).splits := by
  unfold decide attempt
  dsimp only
  split
  · rfl
  · split <;> rfl

/-- A sequent is proved, and has a certificate, exactly when the search returns a tree that is not
stuck; the certificate holds this tree. -/
theorem decide_cases (o : Options) (s : Sequent) :
    (∃ tree steps, (s.attempt o).result = .ok tree ∧ tree.isStuck = false ∧
      (s.decide o).verdict = .proved ∧ (s.decide o).certificate = some ⟨steps, tree⟩) ∨
    ((∀ tree, (s.attempt o).result = .ok tree → tree.isStuck = true) ∧
      (s.decide o).verdict = .notProved ∧ (s.decide o).certificate = none) := by
  unfold decide attempt
  dsimp only
  split
  · rename_i e he
    exact .inr ⟨by simp [he], rfl, rfl⟩
  · rename_i tree ht
    split
    · rename_i hs
      exact .inr ⟨by simp [ht, hs], rfl, rfl⟩
    · rename_i hs
      exact .inl ⟨tree, _, ht, by simpa using hs, rfl, rfl⟩

/-- Without a budget the verdict is that of the run. -/
theorem verdict_of_explores {o : Options} {s : Sequent} {tree : ProofTree} {n : Nat}
    (hl : o.maxSplits = none)
    (h : Search.Explores o.table (.ofSequent (s.prepare o).value) tree n) :
    (s.decide o).verdict = if tree.isStuck then .notProved else .proved := by
  have ha : (s.attempt o).result = .ok tree := by
    rw [attempt, hl]
    exact (Search.search_of_explores h 0).1
  rcases decide_cases o s with ⟨tree', _, hr, hs, hv, _⟩ | ⟨hs, hv, _⟩
  · obtain rfl : tree = tree' := by simpa [ha] using hr
    simp [hv, hs]
  · simp [hv, hs tree ha]

/-- Without a budget, a sequent is proved if propagation closes its branch. -/
theorem verdict_of_closed {o : Options} {s : Sequent} (hl : o.maxSplits = none)
    (h : ∃ leaf substitutions, (Search.propagate o.table (.ofSequent (s.prepare o).value)).value =
      .closed leaf substitutions) : (s.decide o).verdict = .proved := by
  obtain ⟨leaf, substitutions, hp⟩ := h
  have refutation := (Search.Refutation.leaf (Search.Front.evidence_of_run hp)).under substitutions
  have hs : (Search.underSubstitutions substitutions (.leaf leaf)).isStuck = false :=
    Bool.eq_false_iff.2 (Search.refutation_of_explores.not_isStuck refutation)
  rw [verdict_of_explores hl (.closed hp), hs]
  rfl

/-- **Every proof passes its check.** A sequent is proved exactly when there is a certificate; its
tree is closed, has no defects, and has a node for each split that was made. On any sequent, under any
table and budget, the search returns a single stuck leaf, or a tree without stuck leaf and without
defects. -/
theorem decide_certified (o : Options) (s : Sequent) :
    ((s.decide o).verdict = .proved ↔ (s.decide o).certificate.isSome = true) ∧
    (∀ c, (s.decide o).certificate = some c →
      c.tree.isClosed = true ∧ c.defects = [] ∧ c.tree.count .split = (s.decide o).splits) ∧
    (∀ t limit r tree, (Search.refute t limit r).result = .ok tree →
      (∃ detail, tree = .leaf { rule := .stuck, detail := detail }) ∨
        tree.count .stuck = 0 ∧ tree.defects = []) := by
  refine ⟨?_, fun c hc => ?_, fun t limit r tree h => ?_⟩
  · rcases decide_cases o s with ⟨tree, steps, _, _, hv, hc⟩ | ⟨_, hv, hc⟩ <;> simp [hv, hc]
  · rcases decide_cases o s with ⟨tree, steps, hr, hs, _, hc'⟩ | ⟨_, _, hc'⟩
    · obtain rfl : ⟨steps, tree⟩ = c := by simpa [hc'] using hc
      have := (Search.refutation_of_refute hr).resolve_left fun ⟨_, he⟩ => by rw [he] at hs; cases hs
      exact ⟨this.closed, this.sound, by rw [splits_decide]; exact this.splits⟩
    · simp [hc'] at hc
  · exact (Search.refutation_of_refute h).imp_right fun h => ⟨h.open_free, h.sound⟩

end Sequent

end SetSequent
