import Mathlib
import SetSequent.Proofs.BranchModels
import SetSequent.Proofs.ConstructiveValue

/-!
# Constructive search

The moves of the search are judged in a Heyting algebra: a value forces a branch if it lies below
everything that the branch assumes. Classical moves are open to formulas that the table calls decidable
only, so a value that forces a branch is covered by values that force its cases.

* `Atom.isPlain` — the atoms of propositional reasoning: no rule of the search rewrites them.
* `inf_value_simplify` — evaluation under literals keeps the value below what forces the literals.
* `Front.Forced` — a value lies below what a front assumes, and excluded middle holds for its candidates.
* `forced_step`, `le_bot_of_closed` — steps keep what is forced; only `⊥` forces a front that closes.
* `le_sup_of_split` — the cases of a split cover what forces the branch.
* `le_bot_of_explores` — only `⊥` forces a branch on which the search succeeds.
-/

namespace SetSequent

/-! ## Plain atoms -/

/-- Predicates, and memberships in what a variable or an application denotes. -/
def Atom.isPlain : Atom → Bool
  | .mem _ s => s.isAtomic
  | .pred .. => true
  | .eq .. | .isEmpty _ | .subset .. | .setEq .. => false

theorem Atom.orient_of_isPlain {a : Atom} (h : a.isPlain = true) : a.orient = a := by
  cases a with
  | eq => cases h
  | _ => rfl

theorem Atom.isReflexive_of_isPlain {a : Atom} (h : a.isPlain = true) : a.isReflexive = false := by
  cases a with
  | eq => cases h
  | _ => rfl

namespace Search

theorem Front.elimination?_of_isPlain {a : Atom} (h : a.isPlain = true) : elimination? a = none := by
  cases a with
  | eq => cases h
  | _ => rfl

theorem stable_isPlain : Stable (·.isPlain = true) where
  orient a ha := by rwa [Atom.orient_of_isPlain ha]
  eliminate a x r ha he := by
    rw [Front.elimination?_of_isPlain ha] at he
    cases he

end Search

/-! ## Evaluation below a value -/

section Below

variable {H : Type*} [HeytingAlgebra H] {x a a' b b' : H}

theorem inf_himp_inf (x a b : H) : x ⊓ (x ⊓ a ⇨ x ⊓ b) = x ⊓ (a ⇨ b) := by
  refine le_antisymm (le_inf inf_le_left (le_himp_iff.2 ?_)) (le_inf inf_le_left (le_himp_iff.2 ?_))
  · calc x ⊓ (x ⊓ a ⇨ x ⊓ b) ⊓ a = (x ⊓ a ⇨ x ⊓ b) ⊓ (x ⊓ a) := by
          rw [inf_comm x, inf_assoc]
      _ ≤ x ⊓ b := himp_inf_le
      _ ≤ b := inf_le_right
  · refine le_inf (inf_le_left.trans inf_le_left) ?_
    calc x ⊓ (a ⇨ b) ⊓ (x ⊓ a) ≤ (a ⇨ b) ⊓ a := inf_le_inf inf_le_right inf_le_right
      _ ≤ b := himp_inf_le

theorem inf_himp_congr (ha : x ⊓ a = x ⊓ a') (hb : x ⊓ b = x ⊓ b') :
    x ⊓ (a ⇨ b) = x ⊓ (a' ⇨ b') := by
  rw [← inf_himp_inf, ha, hb, inf_himp_inf]

theorem inf_compl_congr (ha : x ⊓ a = x ⊓ a') : x ⊓ aᶜ = x ⊓ a'ᶜ := by
  rw [← himp_bot, ← himp_bot]
  exact inf_himp_congr ha rfl

/-- What two values have in common with `x` determines what their combination has. -/
theorem Connective.inf_value_congr (c : Connective) (ha : x ⊓ a = x ⊓ a') (hb : x ⊓ b = x ⊓ b') :
    x ⊓ c.value a b = x ⊓ c.value a' b' := by
  cases c with
  | and =>
    change x ⊓ (a ⊓ b) = x ⊓ (a' ⊓ b')
    rw [inf_inf_distrib_left, ha, hb, ← inf_inf_distrib_left]
  | or =>
    change x ⊓ (a ⊔ b) = x ⊓ (a' ⊔ b')
    rw [inf_sup_left, ha, hb, ← inf_sup_left]
  | implies => exact inf_himp_congr ha hb
  | iff =>
    change x ⊓ ((a ⇨ b) ⊓ (b ⇨ a)) = x ⊓ ((a' ⇨ b') ⊓ (b' ⇨ a'))
    rw [inf_inf_distrib_left, inf_himp_congr ha hb, inf_himp_congr hb ha, ← inf_inf_distrib_left]

end Below

namespace Valuation

variable {H : Type*} [HeytingAlgebra H] {v : Valuation H} {t : DecidabilityTable} {x y : H}

theorem value_fold (c : Connective) (l r : Formula) :
    v.value (Formula.fold c l r) = c.value (v.value l) (v.value r) := by
  cases c <;>
    simp only [Formula.fold, Formula.foldAnd, Formula.foldOr, Formula.foldImplies,
      Formula.foldIff] <;>
    split <;> simp [value, Connective.value]

theorem value_foldNot (f : Formula) : v.value (Formula.foldNot f) = (v.value f)ᶜ := by
  unfold Formula.foldNot
  split <;> simp [value]

/-- Evaluation keeps the value below every `x` that forces the literals. -/
theorem inf_value_simplify {trues falses : List Atom} (ht : ∀ a ∈ trues, x ≤ v.atom a)
    (hf : ∀ a ∈ falses, x ≤ (v.atom a)ᶜ) {f : Formula} (he : f.Every (·.isPlain = true)) :
    x ⊓ v.value (f.simplify trues falses) = x ⊓ v.value f := by
  induction f with
  | top | bot => rfl
  | atom a =>
    rw [Formula.simplify, Atom.orient_of_isPlain he, Atom.isReflexive_of_isPlain he, Bool.false_or]
    split
    · rename_i h
      have ha := ht a (List.contains_iff_mem.1 h)
      rw [value, value, inf_top_eq, inf_eq_left.2 ha]
    · split
      · rename_i h
        have ha := hf a (List.contains_iff_mem.1 h)
        rw [value, value, inf_bot_eq, (le_compl_iff_disjoint_right.1 ha).eq_bot]
      · rfl
  | not f ih =>
    rw [Formula.simplify, value_foldNot, value]
    exact inf_compl_congr (ih he)
  | connect c l r ihl ihr =>
    rw [Formula.simplify, value_fold, value]
    exact c.inf_value_congr (ihl he.1) (ihr he.2)
  | all y f => exact he.elim

/-- Forced formulas may be evaluated. -/
theorem le_value_simplify {trues falses : List Atom} (ht : ∀ a ∈ trues, x ≤ v.atom a)
    (hf : ∀ a ∈ falses, x ≤ (v.atom a)ᶜ) {f : Formula} (he : f.Every (·.isPlain = true)) :
    x ≤ v.value (f.simplify trues falses) ↔ x ≤ v.value f := by
  rw [← inf_eq_left, ← inf_eq_left, inf_value_simplify ht hf he]

/-- The value of a literal. -/
def literal (v : Valuation H) (a : Atom) : Bool → H
  | true => v.atom a
  | false => (v.atom a)ᶜ

theorem value_literal? {f : Formula} {a : Atom} {positive : Bool}
    (h : f.literal? = some (a, positive)) (he : f.Every (·.isPlain = true)) :
    v.value f = v.literal a positive := by
  unfold Formula.literal? at h
  split at h
  · cases h
    rw [Atom.orient_of_isPlain he]
    rfl
  · cases h
    rw [Atom.orient_of_isPlain he]
    rfl
  · cases h

/-- A disjunctive formula whose cases may be told apart is covered by them. -/
theorem value_cases? (hv : v.Respects t) {f l r : Formula} (h : f.cases? = some (l, r))
    (hm : (Search.Branch.mayOpen t f).value = true) : v.value f ≤ v.value l ⊔ v.value r := by
  unfold Formula.cases? at h
  split at h <;> cases h
  · exact le_rfl
  · rename_i l
    simp only [Search.Branch.mayOpen, Search.Branch.value_allDecidable, List.all_cons, List.all_nil,
      Bool.and_true] at hm
    exact ((decided_of_isDecidable hv hm).himp_eq _).le
  · rename_i l r
    simp only [Search.Branch.mayOpen, Search.Branch.value_allDecidable, List.all_cons, List.all_nil,
      Bool.and_true, Bool.and_eq_true] at hm
    exact ((decided_of_isDecidable hv hm.1).bihimp_eq (decided_of_isDecidable hv hm.2)).le

end Valuation

/-! ## Fronts -/

namespace Search

variable {H : Type*} [HeytingAlgebra H] {v : Valuation H} {t : DecidabilityTable} {x y : H}

/-- The value `x` lies below everything that the front assumes, and excluded middle holds for the
candidates. -/
structure Front.Forced (v : Valuation H) (x : H) (s : Front) : Prop where
  queue : ∀ f ∈ s.queue, x ≤ v.value f
  residual : ∀ f ∈ s.residual, x ≤ v.value f
  candidates : ∀ f ∈ s.candidates, Decided (v.value f)
  trues : ∀ a ∈ s.trues, x ≤ v.atom a
  falses : ∀ a ∈ s.falses, x ≤ (v.atom a)ᶜ

namespace Front

variable {s s' : Front}

theorem Forced.mono (hs : s.Forced v x) (h : y ≤ x) : s.Forced v y :=
  ⟨fun f hf => h.trans (hs.queue f hf), fun f hf => h.trans (hs.residual f hf), hs.candidates,
    fun a ha => h.trans (hs.trues a ha), fun a ha => h.trans (hs.falses a ha)⟩

theorem forced_cons {f : Formula} : (s.cons f).Forced v x ↔ x ≤ v.value f ∧ s.Forced v x := by
  constructor
  · rintro ⟨hq, hr, hc, ht, hf⟩
    obtain ⟨hf', hq⟩ := List.forall_mem_cons.1 hq
    exact ⟨hf', hq, hr, hc, ht, hf⟩
  · rintro ⟨h, hq, hr, hc, ht, hf⟩
    exact ⟨List.forall_mem_cons.2 ⟨h, hq⟩, hr, hc, ht, hf⟩

theorem forced_of_learns {a : Atom} {positive : Bool} (ha : a.isPlain = true)
    (hs : s.Forced v x) (hx : x ≤ v.literal a positive) (h : s.Learns a positive (.next s')) :
    s'.Forced v x := by
  cases h with
  | reflexive | known | knownFalse => exact hs
  | eliminated he =>
    rw [elimination?_of_isPlain ha] at he
    cases he
  | asserted =>
    refine ⟨hs.queue, hs.residual, hs.candidates, ?_, hs.falses⟩
    exact List.forall_mem_append.2 ⟨hs.trues, List.forall_mem_singleton.2 hx⟩
  | denied =>
    refine ⟨hs.queue, hs.residual, hs.candidates, hs.trues, ?_⟩
    exact List.forall_mem_append.2 ⟨hs.falses, List.forall_mem_singleton.2 hx⟩

theorem le_bot_of_learns {a : Atom} {positive : Bool} {leaf : Inference} (ha : a.isPlain = true)
    (hs : s.Forced v x) (hx : x ≤ v.literal a positive)
    (h : s.Learns a positive (.closed leaf)) : x ≤ ⊥ := by
  have clash (h₁ : x ≤ v.atom a) (h₂ : x ≤ (v.atom a)ᶜ) : x ≤ ⊥ :=
    (le_inf h₁ h₂).trans (inf_compl_self _).le
  cases h with
  | refuted hf => exact clash hx (hs.falses a hf)
  | irreflexive hr =>
    rw [Atom.isReflexive_of_isPlain ha] at hr
    cases hr
  | contradicted ht => exact clash (hs.trues a ht) hx

theorem forced_takeCompound (hv : v.Respects t) {f : Formula} (hx : x ≤ v.value f)
    (hs : s.Forced v x) : (s.takeCompound t f).value.Forced v x := by
  unfold takeCompound
  split
  · obtain ⟨hl, hr⟩ := le_inf_iff.1 hx
    exact forced_cons.2 ⟨hl, forced_cons.2 ⟨hr, hs⟩⟩
  · simp only [Noted.value_bind]
    split
    · rename_i g hg
      exact forced_cons.2 ⟨(Valuation.value_pushStep hv hg).symm ▸ hx, hs⟩
    · refine ⟨hs.queue, ?_, hs.candidates, hs.trues, hs.falses⟩
      exact List.forall_mem_append.2 ⟨hs.residual, List.forall_mem_singleton.2 hx⟩

/-- **A step keeps what is forced.** -/
theorem forced_step (hv : v.Respects t) (he : s.Every (·.isPlain = true)) (hs : s.Forced v x)
    (h : (s.step t).value = .next s') : s'.Forced v x := by
  have hstep := s.steps_step t
  rw [h] at hstep
  cases hstep with
  | @take f rest _ hq hf =>
    rw [eq_cons_of_queue hq] at hs he
    obtain ⟨hx, hs⟩ := forced_cons.1 hs
    obtain ⟨he, _⟩ := every_cons.1 he
    have hx' := (Valuation.le_value_simplify hs.trues hs.falses he).2 hx
    have he' : (f.simplify s.trues s.falses).Every (·.isPlain = true) :=
      Formula.every_simplify he stable_isPlain.orient
    cases hf with
    | literal hl hn =>
      rw [Valuation.value_literal? hl he] at hx
      exact forced_of_learns (Formula.every_literal? hl he stable_isPlain.orient) hs hx hn
    | holds => exact hs
    | evaluated hl hn =>
      rw [Valuation.value_literal? hl he'] at hx'
      exact forced_of_learns (Formula.every_literal? hl he' stable_isPlain.orient) hs hx' hn
    | compound => exact forced_takeCompound hv hx' hs
  | refill =>
    exact ⟨hs.residual, fun _ h => (List.not_mem_nil h).elim, hs.candidates, hs.trues, hs.falses⟩

/-- Only `⊥` forces a front that a step closes. -/
theorem le_bot_of_closed_step {leaf : Inference} (he : s.Every (·.isPlain = true))
    (hs : s.Forced v x) (h : (s.step t).value = .closed leaf) : x ≤ ⊥ := by
  have hstep := s.steps_step t
  rw [h] at hstep
  cases hstep with
  | @take f rest _ hq hf =>
    rw [eq_cons_of_queue hq] at hs he
    obtain ⟨hx, hs⟩ := forced_cons.1 hs
    obtain ⟨he, _⟩ := every_cons.1 he
    have hx' := (Valuation.le_value_simplify hs.trues hs.falses he).2 hx
    have he' : (f.simplify s.trues s.falses).Every (·.isPlain = true) :=
      Formula.every_simplify he stable_isPlain.orient
    cases hf with
    | literal hl hc =>
      rw [Valuation.value_literal? hl he] at hx
      exact le_bot_of_learns (Formula.every_literal? hl he stable_isPlain.orient) hs hx hc
    | falsity hb => exact hx'.trans (congrArg v.value hb).le
    | evaluated hl hc =>
      rw [Valuation.value_literal? hl he'] at hx'
      exact le_bot_of_learns (Formula.every_literal? hl he' stable_isPlain.orient) hs hx' hc

/-- Only `⊥` forces a front on which propagation closes. -/
theorem le_bot_of_closed (hv : v.Respects t) (he : s.Every (·.isPlain = true)) (hs : s.Forced v x)
    {leaf : Inference} {substitutions : List (String × Term)}
    (h : (s.run t).value = .closed leaf substitutions) : x ≤ ⊥ := by
  refine closed_induction (R := fun s _ => s.Every (·.isPlain = true) → s.Forced v x → x ≤ ⊥)
    ?close ?next h he hs
  case close =>
    intro s leaf hc he hs
    exact le_bot_of_closed_step he hs hc
  case next =>
    intro s s' leaf hn ih he hs
    exact ih (models_step stable_isPlain he hn).1 (forced_step hv he hs hn)

end Front

/-! ## Branches -/

namespace Branch

variable {b : Branch}

def Forced (v : Valuation H) (x : H) (b : Branch) : Prop := b.front.Forced v x

theorem forced_assume {f : Formula} : (b.assume f).Forced v x ↔ x ≤ v.value f ∧ b.Forced v x :=
  Front.forced_cons (s := b.front)

/-- What forces the start of propagation forces the settled branch. -/
theorem forced_of_settled {s : Front} (hv : v.Respects t) (he : s.Every (·.isPlain = true))
    (hs : s.Forced v x) {substitutions : List (String × Term)}
    (h : (s.run t).value = .settled b substitutions) : b.Forced v x := by
  refine Front.settled_induction
    (R := fun s b => s.Every (·.isPlain = true) → s.Forced v x → b.Forced v x) ?settle ?next h he hs
  case settle =>
    intro s _ _ hs
    exact ⟨hs.residual, fun _ h => (List.not_mem_nil h).elim, hs.candidates, hs.trues, hs.falses⟩
  case next =>
    intro s s' b hn ih he hs
    exact ih (Front.models_step stable_isPlain he hn).1 (Front.forced_step hv he hs hn)

/-- **The cases of a split cover what forces the branch**: a candidate is decided, and a formula is split
only where the table calls decidable what that needs. -/
theorem le_sup_of_split {s : Split} (hv : v.Respects t) (h : (b.split t).value = some s)
    (hb : b.Forced v x) : s.rest.Forced v x ∧ x ≤ v.value s.first ⊔ v.value s.second := by
  unfold split at h
  split at h
  · rename_i c hc
    simp only [Noted.value_pure, Option.some.injEq] at h
    subst h
    refine ⟨⟨hb.queue, hb.residual, fun f hf => ?_, hb.trues, hb.falses⟩, ?_⟩
    · exact hb.candidates f (List.mem_filter.1 hf).1
    · have hd : v.value c ⊔ (v.value c)ᶜ = ⊤ := hb.candidates c (List.mem_of_find?_eq_some hc)
      exact le_top.trans hd.ge
  · simp only [Noted.value_bind, Noted.value_pure, Option.map_eq_some_iff] at h
    obtain ⟨⟨f, l, r, others⟩, hf, rfl⟩ := h
    have hm := mem_of_findCases hf
    obtain ⟨hc, hopen, _⟩ := findCases_spec hf
    refine ⟨⟨fun g hg => ?_, hb.residual, hb.candidates, hb.trues, hb.falses⟩, ?_⟩
    · exact hb.queue g ((hm g).2 (.inr hg))
    · exact (hb.queue f ((hm f).2 (.inl rfl))).trans (Valuation.value_cases? hv hc hopen)

end Branch

/-- **Only `⊥` forces a branch whose run is not stuck.** -/
theorem le_bot_of_explores {b : Branch} {tree : ProofTree} {n : Nat} (hv : v.Respects t)
    (h : Explores t b tree n) (hs : tree.isStuck = false) (he : b.Every (·.isPlain = true))
    (hb : b.Forced v x) : x ≤ ⊥ := by
  induction h generalizing x with
  | closed hp => exact Front.le_bot_of_closed hv he hb hp
  | stuck _ _ => cases hs
  | first _ _ _ hstuck _ => rw [hs] at hstuck; cases hstuck
  | second _ _ _ _ _ hstuck _ _ => rw [hs] at hstuck; cases hstuck
  | @both _ _ _ split _ _ _ _ hp hc _ h₁ _ h₂ ih₁ ih₂ =>
    -- The part of `x` below each case forces that case, and the two parts make up `x`.
    have hb' := Branch.forced_of_settled hv he hb hp
    obtain ⟨he₁, he₂⟩ := Branch.every_split hc (Front.every_of_settled stable_isPlain he hp)
    obtain ⟨hrest, hcover⟩ := Branch.le_sup_of_split hv hc hb'
    have case₁ : x ⊓ v.value split.first ≤ ⊥ :=
      ih₁ h₁ he₁ (Branch.forced_assume.2 ⟨inf_le_right, hrest.mono inf_le_left⟩)
    have case₂ : x ⊓ v.value split.second ≤ ⊥ :=
      ih₂ h₂ he₂ (Branch.forced_assume.2 ⟨inf_le_right, hrest.mono inf_le_left⟩)
    calc x = x ⊓ (v.value split.first ⊔ v.value split.second) := (inf_eq_left.2 hcover).symm
      _ = x ⊓ v.value split.first ⊔ x ⊓ v.value split.second := inf_sup_left ..
      _ ≤ ⊥ := sup_le case₁ case₂

end Search

end SetSequent
