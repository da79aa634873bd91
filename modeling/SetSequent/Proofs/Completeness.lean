import Mathlib
import SetSequent.Proofs.NameSorts
import SetSequent.Proofs.StuckBranch

/-!
# The procedure is complete on its fragment

A stuck branch has a model. It is carried back through the stages, each of which loses no model that
fits the names of the sequent, to a countermodel over one element more than there are element names.

* `isRelevant_of_classify` — a sequent without diagnostics lies in the fragment as a whole.
* `every_sorted` — in the fragment the names tell the sorts, if those are apart.
* `refutes_of_prepare` — a countermodel of the prepared sequent gives one of the sequent.
* `decide_complete` — a sequent that is not proved has a countermodel, and the enumeration finds it.
-/

namespace SetSequent

open Model

/-! ## Sequents inside the fragment -/

namespace Sequent

variable {s : Sequent} {t : DecidabilityTable}

/-- No note says that something was outside the fragment. -/
def NothingDropped (notes : List Note) : Prop :=
  ∀ detail, .diagnostic { kind := .outOfFragment, detail := detail } ∉ notes

theorem isRelevant_of_keepRelevant {hs : List Hypothesis}
    (h : NothingDropped (keepRelevant t hs).notes) :
    ∀ g ∈ hs, g.formula.isRelevant t true = true := by
  induction hs with
  | nil => exact fun _ hg => (List.not_mem_nil hg).elim
  | cons g hs ih =>
    rw [keepRelevant] at h
    split at h
    · rename_i hr
      refine List.forall_mem_cons.2 ⟨hr, ih fun detail hd => h detail ?_⟩
      simpa using hd
    · exact absurd (by simp [noteDiagnostic]) (h ("dropped " ++ g.text))

theorem isRelevant_of_relevantGoal {goal : Formula}
    (h : NothingDropped (relevantGoal t goal).notes) : goal.isRelevant t true = true := by
  unfold relevantGoal at h
  split at h
  · assumption
  · exact absurd (by simp [noteDiagnostic]) (h ("goal " ++ goal.text ++ " replaced by false"))

/-- If nothing is dropped, every formula lies in the fragment. -/
theorem isRelevant_of_classify (h : NothingDropped (s.classify t).notes) :
    ∀ f ∈ s.opened.formulas, f.isRelevant t true = true := by
  have notes : (s.classify t).notes = s.introduceGoal.notes ++
      ((keepRelevant t s.opened.hypotheses).notes ++ (relevantGoal t s.opened.goal).notes) := by
    simp [classify, opened]
  rw [notes] at h
  intro f hf
  rcases mem_formulas.1 hf with ⟨g, hg, rfl⟩ | rfl
  · refine isRelevant_of_keepRelevant (fun detail hd => h detail ?_) g hg
    exact List.mem_append_right _ (List.mem_append_left _ hd)
  · refine isRelevant_of_relevantGoal fun detail hd => h detail ?_
    exact List.mem_append_right _ (List.mem_append_right _ hd)

theorem value_classify_of_isRelevant (h : ∀ f ∈ s.opened.formulas, f.isRelevant t true = true) :
    (s.classify t).value = s.opened := by
  have facts : s.opened.hypotheses.filter (·.formula.isRelevant t true) = s.opened.hypotheses :=
    List.filter_eq_self.2 fun g hg => h _ (mem_formulas.2 (.inl ⟨g, hg, rfl⟩))
  rw [value_classify, facts, if_pos (h _ (mem_formulas.2 (.inr rfl)))]

end Sequent

/-! ## Sorts -/

theorem Formula.every_of_isRelevant_atoms {t : DecidabilityTable} {top : Bool} {f : Formula}
    (h : f.isRelevant t top = true) : f.Every fun a => (Formula.atom a).isRelevant t true = true := by
  induction f generalizing top with
  | top | bot => trivial
  | atom a =>
    cases top with
    | true => exact h
    | false => cases a <;> first | exact h | cases h
  | not f ih => exact ih h
  | connect c l r ihl ihr =>
    rw [isRelevant, Bool.and_eq_true] at h
    exact ⟨ihl h.1, ihr h.2⟩
  | all x f => cases h

theorem Term.exists_var_of_isAtomic {e : Term} (ha : e.isAtomic = true)
    (hf : ∀ f args, e ≠ .app f args) : ∃ x, e = .var x := by
  cases e with
  | var x => exact ⟨x, rfl⟩
  | app f args => exact absurd rfl (hf f args)
  | _ => cases ha

/-- The constructors of the fragment are made from variables, if there are no function symbols. -/
theorem Term.exists_var_of_isSetTerm : (t : Term) → t.isSetTerm = true →
    (∀ f args, .app f args ∉ t :: t.subterms) → ∀ e ∈ t.constructorElements, ∃ x, e = .var x
  | .var _, _, _ | .app _ _, _, _ | .empty, _, _ => fun _ h => (List.not_mem_nil h).elim
  | .singleton e, ht, hf => by
    rw [isSetTerm, Bool.and_eq_true] at ht
    refine List.forall_mem_singleton.2 (exists_var_of_isAtomic ht.1 fun f args h => hf f args ?_)
    exact h ▸ .tail _ (.head _)
  | .add e s, ht, hf | .remove e s, ht, hf => by
    simp only [isSetTerm, Bool.and_eq_true] at ht
    refine List.forall_mem_cons.2 ⟨exists_var_of_isAtomic ht.1.1 fun f args h => hf f args ?_,
      exists_var_of_isSetTerm s ht.2 fun f args h => hf f args ?_⟩
    · exact h ▸ .tail _ (List.mem_append_left _ (.head _))
    · exact .tail _ (List.mem_append_right _ h)
  | .union s t, ht, hf | .inter s t, ht, hf | .diff s t, ht, hf => by
    rw [isSetTerm, Bool.and_eq_true] at ht
    refine List.forall_mem_append.2 ⟨exists_var_of_isSetTerm s ht.1 fun f args h => hf f args ?_,
      exists_var_of_isSetTerm t ht.2 fun f args h => hf f args ?_⟩
    · exact .tail _ (List.mem_append_left _ h)
    · exact .tail _ (List.mem_append_right _ h)

/-- In the fragment variables are all that stands for elements, if there are no function symbols. -/
theorem Atom.namesElements_of_isRelevant {t : DecidabilityTable} {a : Atom}
    (hr : (Formula.atom a).isRelevant t true = true)
    (hf : ∀ f args, .app f args ∉ Term.listSubterms a.args) : a.NamesElements := by
  have functions {u : Term} (hu : u ∈ a.args) : ∀ f args, .app f args ∉ u :: u.subterms :=
    fun f args h => hf f args (Term.mem_listSubterms.2 ⟨u, hu, h⟩)
  have element {e : Term} (ht : e.isElementTerm = true) (hu : e ∈ a.args) : ∃ x, e = .var x := by
    rw [Term.isElementTerm, Bool.and_eq_true] at ht
    exact Term.exists_var_of_isAtomic ht.1 fun f args h => functions hu f args (h ▸ .head _)
  have set {u : Term} (ht : u.isSetTerm = true) (hu : u ∈ a.args) :
      ∀ e ∈ u.constructorElements, ∃ x, e = .var x :=
    u.exists_var_of_isSetTerm ht (functions hu)
  cases a with
  | eq l r =>
    rw [Formula.isRelevant, Bool.and_eq_true] at hr
    exact List.forall_mem_cons.2 ⟨element hr.1 (.head _),
      List.forall_mem_singleton.2 (element hr.2 (.tail _ (.head _)))⟩
  | mem e s =>
    rw [Formula.isRelevant, Bool.and_eq_true] at hr
    exact List.forall_mem_cons.2 ⟨element hr.1 (.head _), set hr.2 (.tail _ (.head _))⟩
  | isEmpty s => exact set hr (.head _)
  | subset s u | setEq s u =>
    simp only [Formula.isRelevant, Bool.true_and, Bool.and_eq_true] at hr
    exact List.forall_mem_append.2 ⟨set hr.1 (.head _), set hr.2 (.tail _ (.head _))⟩
  | pred => exact fun _ h => (List.not_mem_nil h).elim

namespace Sequent

variable {s : Sequent} {t : DecidabilityTable}

/-- A sequent of the fragment uses its names in their sorts. -/
theorem every_sorted (hs : s.Every (Atom.SortsApart (setVarNames s.formulas)))
    (hr : ∀ f ∈ s.opened.formulas, f.isRelevant t true = true) :
    s.Every (Atom.Sorted (.ofFormulas s.formulas)) := by
  have relevant := every_opened.1 fun f hf => Formula.every_of_isRelevant_atoms (hr f hf)
  refine sorted_of_names hs fun f hf => ((relevant f hf).and (hs f hf)).imp fun a ha => ?_
  exact Atom.namesElements_of_isRelevant ha.1 ha.2.functions

/-! ## Hypotheses that offer no split -/

/-- The splits that injection offers are between true disjunctions. -/
theorem truth_of_candidate? {I : Interpretation} (h : s.Asserted) {g : Hypothesis}
    (hg : g ∈ (s.inject t).value.hypotheses) (hc : (Search.candidate? g).isSome = true) :
    I.truth g.formula = true := by
  rcases mem_injectAll hg with hm | ⟨a, _, _, he⟩
  · obtain ⟨f, hf⟩ := Option.isSome_iff_exists.1 hc
    have := (Search.Branch.formula_of_candidate? hf).1
    rw [h g hm] at this
    cases this
  · rw [he]
    exact Interpretation.truth_excludedMiddle _

/-! ## Completeness -/

variable {σ : Sorts} {I : Interpretation} {n : Nat} {o : Options}

theorem coherent_ofSequent : (Search.Branch.ofSequent s).front.Coherent t := by
  constructor <;> intro _ h <;> cases h

/-- A sequent with simple atoms on which the search gets stuck has a countermodel that fits. -/
theorem exists_refutes_of_stuck {tree : ProofTree} {k : Nat}
    (h : Search.Explores .standard (.ofSequent (s.inject .standard).value) tree k)
    (hstuck : tree.isStuck = true) (hs : s.Every (Atom.Simple σ)) (ha : s.Asserted)
    (hn : σ.elements.length ≤ n) : ∃ I : Interpretation, I.Fits σ n ∧ I.Refutes s := by
  have simple : (s.inject .standard).value.Every (Atom.Simple σ) :=
    every_inject (fun _ => Atom.simple_orient) hs
  have branch : (Search.Branch.ofSequent (s.inject .standard).value).Every (Atom.Simple σ) :=
    Search.Branch.every_ofSequent (fun _ => Atom.simple_orient) simple
  obtain ⟨I, hI, hm⟩ := Search.models_of_explores h hstuck branch coherent_ofSequent hn
  have hr := Search.Branch.models_ofSequent.2 ⟨hm, fun g hg hc => truth_of_candidate? ha hg hc⟩
  exact ⟨I, hI, refutes_inject.1 hr⟩

/-- **The stages lose no countermodel that fits**: if the search gets stuck, there is one over as many
elements as there are element names, and one more for the fresh name. -/
theorem exists_refutes_of_prepare {s₁ : Sequent} (h₁ : (s.classify o.table).value = s₁)
    (ht : o.table = .standard) (hr : 1 ≤ o.maxRounds) (hs : s₁.Regular σ) (ha : s₁.Asserted)
    {tree : ProofTree} {k : Nat}
    (h : Search.Explores o.table (.ofSequent (s.prepare o).value) tree k)
    (hstuck : tree.isStuck = true) (hn : σ.elements.length + 1 ≤ n) :
    ∃ I : Interpretation, I.Fits σ n ∧ I.Refutes s₁ := by
  let s₂ := s₁.substitute.value
  let s₃ := (s₂.instantiate o.freshStem o.maxRounds).value
  let s₄ := (s₃.normalize o.table o.usePull).value
  have hprepare : (s.prepare o).value = (s₄.substitute.value.inject o.table).value := by
    simp only [prepare, Noted.value_bind, h₁]
    rfl
  rw [hprepare, ht] at h
  -- Forth through the stages for the sorts, with the fresh name as one element name more.
  have hs₂ : s₂.Regular σ := hs.substitute
  let τ := σ.withElement (s₂.freshVariable o.freshStem)
  have hs₃ : s₃.Every (Atom.Simple τ) := hs₂.every_instantiate
  have hs₄ : s₄.Every (Atom.Simple τ) := every_normalize hs₃
  have ha₄ : s₄.Asserted := (ha.substitute.instantiate _ _).mapFormulas _ _
  -- And back for the countermodel.
  obtain ⟨I, hI, hI'⟩ :=
    exists_refutes_of_stuck h hstuck (every_simple_substitute hs₄) ha₄.substitute hn
  obtain ⟨J, hJ, hJ'⟩ := refutes_of_substitute (hs₄.imp fun _ => Atom.Simple.sorted) hI hI'
  obtain ⟨K, hK, hK'⟩ := refutes_of_instantiate hs₂ hr hJ (refutes_normalize.1 hJ')
  exact refutes_of_substitute hs.sorted hK hK'

/-- **A sequent of the fragment that is not proved has a countermodel**, and the enumeration finds one
over one element more than the sequent has element names. The sequent has no symbols, no quantifiers
and no injected hypotheses, none of its set names stands in an element position, and nothing of it is
dropped; the table is the standard one and the splits are not limited. -/
theorem decide_complete (table : o.table = .standard) (splits : o.maxSplits = none)
    (rounds : 1 ≤ o.maxRounds) (sorts : s.Every (Atom.SortsApart (setVarNames s.formulas)))
    (asserted : s.Asserted) (dropped : NothingDropped (s.classify o.table).notes)
    (h : (s.decide o).verdict = .notProved) :
    ∃ I, countermodel s.facts s.goal ((elementVarNames s.formulas).length + 1 : Nat) = .ok (some I) ∧
      (∀ f ∈ s.facts, I.holds f = .ok true) ∧ I.holds s.goal = .ok false := by
  have relevant := isRelevant_of_classify dropped
  have sorted := every_sorted sorts relevant
  have regular : s.opened.Regular (.ofFormulas s.formulas) :=
    ⟨every_opened.2 sorted, fun f hf => Formula.layered_of_isRelevant (relevant f hf)⟩
  obtain ⟨tree, k, hrun⟩ := Search.exists_explores o.table (.ofSequent (s.prepare o).value)
  have hstuck : tree.isStuck = true := by
    rw [verdict_of_explores splits hrun] at h
    split at h
    · assumption
    · cases h
  obtain ⟨I, hI, hr⟩ := exists_refutes_of_prepare (value_classify_of_isRelevant relevant) table rounds
    regular asserted.opened hrun hstuck (Nat.le_refl _)
  obtain ⟨J, hJ⟩ := exists_countermodel sorted hI (refutes_opened.1 hr)
  exact ⟨J, hJ, holds_of_countermodel hJ⟩

/-- `s` has an element and is included in `t`; `t` need not be included in `s`. A countermodel needs two
elements. -/
def converse : Sequent where
  hypotheses :=
    [{ name := "H", formula := .atom (.subset (.var "s") (.var "t")) },
      { name := "K", formula := .atom (.mem (.var "x") (.var "s")) }]
  goal := .atom (.subset (.var "t") (.var "s"))

/-- What the stages make of `converse`. -/
def preparedConverse : Sequent where
  hypotheses :=
    [{ name := "K", formula := .atom (.mem (.var "x") (.var "s")) },
      { name := "H[x]"
        formula := .implies (.atom (.mem (.var "x") (.var "s"))) (.atom (.mem (.var "x") (.var "t"))) },
      { name := "H[z0]"
        formula := .implies (.atom (.mem (.var "z0") (.var "s"))) (.atom (.mem (.var "z0") (.var "t"))) },
      { name := "D0"
        formula := Formula.excludedMiddle (.atom (.mem (.var "z0") (.var "s")))
        injected := true },
      { name := "D1"
        formula := Formula.excludedMiddle (.atom (.mem (.var "z0") (.var "t")))
        injected := true }]
  goal := .implies (.atom (.mem (.var "z0") (.var "t"))) (.atom (.mem (.var "z0") (.var "s")))

theorem value_prepare_converse : (converse.prepare {}).value = preparedConverse := by cbv

theorem verdict_converse : (converse.decide {}).verdict = .notProved := by
  have settles : ∃ b substitutions,
      (Search.propagate .standard (.ofSequent preparedConverse)).value = .settled b substitutions ∧
        (b.split .standard).value = none :=
    ⟨_, _, by cbv, by cbv⟩
  obtain ⟨b, substitutions, hp, hs⟩ := settles
  rw [← value_prepare_converse] at hp
  rw [verdict_of_explores rfl (.stuck hp hs)]
  rfl

theorem decide_complete_converse :
    converse.Every (Atom.SortsApart (setVarNames converse.formulas)) ∧ converse.Asserted ∧
      NothingDropped (converse.classify .standard).notes ∧
      (converse.decide {}).verdict = .notProved ∧
      ∃ I, countermodel converse.facts converse.goal 2 = .ok (some I) ∧
        (∀ f ∈ converse.facts, I.holds f = .ok true) ∧ I.holds converse.goal = .ok false := by
  have sorts : converse.Every (Atom.SortsApart (setVarNames converse.formulas)) := by
    have names : ∀ x ∈ setVarNames converse.formulas, x ≠ "x" := by decide
    have inclusion (y z : String) (sets : List String) :
        Atom.SortsApart sets (.subset (.var y) (.var z)) := by
      refine ⟨fun _ _ h => ?_, fun _ _ h => ?_, fun _ _ h => ?_⟩
      · cases h
      · simp [Term.listSubterms, Atom.args, Term.subterms] at h
      · simp [Atom.elementTerms, Term.constructorElements] at h
    intro f hf
    simp only [formulas, facts, converse, List.map_cons, List.map_nil, List.cons_append,
      List.nil_append, List.mem_cons, List.not_mem_nil, or_false] at hf
    rcases hf with rfl | rfl | rfl
    · exact inclusion ..
    · refine ⟨fun _ _ h => ?_, fun _ _ h => ?_, fun x hx h => names x hx ?_⟩
      · cases h
      · simp [Term.listSubterms, Atom.args, Term.subterms] at h
      · simpa [Atom.elementTerms, Term.constructorElements] using h
    · exact inclusion ..
  have asserted : converse.Asserted := by
    intro h hh
    revert h
    decide
  have dropped : NothingDropped (converse.classify .standard).notes := by
    have notes : (converse.classify .standard).notes = [] := by cbv
    rw [notes]
    exact fun _ => List.not_mem_nil
  exact ⟨sorts, asserted, dropped, verdict_converse,
    decide_complete rfl rfl (by decide) sorts asserted dropped verdict_converse⟩

end Sequent

end SetSequent
