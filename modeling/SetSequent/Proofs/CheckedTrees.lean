import SetSequent.Proofs.EvaluatorRules

/-!
# What a checked tree shows

A tree may come from anywhere. If the check finds no defects in it, every interpretation that makes the
unfolded formulas true is led, split by split, to a leaf whose evidence it refutes.

* `Inference.Sound` — what the check accepts at one node, by its rule.
* `TruthValues` — what is needed of truth values: those of the evaluator, which may fail, and those of the
  completed evaluator.
* `Inference.RefutedIn` — the truth values contradict what a leaf records.
* `exists_case_of_sound`, `refutedIn_of_sound` — a sound split has a case that holds, and a sound leaf is
  refuted.
* `ProofTree.Path` — the paths from the root to the leaves, with what the splits on the way assume.
* `path_of_no_defects` — a tree without defects is closed, and has a path to a refuted leaf.
-/

namespace SetSequent

open Model

/-! ## Nodes -/

theorem Formula.eq_of_isReflexive {f : Formula} (h : f.isReflexive = true) :
    ∃ u, f = .atom (.eq u u) := by
  cases f with
  | atom a =>
    cases a with
    | eq l r =>
      obtain rfl : l = r := by simpa [isReflexive, Atom.isReflexive] using h
      exact ⟨l, rfl⟩
    | _ => cases h
  | _ => cases h

namespace Inference

/-- What the check accepts at a node with a number of children. -/
inductive Sound (i : Inference) : Nat → Prop where
  | reflexivity {u : Term} (rule : i.rule = .reflexivity) (atom : i.atom = some (.atom (.eq u u))) :
    Sound i 0
  | contradiction {a : Formula} (rule : i.rule = .contradiction) (atom : i.atom = some a)
      (asserted : a ∈ i.trueAtoms) (denied : a ∈ i.falseAtoms) : Sound i 0
  | falsity {f : Formula} (rule : i.rule = .falsity) (formula : i.formula = some f)
      (value : f.simplify (i.trueAtoms.filterMap (·.atom?)) (i.falseAtoms.filterMap (·.atom?)) = .bot) :
    Sound i 0
  | substitute (rule : i.rule = .substitute) : Sound i 1
  | splitAtom {a : Formula} (rule : i.rule = .split) (atom : i.atom = some a)
      (assumptions : i.assumptions = [a, .not a]) : Sound i 2
  | splitFormula {f l r : Formula} (rule : i.rule = .split) (atom : i.atom = none)
      (formula : i.formula = some f) (cases : f.cases? = some (l, r))
      (assumptions : i.assumptions = [l, r]) : Sound i 2

variable {i : Inference} {n : Nat}

theorem sound_of_split (hr : i.rule = .split) (h : i.evidenceDefect? n = none) : i.Sound n := by
  simp only [evidenceDefect?, hr] at h
  split at h
  · cases h
  · rename_i hn
    have hn : n = i.assumptions.length := by
      simp only [Bool.or_eq_true, decide_eq_true_eq, not_or, Decidable.not_not] at hn
      exact hn.2
    subst hn
    split at h
    · rename_i a _ ha
      split at h
      · rename_i has
        rw [has]
        exact .splitAtom hr ha has
      · cases h
    · cases h
    · rename_i f ha hf
      split at h
      · rename_i hc
        obtain ⟨⟨l, r⟩, hc, has⟩ := (Option.any_eq_true ..).1 hc
        have has : i.assumptions = [l, r] := by simpa using has
        rw [has]
        exact .splitFormula hr ha hf hc has
      · cases h

theorem sound_of_leaf (hr : i.rule.closes = true) (h : i.evidenceDefect? n = none) : i.Sound 0 := by
  cases hi : i.rule with
  | reflexivity =>
    simp only [evidenceDefect?, hi] at h
    split at h
    · rename_i ha
      obtain ⟨f, ha, hf⟩ := (Option.any_eq_true ..).1 ha
      obtain ⟨u, rfl⟩ := Formula.eq_of_isReflexive hf
      exact .reflexivity hi ha
    · cases h
  | contradiction =>
    simp only [evidenceDefect?, hi] at h
    split at h
    · cases h
    · rename_i a ha
      split at h
      · rename_i hc
        rw [Bool.and_eq_true, List.contains_iff_mem, List.contains_iff_mem] at hc
        exact .contradiction hi ha hc.1 hc.2
      · cases h
  | falsity =>
    simp only [evidenceDefect?, hi] at h
    split at h
    · cases h
    · rename_i f hf
      split at h
      · rename_i hv
        exact .falsity hi hf hv
      · cases h
  | substitute | split | stuck => rw [hi] at hr; cases hr

/-- A node without defects is one that the check accepts. -/
theorem sound_of_defects (h : i.defects n = []) : i.Sound n := by
  obtain ⟨hd, hl⟩ := List.append_eq_nil_iff.1 h
  have hd : i.evidenceDefect? n = none := by simpa using hd
  cases hi : i.rule with
  | reflexivity | contradiction | falsity =>
    have hc : i.rule.closes = true := by rw [hi]; rfl
    obtain rfl : n = 0 := by simpa [hc] using hl
    exact sound_of_leaf hc hd
  | substitute =>
    simp only [evidenceDefect?, hi] at hd
    split at hd
    · rename_i hn
      subst hn
      exact .substitute hi
    · cases hd
  | split => exact sound_of_split hi hd
  | stuck =>
    simp only [evidenceDefect?, hi] at hd
    cases hd

end Inference

/-! ## Truth values -/

/-- Truth values of formulas, as far as they have one. A negation has the opposite value, a true disjunctive
formula has a true case, and a formula that evaluates to falsity under atoms of known value is not true. -/
structure TruthValues where
  assigns : Formula → Bool → Prop
  opposite {f : Formula} {b : Bool} (value : assigns f b) : assigns (.not f) !b
  case {f l r : Formula} (cases : f.cases? = some (l, r)) (value : assigns f true) :
    assigns l true ∨ assigns r true
  falsity {trues falses : List Atom} {f : Formula} {b : Bool} (simplified : f.simplify trues falses = .bot)
    (known : ∀ a ∈ trues, assigns (.atom a) true) (excluded : ∀ a ∈ falses, assigns (.atom a) false)
    (value : assigns f b) : b = false

namespace Model.Interpretation

theorem truth_of_simplify {I : Interpretation} {trues falses : List Atom} {f : Formula}
    (h : f.simplify trues falses = .bot) (ht : ∀ a ∈ trues, I.truth (.atom a) = true)
    (hf : ∀ a ∈ falses, I.truth (.atom a) = false) : I.truth f = false := by
  rw [← truth_simplify ht hf f, h]
  rfl

/-- A true disjunctive formula has a true case, as far as its evaluation looks. -/
theorem holds_cases? {I : Interpretation} {f l r : Formula} (hc : f.cases? = some (l, r))
    (h : I.holds f = .ok true) : I.holds l = .ok true ∨ I.holds r = .ok true := by
  unfold Formula.cases? at hc
  split at hc <;> cases hc <;> obtain ⟨b, hl, h⟩ := ok_of_bind h <;> cases b
  · exact .inr h
  · exact .inl hl
  · exact .inl (holds_not hl)
  · exact .inr h
  all_goals
    rename_i l r
    obtain ⟨b', hr, h⟩ := ok_of_bind h
    cases b' <;> cases h
  · refine .inr ?_
    rw [holds, holds_not hl, holds_not hr]
    rfl
  · refine .inl ?_
    rw [holds, hl, hr]
    rfl

/-- The truth values of the evaluator: a formula has none if the evaluation fails. -/
def evaluated (I : Interpretation) : TruthValues where
  assigns f b := I.holds f = .ok b
  opposite := holds_not
  case := holds_cases?
  falsity h ht hf value := by
    rw [← truth_of_holds value]
    exact truth_of_simplify h (fun a ha => truth_of_holds (ht a ha)) fun a ha => truth_of_holds (hf a ha)

/-- The truth values of the completed evaluator: every formula has one. -/
def completed (I : Interpretation) : TruthValues where
  assigns f b := I.truth f = b
  opposite h := by rw [truth, h]
  case hc h := by
    rw [truth_cases? hc, Bool.or_eq_true] at h
    exact h
  falsity h ht hf value := by
    rw [← value]
    exact truth_of_simplify h ht hf

end Model.Interpretation

/-! ## Sound nodes -/

namespace Inference

/-- The formulas whose truth values the evidence of a node is about. -/
def evidence (i : Inference) : List Formula :=
  match i.rule with
  | .split | .contradiction => i.atom.toList
  | .falsity => i.formula.toList ++ i.trueAtoms ++ i.falseAtoms
  | .reflexivity | .substitute | .stuck => []

/-- The truth values contradict what the leaf records; a term is never different from itself. -/
inductive RefutedIn (V : TruthValues) (i : Inference) : Prop where
  | trueAtom (a : Formula) (recorded : a ∈ i.trueAtoms) (fails : V.assigns a false)
  | falseAtom (a : Formula) (recorded : a ∈ i.falseAtoms) (holds : V.assigns a true)
  | formula (f : Formula) (recorded : i.formula = some f) (fails : V.assigns f false)
  | reflexivity (u : Term) (rule : i.rule = .reflexivity) (recorded : i.atom = some (.atom (.eq u u)))

/-- The formula of a split without an atom is true, and what the evidence is about has a truth value. -/
structure AdmittedBy (V : TruthValues) (i : Inference) : Prop where
  formula : i.rule = .split → i.atom = none → ∀ f, i.formula = some f → V.assigns f true
  evidence : ∀ f ∈ i.evidence, ∃ b, V.assigns f b

variable {V : TruthValues} {i : Inference} {n : Nat}

theorem refutedIn_of_simplify {f : Formula} (hf : i.formula = some f)
    (h : f.simplify (i.trueAtoms.filterMap (·.atom?)) (i.falseAtoms.filterMap (·.atom?)) = .bot)
    (he : ∃ b, V.assigns f b) (ht : ∀ a ∈ i.trueAtoms, ∃ b, V.assigns a b)
    (hn : ∀ a ∈ i.falseAtoms, ∃ b, V.assigns a b) : i.RefutedIn V := by
  have recorded {as : List Formula} {a : Atom} (ha : a ∈ as.filterMap (·.atom?)) : .atom a ∈ as := by
    obtain ⟨g, hg, ha⟩ := List.mem_filterMap.1 ha
    cases g with
    | atom b => cases ha; exact hg
    | _ => cases ha
  -- If every recorded atom has the value it is recorded with, `f` is false.
  by_cases wrong : (∃ a ∈ i.trueAtoms, V.assigns a false) ∨ ∃ a ∈ i.falseAtoms, V.assigns a true
  · rcases wrong with ⟨a, ha, h⟩ | ⟨a, ha, h⟩
    · exact .trueAtom a ha h
    · exact .falseAtom a ha h
  · obtain ⟨wrong₁, wrong₂⟩ := not_or.1 wrong
    have trues : ∀ a ∈ i.trueAtoms.filterMap (·.atom?), V.assigns (.atom a) true := by
      intro a ha
      obtain ⟨b, hb⟩ := ht _ (recorded ha)
      cases b with
      | true => exact hb
      | false => exact absurd ⟨_, recorded ha, hb⟩ wrong₁
    have falses : ∀ a ∈ i.falseAtoms.filterMap (·.atom?), V.assigns (.atom a) false := by
      intro a ha
      obtain ⟨b, hb⟩ := hn _ (recorded ha)
      cases b with
      | true => exact absurd ⟨_, recorded ha, hb⟩ wrong₂
      | false => exact hb
    obtain ⟨b, hb⟩ := he
    obtain rfl := V.falsity h trues falses hb
    exact .formula f hf hb

theorem Sound.closes (h : i.Sound 0) : i.rule.closes = true := by
  cases h with
  | reflexivity hr | contradiction hr | falsity hr => rw [hr]; rfl

/-- **A sound leaf is refuted**: its evidence does not hold together. -/
theorem refutedIn_of_sound (h : i.Sound 0) (hV : i.AdmittedBy V) : i.RefutedIn V := by
  have evidence := hV.evidence
  cases h with
  | reflexivity hr ha => exact .reflexivity _ hr ha
  | @contradiction a hr ha ht hf =>
    simp only [Inference.evidence, hr, ha, Option.toList_some, List.forall_mem_singleton] at evidence
    obtain ⟨b, hb⟩ := evidence
    cases b with
    | true => exact .falseAtom a hf hb
    | false => exact .trueAtom a ht hb
  | falsity hr hf hv =>
    simp only [Inference.evidence, hr, hf, Option.toList_some, List.forall_mem_append,
      List.forall_mem_singleton] at evidence
    exact refutedIn_of_simplify hf hv evidence.1.1 evidence.1.2 evidence.2

/-- **A sound split has a case that holds.** -/
theorem exists_case_of_sound (h : i.Sound n) (hr : i.rule = .split) (hV : i.AdmittedBy V) :
    n = i.assumptions.length ∧
      ∃ (k : Nat) (a : Formula), i.assumptions[k]? = some a ∧ V.assigns a true := by
  have first {l r : Formula} (h : i.assumptions = [l, r]) (hl : V.assigns l true) :
      ∃ (k : Nat) (a : Formula), i.assumptions[k]? = some a ∧ V.assigns a true :=
    ⟨0, l, by rw [h]; rfl, hl⟩
  have second {l r : Formula} (h : i.assumptions = [l, r]) (hr : V.assigns r true) :
      ∃ (k : Nat) (a : Formula), i.assumptions[k]? = some a ∧ V.assigns a true :=
    ⟨1, r, by rw [h]; rfl, hr⟩
  cases h with
  | splitAtom _ ha has =>
    have evidence := hV.evidence
    simp only [Inference.evidence, hr, ha, Option.toList_some, List.forall_mem_singleton] at evidence
    obtain ⟨b, hb⟩ := evidence
    refine ⟨by rw [has]; rfl, ?_⟩
    cases b with
    | true => exact first has hb
    | false => exact second has (V.opposite hb)
  | splitFormula _ ha hf hc has =>
    refine ⟨by rw [has]; rfl, ?_⟩
    rcases V.case hc (hV.formula hr ha _ hf) with h | h
    · exact first has h
    · exact second has h
  | reflexivity hr' | contradiction hr' | falsity hr' | substitute hr' => rw [hr] at hr'; cases hr'

end Inference

/-! ## Trees -/

namespace ProofTree

mutual

/-- The inferences of a tree, each node before its children. -/
def inferences : ProofTree → List Inference
  | .node i cs => i :: allInferences cs

def allInferences : List ProofTree → List Inference
  | [] => []
  | c :: cs => inferences c ++ allInferences cs

end

/-- A path from the root to a leaf, with the assumptions of the splits on the way. -/
inductive Path : ProofTree → List Formula → Inference → Prop where
  | leaf {i : Inference} : Path (.node i []) [] i
  | child {i leaf : Inference} {cs : List ProofTree} {c : ProofTree} {assumed : List Formula}
      (rule : i.rule ≠ .split) (child : c ∈ cs) (rest : Path c assumed leaf) :
    Path (.node i cs) assumed leaf
  | case {i leaf : Inference} {cs : List ProofTree} {c : ProofTree} {assumed : List Formula}
      {k : Nat} {a : Formula} (rule : i.rule = .split) (assumption : i.assumptions[k]? = some a)
      (child : cs[k]? = some c) (rest : Path c assumed leaf) : Path (.node i cs) (a :: assumed) leaf

theorem node_induction {R : ProofTree → Prop}
    (node : ∀ i cs, (∀ c ∈ cs, R c) → R (.node i cs)) (tree : ProofTree) : R tree :=
  @ProofTree.rec R (∀ c ∈ ·, R c) node (fun _ h => (List.not_mem_nil h).elim)
    (fun _ _ h hs => List.forall_mem_cons.2 ⟨h, hs⟩) tree

theorem defects_of_mem {cs : List ProofTree} (h : allDefects cs = []) :
    ∀ c ∈ cs, c.defects = [] := by
  induction cs with
  | nil => exact fun _ hc => (List.not_mem_nil hc).elim
  | cons c cs ih =>
    obtain ⟨hc, hcs⟩ := List.append_eq_nil_iff.1 h
    exact List.forall_mem_cons.2 ⟨hc, ih hcs⟩

theorem allInferences_of_mem {cs : List ProofTree} {c : ProofTree} (hc : c ∈ cs) :
    c.inferences ⊆ allInferences cs := by
  induction cs with
  | nil => cases hc
  | cons d cs ih =>
    intro i hi
    rcases List.mem_cons.1 hc with rfl | hc
    · exact List.mem_append_left _ hi
    · exact List.mem_append_right _ (ih hc hi)

theorem allClosed_of_forall {cs : List ProofTree} (h : ∀ c ∈ cs, c.isClosed = true) :
    allClosed cs = true := by
  induction cs with
  | nil => rfl
  | cons c cs ih =>
    obtain ⟨hc, hcs⟩ := List.forall_mem_cons.1 h
    rw [allClosed, hc, ih hcs]
    rfl

theorem isClosed_of_defects {tree : ProofTree} (h : tree.defects = []) : tree.isClosed = true := by
  induction tree using node_induction with
  | node i cs ih =>
    obtain ⟨hi, hcs⟩ := List.append_eq_nil_iff.1 h
    have closed := allClosed_of_forall fun c hc => ih c hc (defects_of_mem hcs c hc)
    have inner (hs : i.rule ≠ .stuck) (hn : cs.length ≠ 0) : (node i cs).isClosed = true := by
      have : cs.isEmpty = false := by cases cs <;> simp_all
      simp [isClosed, closed, hs, this]
    generalize hn : cs.length = n at hi inner
    cases Inference.sound_of_defects hi with
    | reflexivity hr | contradiction hr | falsity hr => simp [isClosed, hr, Rule.closes]
    | substitute hr | splitAtom hr | splitFormula hr => exact inner (by simp [hr]) (by decide)

/-- In a tree without defects whose nodes are admitted, there is a path on which all that is assumed is
true, to a leaf that is refuted. -/
theorem exists_path_of_defects {V : TruthValues} {tree : ProofTree} (h : tree.defects = [])
    (hV : ∀ i ∈ tree.inferences, i.AdmittedBy V) :
    ∃ assumed leaf, tree.Path assumed leaf ∧ (∀ a ∈ assumed, V.assigns a true) ∧
      leaf.rule.closes = true ∧ leaf.RefutedIn V := by
  induction tree using node_induction with
  | node i cs ih =>
    obtain ⟨hi, hcs⟩ := List.append_eq_nil_iff.1 h
    obtain ⟨admitted, hV⟩ := List.forall_mem_cons.1 hV
    have ih (c : ProofTree) (hc : c ∈ cs) :=
      ih c hc (defects_of_mem hcs c hc) fun j hj => hV j (allInferences_of_mem hc hj)
    have sound := Inference.sound_of_defects hi
    by_cases hr : i.rule = .split
    · obtain ⟨hn, k, a, hk, ha⟩ := Inference.exists_case_of_sound sound hr admitted
      obtain ⟨hlt, _⟩ := List.getElem?_eq_some_iff.1 hk
      have hc : cs[k]? = some cs[k] := List.getElem?_eq_getElem (hn ▸ hlt)
      obtain ⟨assumed, leaf, path, hassumed, hleaf⟩ := ih _ (List.mem_of_getElem? hc)
      exact ⟨a :: assumed, leaf, .case hr hk hc path, List.forall_mem_cons.2 ⟨ha, hassumed⟩, hleaf⟩
    · cases cs with
      | nil => exact ⟨[], i, .leaf, fun _ h => (List.not_mem_nil h).elim, sound.closes,
          Inference.refutedIn_of_sound sound admitted⟩
      | cons c cs =>
        obtain ⟨assumed, leaf, path, hleaf⟩ := ih c (.head _)
        exact ⟨assumed, leaf, .child hr (.head _) path, hleaf⟩

/-- **A tree without defects refutes what it assumes.** It is closed, and every interpretation that makes
the formulas of the splits without an atom true makes all assumptions on one path true and contradicts what
the leaf of that path records. This holds of the completed evaluator, and of the evaluator itself where it
gives a truth value to what the evidence is about. -/
theorem path_of_no_defects (c : Certificate) (h : c.defects = []) :
    c.tree.isClosed = true ∧ ∀ I : Interpretation,
      ((∀ i ∈ c.tree.inferences, i.rule = .split → i.atom = none →
          ∀ f, i.formula = some f → I.truth f = true) →
        ∃ assumed leaf, c.tree.Path assumed leaf ∧ (∀ a ∈ assumed, I.truth a = true) ∧
          leaf.rule.closes = true ∧ leaf.RefutedIn I.completed) ∧
      ((∀ i ∈ c.tree.inferences, i.rule = .split → i.atom = none →
          ∀ f, i.formula = some f → I.holds f = .ok true) →
        (∀ i ∈ c.tree.inferences, ∀ f ∈ i.evidence, ∃ b, I.holds f = .ok b) →
        ∃ assumed leaf, c.tree.Path assumed leaf ∧ (∀ a ∈ assumed, I.holds a = .ok true) ∧
          leaf.rule.closes = true ∧ leaf.RefutedIn I.evaluated) := by
  refine ⟨isClosed_of_defects h, fun I => ⟨fun formulas => ?_, fun formulas evidence => ?_⟩⟩
  · have admitted (i : Inference) (hi : i ∈ c.tree.inferences) : i.AdmittedBy I.completed :=
      ⟨formulas i hi, fun f _ => ⟨I.truth f, rfl⟩⟩
    exact exists_path_of_defects h admitted
  · have admitted (i : Inference) (hi : i ∈ c.tree.inferences) : i.AdmittedBy I.evaluated :=
      ⟨formulas i hi, evidence i hi⟩
    exact exists_path_of_defects h admitted

/-- Under a replacement, a split on an atom above one on a formula, with a leaf of each kind. -/
def handmade : Certificate where
  steps := []
  tree :=
    let a : Formula := .atom (.mem (.var "x") (.var "s"))
    let b : Formula := .atom (.mem (.var "x") (.var "t"))
    let c : Formula := .atom (.mem (.var "y") (.var "t"))
    .node { rule := .substitute }
      [.node { rule := .split, atom := some a, assumptions := [a, .not a] }
        [.node { rule := .split, formula := some (.or b c), assumptions := [b, c] }
          [.leaf { rule := .contradiction, atom := some b, trueAtoms := [b], falseAtoms := [b] },
            .leaf { rule := .falsity, formula := some (.not c), trueAtoms := [c] }],
          .leaf { rule := .reflexivity, atom := some (.atom (.eq (.var "x") (.var "x"))) }]]

/-- `x` is `0` and in `s`, `y` is `1` and in `t`. -/
def handmadeModel : Interpretation where
  domain := [0, 1]
  elements := [("x", 0), ("y", 1)]
  sets := [("s", .ofInts [0]), ("t", .ofInts [1])]

theorem path_of_no_defects_handmade :
    handmade.defects = [] ∧ handmade.tree.isClosed = true ∧
      (∃ assumed leaf, handmade.tree.Path assumed leaf ∧
        (∀ a ∈ assumed, handmadeModel.truth a = true) ∧
        leaf.rule.closes = true ∧ leaf.RefutedIn handmadeModel.completed) ∧
      ∃ assumed leaf, handmade.tree.Path assumed leaf ∧
        (∀ a ∈ assumed, handmadeModel.holds a = .ok true) ∧
        leaf.rule.closes = true ∧ leaf.RefutedIn handmadeModel.evaluated := by
  have sound : handmade.defects = [] := by decide
  obtain ⟨closed, paths⟩ := path_of_no_defects handmade sound
  have formulas : ∀ i ∈ handmade.tree.inferences, i.rule = .split → i.atom = none →
      ∀ f, i.formula = some f → handmadeModel.holds f = .ok true := by
    intro i hi hr ha f hf
    simp only [handmade, inferences, allInferences, leaf, List.append_nil, List.cons_append,
      List.nil_append, List.mem_cons, List.not_mem_nil, or_false] at hi
    rcases hi with rfl | rfl | rfl | rfl | rfl | rfl <;> cases hr <;> cases ha
    cases hf
    rfl
  have evidence : ∀ i ∈ handmade.tree.inferences, ∀ f ∈ i.evidence, ∃ b, handmadeModel.holds f = .ok b := by
    intro i hi f hf
    have hm : f ∈ handmade.tree.inferences.flatMap (·.evidence) := List.mem_flatMap.2 ⟨i, hi, hf⟩
    change f ∈ [_, _, _, _] at hm
    simp only [List.mem_cons, List.not_mem_nil, or_false] at hm
    rcases hm with rfl | rfl | rfl | rfl <;> exact ⟨_, rfl⟩
  refine ⟨sound, closed, (paths handmadeModel).1 fun i hi hr ha f hf => ?_,
    (paths handmadeModel).2 formulas evidence⟩
  exact Interpretation.truth_of_holds (formulas i hi hr ha f hf)

end ProofTree

end SetSequent
