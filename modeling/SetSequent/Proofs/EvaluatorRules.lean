import SetSequent.Proofs.Definedness
import SetSequent.Proofs.TruthRules

/-!
# The rules of the procedure keep the results of the evaluator

The evaluator stops at the first failure, and a connective may never look at its right side. So a rule
that rearranges a formula could bring a failure to light. None does: where the evaluator has a result on
a formula, it has the same result on what a rule makes of it.

* `evaluates_unfoldMember`, `holds_unfold` — unfolding asks only about parts of sets that were evaluated.
* `holds_fold`, `holds_simplify` — constants are folded, and atoms of known value are replaced by it.
* `Interpretation.Reassigns`, `holds_subst`, `holds_eliminate` — a variable is replaced by a term of its
  value.

The converse fails: a conjunction with `false` on the right has a result after folding, even if the
evaluation of its left side fails.
-/

namespace SetSequent.Model

/-! ## Operations that give sets -/

namespace Value

variable {a b w : Value}

/-- An operation of the evaluator gives a set only on two sets. -/
theorem isSet_of_onSort {f : Int → Int → Int} {g : List Value → List Value → List Value}
    (h : onSort a b (fun m n => element (f m n)) (fun xs ys => ofList (g xs ys)) = .ok w)
    (hw : w.isSet = true) : a.isSet = true ∧ b.isSet = true := by
  rcases view_cases a with ⟨m, rfl, ha⟩ | ⟨xs, ha, _, sa⟩ <;>
    rcases view_cases b with ⟨n, rfl, hb⟩ | ⟨ys, hb, _, sb⟩
  · simp only [onSort, ha, hb] at h
    cases h
    cases hw
  · simp [onSort, ha, hb] at h
  · simp [onSort, ha, hb] at h
  · exact ⟨sa, sb⟩

theorem isSet_of_union (h : a.union b = .ok w) (hw : w.isSet = true) :
    a.isSet = true ∧ b.isSet = true :=
  isSet_of_onSort (g := (· ++ ·)) h hw

theorem isSet_of_inter (h : a.inter b = .ok w) (hw : w.isSet = true) :
    a.isSet = true ∧ b.isSet = true :=
  isSet_of_onSort (g := fun xs ys => xs.filter (ys.contains ·)) h hw

theorem isSet_of_diff (h : a.diff b = .ok w) (hw : w.isSet = true) :
    a.isSet = true ∧ b.isSet = true :=
  isSet_of_onSort (g := fun xs ys => xs.filter (!ys.contains ·)) h hw

theorem isSet_of_isMember {r : Bool} (h : a.isMember b = .ok r) : b.isSet = true := by
  rcases view_cases b with ⟨n, rfl, _⟩ | ⟨ms, _, _, hs⟩
  · cases h
  · exact hs

end Value

namespace Interpretation

variable {I J : Interpretation}

/-! ## Results of compound formulas -/

theorem holds_not {f : Formula} {b : Bool} (h : I.holds f = .ok b) : I.holds (.not f) = .ok !b := by
  rw [holds, h]
  rfl

/-- A connective keeps its result if its right side does, as far as that is looked at. -/
theorem connect_of_ok {c : Connective} {a b : Bool} {r r' : Except ModelError Bool}
    (hr : ∀ b, r = .ok b → r' = .ok b) (h : connect c a r = .ok b) : connect c a r' = .ok b := by
  cases c with
  | and | implies =>
    cases a with
    | false => exact h
    | true => exact hr b h
  | or =>
    cases a with
    | false => exact hr b h
    | true => exact h
  | iff =>
    obtain ⟨v, hv, h⟩ := ok_of_bind h
    rw [hr v hv]
    exact h

theorem holdsAtom_orient {a : Atom} {b : Bool} (h : I.holdsAtom a = .ok b) :
    I.holdsAtom a.orient = .ok b := by
  cases a with
  | eq l r =>
    rw [Atom.orient]
    split
    · obtain ⟨u, hu, h⟩ := ok_of_bind h
      obtain ⟨v, hv, h⟩ := ok_of_bind h
      cases h
      simp only [holdsAtom, hu, hv]
      exact congrArg Except.ok Bool.beq_comm
    · exact h
  | _ => exact h

/-! ## Unfolding -/

/-- The evaluator has a result on the formula. It can only be the truth. -/
def Evaluates (I : Interpretation) (f : Formula) : Prop := I.holds f = .ok (I.truth f)

namespace Evaluates

theorem of_holds {f : Formula} {b : Bool} (h : I.holds f = .ok b) : I.Evaluates f := by
  rw [Evaluates, truth_of_holds h]
  exact h

theorem not {f : Formula} (h : I.Evaluates f) : I.Evaluates (.not f) := holds_not h

theorem connect {c : Connective} {l r : Formula} (hl : I.Evaluates l) (hr : I.Evaluates r) :
    I.Evaluates (.connect c l r) := by
  rw [Evaluates, holds, hl, hr]
  exact connect_ok c _ _

end Evaluates

theorem evaluates_equation {l r : Term} {u v : Value} (hl : I.eval l = .ok u)
    (hr : I.eval r = .ok v) : I.Evaluates (.atom (Atom.eq l r).orient) := by
  have h : I.holdsAtom (.eq l r) = .ok (u == v) := by
    simp only [holdsAtom, hl, hr]
    rfl
  exact .of_holds (holdsAtom_orient h)

/-- Membership in a set can be unfolded: each part of the set was evaluated, and those that memberships
are asked in are sets. -/
theorem evaluates_unfoldMember {e : Term} {v : Value} (he : I.eval e = .ok v) : (s : Term) →
    {w : Value} → I.eval s = .ok w → w.isSet = true → I.Evaluates (unfoldMember e s)
  | .var x, w, hs, hw | .app f args, w, hs, hw => by
    refine .of_holds (b := w.members.contains v) ?_
    simp only [unfoldMember, holds, holdsAtom, he, hs]
    exact Value.isMember_of_isSet hw
  | .empty, _, _, _ => rfl
  | .singleton a, _, hs, _ => by
    simp only [eval] at hs
    obtain ⟨m, ha, _⟩ := ok_of_bind hs
    exact evaluates_equation he ha
  | .add a s, _, hs, hw => by
    simp only [eval] at hs
    obtain ⟨base, hs, hu⟩ := ok_of_bind hs
    obtain ⟨m, ha, hu⟩ := ok_of_bind hu
    have hb := (Value.isSet_of_union hu hw).1
    exact (evaluates_equation he ha).connect (evaluates_unfoldMember he s hs hb)
  | .remove a s, _, hs, hw => by
    simp only [eval] at hs
    obtain ⟨base, hs, hu⟩ := ok_of_bind hs
    obtain ⟨m, ha, hu⟩ := ok_of_bind hu
    have hb := (Value.isSet_of_diff hu hw).1
    exact (evaluates_equation he ha).not.connect (evaluates_unfoldMember he s hs hb)
  | .union s t, _, hs, hw => by
    simp only [eval] at hs
    obtain ⟨a, hs, hu⟩ := ok_of_bind hs
    obtain ⟨b, ht, hu⟩ := ok_of_bind hu
    obtain ⟨ha, hb⟩ := Value.isSet_of_union hu hw
    exact (evaluates_unfoldMember he s hs ha).connect (evaluates_unfoldMember he t ht hb)
  | .inter s t, _, hs, hw => by
    simp only [eval] at hs
    obtain ⟨a, hs, hu⟩ := ok_of_bind hs
    obtain ⟨b, ht, hu⟩ := ok_of_bind hu
    obtain ⟨ha, hb⟩ := Value.isSet_of_inter hu hw
    exact (evaluates_unfoldMember he s hs ha).connect (evaluates_unfoldMember he t ht hb)
  | .diff s t, _, hs, hw => by
    simp only [eval] at hs
    obtain ⟨a, hs, hu⟩ := ok_of_bind hs
    obtain ⟨b, ht, hu⟩ := ok_of_bind hu
    obtain ⟨ha, hb⟩ := Value.isSet_of_diff hu hw
    exact (evaluates_unfoldMember he s hs ha).connect (evaluates_unfoldMember he t ht hb).not

theorem holds_unfoldMember {e s : Term} {b : Bool} (h : I.holdsAtom (.mem e s) = .ok b) :
    I.holds (unfoldMember e s) = .ok b := by
  have same : I.truth (unfoldMember e s) = b :=
    (truth_unfoldMember e s).trans (truthAtom_of_holdsAtom h)
  obtain ⟨v, he, h⟩ := ok_of_bind h
  obtain ⟨w, hs, h⟩ := ok_of_bind h
  have result : I.Evaluates (unfoldMember e s) :=
    evaluates_unfoldMember he s hs (Value.isSet_of_isMember h)
  rw [← same]
  exact result

/-- **Unfolding keeps the result of the evaluator.** -/
theorem holds_unfold {f : Formula} {b : Bool} (h : I.holds f = .ok b) :
    I.holds f.unfold = .ok b := by
  induction f generalizing b with
  | top | bot | all => exact h
  | atom a =>
    cases a with
    | mem e s => exact holds_unfoldMember h
    | _ => exact holdsAtom_orient h
  | not f ih =>
    obtain ⟨v, hv, h⟩ := ok_of_bind h
    cases h
    exact holds_not (ih hv)
  | connect c l r ihl ihr =>
    obtain ⟨v, hv, h⟩ := ok_of_bind h
    simp only [Formula.unfold, holds, ihl hv]
    exact connect_of_ok (fun _ => ihr) h

/-! ## Replacement of a variable -/

/-- `J` has the symbols of `I` and gives the same values to all variables but `x`, which has in `J` the
value of `r` in `I`. -/
structure Reassigns (I J : Interpretation) (x : String) (r : Term) : Prop where
  functions : J.functions = I.functions
  predicates : J.predicates = I.predicates
  replaced : ∀ v, J.lookup x = .ok v → I.eval r = .ok v
  others : ∀ y, y ≠ x → J.lookup y = I.lookup y

section Replacement

variable {x : String} {r : Term} (hr : I.Reassigns J x r)

mutual

theorem eval_subst (hr : I.Reassigns J x r) : (t : Term) → {v : Value} → J.eval t = .ok v →
    I.eval (t.subst x r) = .ok v
  | .var y, v, h => by
    simp only [eval] at h
    by_cases hy : y = x
    · subst hy
      rw [Term.subst, if_pos rfl]
      exact hr.replaced v h
    · rw [Term.subst, if_neg hy, eval, ← hr.others y hy]
      exact h
  | .app f args, v, h => by
    simp only [eval] at h
    split at h
    · cases h
    · rename_i g hg
      obtain ⟨vs, hvs, h⟩ := ok_of_bind h
      have hargs := evalAll_subst hr args hvs
      rw [Term.listSubst_eq_map] at hargs
      simp only [Term.subst, Term.listSubst_eq_map, eval, List.length_map, ← hr.functions, hg, hargs]
      exact h
  | .empty, v, h => by
    simp only [eval] at h
    simpa only [Term.subst, eval] using h
  | .singleton e, v, h => by
    simp only [eval] at h
    obtain ⟨a, ha, h⟩ := ok_of_bind h
    simp only [Term.subst, eval, eval_subst hr e ha]
    exact h
  | .add a b, v, h | .remove a b, v, h => by
    simp only [eval] at h
    obtain ⟨u, hu, h⟩ := ok_of_bind h
    obtain ⟨w, hw, h⟩ := ok_of_bind h
    simp only [Term.subst, eval, eval_subst hr b hu, eval_subst hr a hw]
    exact h
  | .union a b, v, h | .inter a b, v, h | .diff a b, v, h => by
    simp only [eval] at h
    obtain ⟨u, hu, h⟩ := ok_of_bind h
    obtain ⟨w, hw, h⟩ := ok_of_bind h
    simp only [Term.subst, eval, eval_subst hr a hu, eval_subst hr b hw]
    exact h

theorem evalAll_subst (hr : I.Reassigns J x r) : (ts : List Term) → {vs : List Value} →
    J.evalAll ts = .ok vs → I.evalAll (Term.listSubst ts x r) = .ok vs
  | [], vs, h => by
    simp only [evalAll] at h
    simpa only [Term.listSubst, evalAll] using h
  | t :: ts, vs, h => by
    simp only [evalAll] at h
    obtain ⟨a, ha, h⟩ := ok_of_bind h
    obtain ⟨as, has, h⟩ := ok_of_bind h
    simp only [Term.listSubst, evalAll, eval_subst hr t ha, evalAll_subst hr ts has]
    exact h

end

include hr

theorem holdsAtom_subst {a : Atom} {b : Bool} (h : J.holdsAtom a = .ok b) :
    I.holdsAtom (a.mapArgs (·.subst x r)) = .ok b := by
  cases a with
  | eq s t | setEq s t | mem s t | subset s t =>
    obtain ⟨u, hu, h⟩ := ok_of_bind h
    obtain ⟨v, hv, h⟩ := ok_of_bind h
    simp only [Atom.mapArgs, holdsAtom, eval_subst hr s hu, eval_subst hr t hv]
    exact h
  | isEmpty s =>
    obtain ⟨u, hu, h⟩ := ok_of_bind h
    simp only [Atom.mapArgs, holdsAtom, eval_subst hr s hu]
    exact h
  | pred p args =>
    obtain ⟨vs, hvs, h⟩ := ok_of_bind h
    have hargs := evalAll_subst hr args hvs
    rw [Term.listSubst_eq_map] at hargs
    simp only [Atom.mapArgs, holdsAtom, hargs, ← hr.predicates]
    exact h

theorem holds_subst {f : Formula} (hf : f.Every fun _ => True) {b : Bool} (h : J.holds f = .ok b) :
    I.holds (f.subst x r) = .ok b := by
  induction f generalizing b with
  | top | bot => exact h
  | atom a => exact holdsAtom_subst hr h
  | not f ih =>
    obtain ⟨v, hv, h⟩ := ok_of_bind h
    cases h
    exact holds_not (ih hf hv)
  | connect c f g ihf ihg =>
    obtain ⟨v, hv, h⟩ := ok_of_bind h
    simp only [Formula.subst, holds, ihf hf.1 hv]
    exact connect_of_ok (fun _ => ihg hf.2) h
  | all y f => exact hf.elim

theorem holds_eliminate {f : Formula} (hf : f.Every fun _ => True) {b : Bool}
    (h : J.holds f = .ok b) : I.holds (f.eliminate x r) = .ok b :=
  holds_unfold (holds_subst hr hf h)

end Replacement

/-! ## Evaluation under literals -/

theorem holds_foldNot {f : Formula} {b : Bool} (h : I.holds (.not f) = .ok b) :
    I.holds f.foldNot = .ok b := by
  unfold Formula.foldNot
  split <;> exact h

/-- Folding of constants keeps the result. The cases are those of the folds: a constant that decides on
the left and on the right, one that leaves the other side, on the left and on the right, and no
constant. -/
theorem holds_fold {c : Connective} {l r : Formula} {b : Bool}
    (h : I.holds (.connect c l r) = .ok b) : I.holds (Formula.fold c l r) = .ok b := by
  obtain ⟨a, ha, hc⟩ := ok_of_bind h
  cases c with
  | and | or =>
    simp only [Formula.fold, Formula.foldAnd, Formula.foldOr]
    split
    · cases ha; exact hc
    · cases a <;> exact hc
    · cases ha; exact hc
    · cases a <;> cases hc <;> exact ha
    · exact h
  | implies =>
    simp only [Formula.fold, Formula.foldImplies]
    split
    · cases ha; exact hc
    · cases a <;> exact hc
    · cases ha; exact hc
    · cases a <;> cases hc <;> exact holds_not ha
    · exact h
  | iff =>
    -- Here no constant decides: `true` leaves the other side, and `false` its negation.
    obtain ⟨v, hv, hc⟩ := ok_of_bind hc
    cases hc
    simp only [Formula.fold, Formula.foldIff]
    split
    · cases ha; cases v <;> exact hv
    · cases hv; cases a <;> exact ha
    · cases ha; cases v <;> exact holds_not hv
    · cases hv; cases a <;> exact holds_not ha
    · exact h

section Known

variable {trues falses : List Atom} (ht : ∀ a ∈ trues, I.holdsAtom a = .ok true)
  (hf : ∀ a ∈ falses, I.holdsAtom a = .ok false)

include ht hf

/-- An atom is looked up in its oriented form, which has the result of the atom. -/
theorem holds_simplify_atom {a : Atom} {b : Bool} (h : I.holdsAtom a = .ok b) :
    I.holds (Formula.simplify trues falses (.atom a)) = .ok b := by
  have oriented : I.holdsAtom a.orient = .ok b := holdsAtom_orient h
  rw [Formula.simplify]
  split
  · rename_i known
    have hb : b = true := by
      rcases Bool.or_eq_true_iff.1 known with reflexive | listed
      · rw [← truthAtom_of_holdsAtom oriented]
        exact truthAtom_of_isReflexive reflexive
      · rw [ht _ (List.contains_iff_mem.1 listed)] at oriented
        exact (Except.ok.inj oriented).symm
    rw [hb]
    rfl
  · split
    · rename_i listed
      rw [hf _ (List.contains_iff_mem.1 listed)] at oriented
      rw [← Except.ok.inj oriented]
      rfl
    · exact oriented

theorem holds_simplify_of_ok {f : Formula} {b : Bool} (h : I.holds f = .ok b) :
    I.holds (f.simplify trues falses) = .ok b := by
  induction f generalizing b with
  | top | bot | all => exact h
  | atom a => exact holds_simplify_atom ht hf h
  | not f ih =>
    obtain ⟨v, hv, h⟩ := ok_of_bind h
    cases h
    exact holds_foldNot (holds_not (ih hv))
  | connect c l r ihl ihr =>
    obtain ⟨v, hv, h⟩ := ok_of_bind h
    refine holds_fold ?_
    simp only [holds, ihl hv]
    exact connect_of_ok (fun _ => ihr) h

/-- **Partial evaluation is sound.** Let all of `trues` hold and all of `falses` fail. Where a formula has
a result, what is left of it has the same; on a formula whose names and symbols have a meaning and whose
operations are applied to sets the two evaluations agree; and where the evaluation of the formula fails
but that of the rest does not, the rest has the result of the completed evaluator on the formula. The
formula may have quantifiers, which are not looked into, and the atoms of the lists need not be
oriented. -/
theorem holds_simplify (f : Formula) :
    (∀ b, I.holds f = .ok b → I.holds (f.simplify trues falses) = .ok b) ∧
      (I.Interprets f → I.holds (f.simplify trues falses) = I.holds f) ∧
      ∀ b, I.holds (f.simplify trues falses) = .ok b → I.truth f = b := by
  refine ⟨fun b h => holds_simplify_of_ok ht hf h, fun hi => ?_, fun b h => ?_⟩
  · have result := holds_of_interprets hi
    rw [result]
    exact holds_simplify_of_ok ht hf result
  · have trues : ∀ a ∈ trues, I.truthAtom a = true := fun a ha => truthAtom_of_holdsAtom (ht a ha)
    have falses : ∀ a ∈ falses, I.truthAtom a = false := fun a ha => truthAtom_of_holdsAtom (hf a ha)
    rw [← truth_simplify trues falses f]
    exact truth_of_holds h

end Known

/-- Whether `y` and `x` are equal exactly if `s` holds `x` and everything. -/
def partlyKnown : Formula :=
  .iff (.atom (.eq (.var "y") (.var "x")))
    (.and (.atom (.mem (.var "x") (.var "s"))) (.all "z" (.atom (.mem (.var "z") (.var "s")))))

/-- `x` is `0`, `y` is `1`, and `s` holds `0`. -/
def partlyKnownModel : Interpretation where
  domain := [0, 1]
  elements := [("x", 0), ("y", 1)]
  sets := [("s", .ofInts [0])]

/-- With `x` in `s` and `x` unequal to `y`, the negated quantification is left. -/
theorem holds_simplify_partlyKnown :
    (∀ a ∈ [Atom.mem (.var "x") (.var "s")], partlyKnownModel.holdsAtom a = .ok true) ∧
      (∀ a ∈ [Atom.eq (.var "x") (.var "y")], partlyKnownModel.holdsAtom a = .ok false) ∧
      partlyKnown.simplify [.mem (.var "x") (.var "s")] [.eq (.var "x") (.var "y")] =
        .not (.all "z" (.atom (.mem (.var "z") (.var "s")))) ∧
      partlyKnownModel.holds (.not (.all "z" (.atom (.mem (.var "z") (.var "s"))))) = .ok true := by
  have trues : ∀ a ∈ [Atom.mem (.var "x") (.var "s")], partlyKnownModel.holdsAtom a = .ok true :=
    List.forall_mem_singleton.2 rfl
  have falses : ∀ a ∈ [Atom.eq (.var "x") (.var "y")], partlyKnownModel.holdsAtom a = .ok false :=
    List.forall_mem_singleton.2 rfl
  have left : partlyKnown.simplify [.mem (.var "x") (.var "s")] [.eq (.var "x") (.var "y")] =
      .not (.all "z" (.atom (.mem (.var "z") (.var "s")))) := by
    decide
  refine ⟨trues, falses, left, ?_⟩
  rw [← left]
  exact (holds_simplify trues falses partlyKnown).1 true rfl

end Interpretation

end SetSequent.Model
