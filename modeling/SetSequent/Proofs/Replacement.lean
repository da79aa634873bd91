import SetSequent.Proofs.Drafts
import SetSequent.Proofs.NameDependence

/-!
# Replacement of a variable and its value

To replace a variable by a term is to give it the value of the term. Under quantifiers this has two
conditions. Replacement does not rename, so no quantifier over a free occurrence of the variable may bind a
variable of the term. And where the variable also occurs bound, it must not become a set or stop being one,
since a set hides a bound variable.

* `Formula.enclosing` — the variables of the quantifiers over the free occurrences of a variable.
* `toOption_eval_subst`, `toOption_holdsAtom_subst` — the values of terms and atoms. A failure names the
  application that has no meaning, so failures are compared without their cause.
* `holds_replace_iff` — the answers after the replacement are those for the new value.
* `holds_replace_captured` — neither condition can be left out.
-/

namespace SetSequent

/-! ## Free occurrences -/

/-- The variables of the quantifiers that stand over a free occurrence of `x`, with repetitions. -/
def Formula.enclosing (x : String) : Formula → List String
  | .top | .bot | .atom _ => []
  | .not f => f.enclosing x
  | .connect _ l r => l.enclosing x ++ r.enclosing x
  | .all y f => if x ∈ (Formula.all y f).freeVars then y :: f.enclosing x else []

theorem Term.subst_of_not_mem {x : String} {r : Term} {t : Term} (h : x ∉ t.vars) :
    t.subst x r = t := by
  induction t using Term.children_induction with
  | step t ih =>
    have child : ∀ c ∈ t.children, c.subst x r = c := fun c hc => ih c hc fun hx =>
      h (t.mem_vars_iff.2 (.tail _ (Term.mem_subterms_of_child hc (c.mem_vars_iff.1 hx))))
    cases t with
    | var y =>
      have hy : y ≠ x := by
        rintro rfl
        exact h (.head _)
      simp [subst, hy]
    | app g args =>
      have same : args.map (·.subst x r) = args := (List.map_congr_left child).trans (List.map_id' args)
      rw [subst, listSubst_eq_map, same]
    | empty => rfl
    | singleton e => simp only [subst, child e (.head _)]
    | add a b | remove a b | union a b | inter a b | diff a b =>
      simp only [subst, child a (.head _), child b (.tail _ (.head _))]

theorem Atom.subst_of_not_mem {x : String} {r : Term} {a : Atom} (h : x ∉ a.vars) :
    a.mapArgs (·.subst x r) = a := by
  have args : ∀ t ∈ a.args, t.subst x r = t := fun t ht =>
    Term.subst_of_not_mem fun hx => h (List.mem_flatMap.2 ⟨t, ht, hx⟩)
  cases a with
  | eq s t | mem s t | subset s t | setEq s t =>
    simp only [mapArgs, args s (.head _), args t (.tail _ (.head _))]
  | isEmpty s => simp only [mapArgs, args s (.head _)]
  | pred p ts =>
    have same : ts.map (·.subst x r) = ts := (List.map_congr_left args).trans (List.map_id' ts)
    rw [mapArgs, same]

theorem Formula.subst_of_not_mem {x : String} {r : Term} {f : Formula} (h : x ∉ f.freeVars) :
    f.subst x r = f := by
  induction f with
  | top | bot => rfl
  | atom a => rw [subst, Atom.subst_of_not_mem h]
  | not f ih => rw [subst, ih h]
  | connect c l r ihl ihr =>
    rw [freeVars, List.mem_append, not_or] at h
    rw [subst, ihl h.1, ihr h.2]
  | all y f ih =>
    rw [subst]
    split
    · rfl
    · rename_i hy
      rw [ih fun hx => h (List.mem_filter.2 ⟨hx, by simpa using Ne.symm hy⟩)]

namespace Model.Interpretation

variable {I J : Interpretation} {x : String} {r : Term} {v : Value}

/-! ## Results without the cause of a failure -/

theorem toOption_bind {ε α β : Type} {a : Except ε α} {k : α → Except ε β} :
    (a >>= k).toOption = a.toOption.bind fun v => (k v).toOption := by
  cases a <;> rfl

theorem toOption_connect {c : Connective} {a : Bool} {b b' : Except ModelError Bool}
    (h : b.toOption = b'.toOption) : (connect c a b).toOption = (connect c a b').toOption := by
  cases c <;> cases a <;> simp only [connect, toOption_bind, h]

theorem toOption_allM {α : Type} {xs : List α} {p q : α → Except ModelError Bool}
    (h : ∀ x ∈ xs, (p x).toOption = (q x).toOption) : (xs.allM p).toOption = (xs.allM q).toOption := by
  induction xs with
  | nil => rfl
  | cons x xs ih =>
    have rest := ih fun y hy => h y (.tail _ hy)
    simp only [List.allM, toOption_bind, h x (.head _)]
    congr 1
    funext b
    cases b with
    | false => rfl
    | true => exact rest

theorem ok_iff_of_toOption {α : Type} {a b : Except ModelError α} (h : a.toOption = b.toOption) (v : α) :
    a = .ok v ↔ b = .ok v := by
  cases a <;> cases b <;> simp_all [Except.toOption]

/-! ## Terms and atoms -/

section Value

variable (hr : I.eval r = .ok v)

theorem toOption_evalAll_subst {ts : List Term}
    (h : ∀ t ∈ ts, (I.eval (t.subst x r)).toOption = ((I.assign x v).eval t).toOption) :
    (I.evalAll (ts.map (·.subst x r))).toOption = ((I.assign x v).evalAll ts).toOption := by
  induction ts with
  | nil => simp only [List.map_nil, evalAll]
  | cons t ts ih =>
    have rest := ih fun u hu => h u (.tail _ hu)
    simp only [List.map_cons, evalAll, toOption_bind, h t (.head _), rest]

include hr

theorem toOption_eval_subst (t : Term) :
    (I.eval (t.subst x r)).toOption = ((I.assign x v).eval t).toOption := by
  induction t using Term.children_induction with
  | step t ih =>
    cases t with
    | var y =>
      by_cases hy : y = x
      · simp only [Term.subst, eval, lookup_assign, if_pos hy, hr]
      · simp only [Term.subst, eval, lookup_assign, if_neg hy]
    | app g args =>
      have values := toOption_evalAll_subst ih
      simp only [Term.children] at values
      simp only [Term.subst, Term.listSubst_eq_map, eval, List.length_map, functions_assign]
      cases I.functions g args.length with
      | none => rfl
      | some k => simp only [toOption_bind, values]
    | empty => simp only [Term.subst, eval]
    | singleton e => simp only [Term.subst, eval, toOption_bind, ih e (.head _)]
    | add a b | remove a b | union a b | inter a b | diff a b =>
      simp only [Term.subst, eval, toOption_bind, ih a (.head _), ih b (.tail _ (.head _))]

theorem toOption_holdsAtom_subst (a : Atom) :
    (I.holdsAtom (a.mapArgs (·.subst x r))).toOption = ((I.assign x v).holdsAtom a).toOption := by
  have values := toOption_eval_subst (x := x) hr
  cases a with
  | eq s t | mem s t | subset s t | setEq s t | isEmpty s =>
    simp only [Atom.mapArgs, holdsAtom, toOption_bind, values]
  | pred p args =>
    simp only [Atom.mapArgs, holdsAtom, toOption_bind, toOption_evalAll_subst fun t _ => values t,
      predicates_assign]

end Value

/-! ## Formulas -/

theorem sets_assign_bind (y : String) (n : Int) : ((I.bind y n).assign x v).sets = (I.assign x v).sets := by
  unfold assign
  split <;> rfl

theorem sets_lookup_assign_of_ne {y : String} (h : y ≠ x) :
    (I.assign x v).sets.lookup y = I.sets.lookup y := by
  unfold assign
  split
  · rw [lookup_filter, if_neg h]
  · exact lookup_cons_of_ne h

/-- A new value of `x` does not matter to a formula in which `x` is not free, if it leaves `x` the set that
it was, or no set, as far as `x` occurs bound. -/
theorem sameReading_assign {f : Formula} (free : x ∉ f.freeVars)
    (bound : x ∈ f.boundVars → (I.assign x v).sets.lookup x = I.sets.lookup x) :
    I.SameReading (I.assign x v) f where
  domain := (domain_assign ..).symm
  predicates := (predicates_assign ..).symm
  functions _ _ _ := by rw [functions_assign]
  names y hy := by
    have other : y ≠ x := by
      rintro rfl
      exact free hy
    rw [lookup_assign, if_neg other]
  binders y hy := by
    by_cases he : y = x
    · subst he
      exact (bound hy).symm
    · exact (sets_lookup_assign_of_ne he).symm

/-- A quantifier over another variable may be entered before or after `x` gets its value. -/
theorem sameReading_assign_bind {y : String} (h : y ≠ x) (n : Int) (f : Formula) :
    ((I.bind y n).assign x v).SameReading ((I.assign x v).bind y n) f where
  domain := (domain_assign ..).trans (domain_assign I x v).symm
  predicates := (predicates_assign ..).trans (predicates_assign I x v).symm
  functions g args _ := by
    change _ = (I.assign x v).functions g args.length
    rw [functions_assign, functions_assign]
    rfl
  names z _ := by
    rw [lookup_assign]
    by_cases hz : z = y
    · subst hz
      rw [if_neg h]
      exact lookup_bind_congr (sets_lookup_assign_of_ne h).symm n
    · rw [lookup_bind_of_ne hz, lookup_bind_of_ne hz, lookup_assign]
  binders z _ := by
    rw [sets_assign_bind]
    rfl

/-- The induction is on the formula, for all interpretations: a quantifier over a free occurrence of `x`
leaves the term its value, since it binds none of its variables. -/
theorem toOption_holds_subst {f : Formula} (hr : I.eval r = .ok v)
    (uncaptured : ∀ y ∈ f.enclosing x, y ∉ r.vars)
    (bound : x ∈ f.boundVars → (I.assign x v).sets.lookup x = I.sets.lookup x) :
    (I.holds (f.subst x r)).toOption = ((I.assign x v).holds f).toOption := by
  induction f generalizing I with
  | top | bot => rfl
  | atom a => exact toOption_holdsAtom_subst hr a
  | not f ih => simp only [Formula.subst, holds, toOption_bind, ih hr uncaptured bound]
  | connect c l r ihl ihr =>
    have left := ihl hr (fun y hy => uncaptured y (List.mem_append_left _ hy))
      fun hx => bound (List.mem_append_left _ hx)
    have right := ihr hr (fun y hy => uncaptured y (List.mem_append_right _ hy))
      fun hx => bound (List.mem_append_right _ hx)
    simp only [Formula.subst, holds, toOption_bind, left, toOption_connect right]
  | all y f ih =>
    by_cases free : x ∈ (Formula.all y f).freeVars
    · have other : y ≠ x := by
        rintro rfl
        simp [Formula.freeVars] at free
      simp only [Formula.enclosing, if_pos free, List.mem_cons, forall_eq_or_imp] at uncaptured
      simp only [Formula.subst, if_neg other, holds, domain_assign]
      refine toOption_allM fun n _ => ?_
      have value : (I.bind y n).eval r = .ok v := by
        rw [← hr]
        refine eval_congr (fun z hz => lookup_bind_of_ne ?_ n) fun _ _ _ => rfl
        rintro rfl
        exact uncaptured.1 hz
      rw [ih value uncaptured.2 fun hx => ?_, holds_congr (sameReading_assign_bind other n f)]
      rw [sets_assign_bind]
      exact bound (List.mem_append_right _ hx)
    · rw [Formula.subst_of_not_mem free, holds_congr (sameReading_assign free bound)]

/-- **Replacement and reassignment.** Let a term have a value, let no quantifier over a free occurrence of
`x` bind a variable of the term, and, if `x` also occurs bound, let `x` denote the same set with its new
value as before, or no set both times. Then `x` can be replaced by the term, and the evaluator has an answer
on the result exactly if it has one on the formula with that value for `x`, and it is the same. -/
theorem holds_replace_iff {f : Formula} (hr : I.eval r = .ok v)
    (uncaptured : ∀ y ∈ f.enclosing x, y ∉ r.vars)
    (bound : x ∈ f.boundVars → (I.assign x v).sets.lookup x = I.sets.lookup x) :
    ∃ g, Node.replace (.formula f) (.term (.var x)) (.term r) = .ok (.formula g) ∧
      ∀ b, I.holds g = .ok b ↔ (I.assign x v).holds f = .ok b :=
  ⟨f.subst x r, Node.replace_var f x r,
    ok_iff_of_toOption (toOption_holds_subst hr uncaptured bound)⟩

/-- `x` is all there is outside of `s`, and everything is in `u`: one occurrence of `x` is free and one is
bound. -/
def freeAndBound : Formula :=
  .and
    (.all "y" (.or (.atom (.eq (.var "x") (.var "y"))) (.atom (.mem (.var "y") (.var "s")))))
    (.all "x" (.atom (.mem (.var "x") (.var "u"))))

def freeAndBoundModel : Interpretation where
  domain := [0, 1]
  elements := [("z", 0)]
  sets := [("s", .ofInts [1]), ("u", .ofInts [0, 1])]

theorem holds_replace_iff_freeAndBound :
    freeAndBoundModel.eval (.var "z") = .ok (.element 0) ∧
      (∀ y ∈ freeAndBound.enclosing "x", y ∉ (Term.var "z").vars) ∧
      "y" ∈ freeAndBound.enclosing "x" ∧ "x" ∈ freeAndBound.boundVars ∧
      (freeAndBoundModel.assign "x" (.element 0)).sets.lookup "x" =
        freeAndBoundModel.sets.lookup "x" ∧
      ∃ g, Node.replace (.formula freeAndBound) (.term (.var "x")) (.term (.var "z")) = .ok (.formula g) ∧
        freeAndBoundModel.holds g = .ok true := by
  have value : freeAndBoundModel.eval (.var "z") = .ok (.element 0) := rfl
  have uncaptured : ∀ y ∈ freeAndBound.enclosing "x", y ∉ (Term.var "z").vars := by decide
  have bound : (freeAndBoundModel.assign "x" (.element 0)).sets.lookup "x" =
      freeAndBoundModel.sets.lookup "x" := rfl
  obtain ⟨g, replaced, same⟩ := holds_replace_iff value uncaptured fun _ => bound
  exact ⟨value, uncaptured, by decide, by decide, bound, g, replaced, (same true).2 rfl⟩

/-- Everything equals `x`. -/
def allEqualX : Formula := .all "y" (.atom (.eq (.var "x") (.var "y")))

def twoElements : Interpretation where
  domain := [0, 1]
  elements := [("y", 0)]

/-- **Neither condition can be left out.** A quantifier captures the variable that replaces `x`: everything
equals `y` inside of it. And a variable that occurs bound only is not replaced, but is hidden by a set as its
new value. -/
theorem holds_replace_captured :
    (twoElements.eval (.var "y") = .ok (.element 0) ∧
        (∃ g, Node.replace (.formula allEqualX) (.term (.var "x")) (.term (.var "y")) =
            .ok (.formula g) ∧ twoElements.holds g = .ok true) ∧
        (twoElements.assign "x" (.element 0)).holds allEqualX = .ok false) ∧
      fullS.eval .empty = .ok (.ofList []) ∧
      (∃ g, Node.replace (.formula allInS) (.term (.var "x")) (.term .empty) = .ok (.formula g) ∧
        fullS.holds g = .ok true) ∧
      (fullS.assign "x" (.ofList [])).holds allInS = .ok false :=
  ⟨⟨rfl, ⟨_, Node.replace_var .., rfl⟩, rfl⟩, rfl, ⟨_, Node.replace_var .., rfl⟩, rfl⟩

end Model.Interpretation

end SetSequent
