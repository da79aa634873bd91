import SetSequent.Journal
import SetSequent.Sequent

/-!
# Unfolding of memberships

* `unfoldMember?` — one step: membership in a compound set says something about its parts.
* `Formula.unfold` — all steps: afterwards every container is a variable or an application and every
  equation is oriented. Set relations and quantifiers are left alone.
* `Formula.eliminate` — replaces a variable and unfolds the result.
-/

namespace SetSequent

/-- What membership of `e` in a compound set means; nothing for a variable or an application. -/
def unfoldMember? (e : Term) : Term → Option Formula
  | .var _ | .app .. => none
  | .empty => some .bot
  | .singleton a => some (.atom (.eq e a))
  | .add a s => some (.or (.atom (.eq e a)) (.atom (.mem e s)))
  | .remove a s => some (.and (.not (.atom (.eq e a))) (.atom (.mem e s)))
  | .union s t => some (.or (.atom (.mem e s)) (.atom (.mem e t)))
  | .inter s t => some (.and (.atom (.mem e s)) (.atom (.mem e t)))
  | .diff s t => some (.and (.atom (.mem e s)) (.not (.atom (.mem e t))))

/-- Membership of `e` in a set, unfolded down to variables and applications. -/
def unfoldMember (e : Term) : Term → Formula
  | .var x => .atom (.mem e (.var x))
  | .app f args => .atom (.mem e (.app f args))
  | .empty => .bot
  | .singleton a => .atom (Atom.eq e a).orient
  | .add a s => .or (.atom (Atom.eq e a).orient) (unfoldMember e s)
  | .remove a s => .and (.not (.atom (Atom.eq e a).orient)) (unfoldMember e s)
  | .union s t => .or (unfoldMember e s) (unfoldMember e t)
  | .inter s t => .and (unfoldMember e s) (unfoldMember e t)
  | .diff s t => .and (unfoldMember e s) (.not (unfoldMember e t))

namespace Formula

def unfold : Formula → Formula
  | .atom (.mem e s) => unfoldMember e s
  | .atom a => .atom a.orient
  | .not f => .not f.unfold
  | .connect c l r => .connect c l.unfold r.unfold
  | f => f

/-- Replaces the variable `x` by `t` and unfolds what the replacement brought. -/
def eliminate (x : String) (t : Term) (f : Formula) : Formula := (f.subst x t).unfold

theorem mem_freeVars_unfoldMember {x : String} {e s : Term}
    (h : x ∈ (unfoldMember e s).freeVars) : x ∈ e.vars ∨ x ∈ s.vars := by
  induction s using unfoldMember.induct with
  | case1 | case2 => simpa [unfoldMember, freeVars] using h
  | case3 => simp [unfoldMember, freeVars] at h
  | case4 a => simpa [unfoldMember, freeVars, Atom.mem_vars_orient, Term.vars] using h
  | case5 a s ih | case6 a s ih =>
    simp only [unfoldMember, freeVars, Atom.mem_vars_orient, Atom.mem_vars_eq, Term.vars,
      List.mem_append] at h ⊢
    rcases h with h | h
    · exact h.imp_right .inl
    · exact (ih h).imp_right .inr
  | case7 s t ihs iht | case8 s t ihs iht | case9 s t ihs iht =>
    simp only [unfoldMember, freeVars, Term.vars, List.mem_append] at h ⊢
    rcases h with h | h
    · exact (ihs h).imp_right .inl
    · exact (iht h).imp_right .inr

theorem mem_freeVars_unfold {x : String} {f : Formula} (h : x ∈ f.unfold.freeVars) :
    x ∈ f.freeVars := by
  induction f using unfold.induct with
  | case1 e s =>
    simpa [freeVars] using mem_freeVars_unfoldMember h
  | case2 a ha =>
    cases a <;> first
      | exact Atom.mem_vars_orient.1 h
      | exact absurd rfl (ha _ _)
  | case3 f ih => exact ih h
  | case4 c l r ihl ihr =>
    simp only [unfold, freeVars, List.mem_append] at h ⊢
    exact h.imp ihl ihr
  | case5 f => simpa [unfold] using h

/-- Elimination leaves no free occurrence of the variable, and brings only variables of the term. -/
theorem mem_freeVars_eliminate {x y : String} {t : Term} {f : Formula}
    (h : y ∈ (f.eliminate x t).freeVars) : (y ∈ f.freeVars ∧ y ≠ x) ∨ y ∈ t.vars :=
  mem_freeVars_subst (mem_freeVars_unfold h)

end Formula

namespace Sequent

/-- Changes the formula of each hypothesis and the goal, and notes each change under the stage. -/
def mapFormulas (stage : String) (g : Formula → Noted Formula) (s : Sequent) : Noted Sequent := do
  let hypotheses ← onHypotheses s.hypotheses
  let goal ← g s.goal
  if goal ≠ s.goal then noteStep stage ("goal: " ++ goal.text)
  return ⟨hypotheses, goal⟩
where
  onHypotheses : List Hypothesis → Noted (List Hypothesis)
    | [] => return []
    | h :: rest => do
      let f ← g h.formula
      if f ≠ h.formula then noteStep stage (h.name ++ ": " ++ f.text)
      return { h with formula := f } :: (← onHypotheses rest)

def unfold (s : Sequent) : Noted Sequent := s.mapFormulas "rewrite" fun f => return f.unfold

end Sequent

end SetSequent
