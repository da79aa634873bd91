import SetSequent.Draft
import SetSequent.Proofs.Positions

/-!
# Drafts of formulas

Replacement works on drafts, and checks what it has made. On terms in the place of variables the check never
fails.

* `build_toDraft` — the draft of a formula has no fault, and what it builds is the formula.
* `draftReplacing_var` — the draft in which a term stands for a variable is the draft of the formula in which
  the term replaces the variable.
* `Node.replace_var` — so the replacement of a variable by a term never fails on a formula, and gives what
  `Formula.subst` gives.
-/

namespace SetSequent

namespace Draft

theorem firstFault?_eq_none {ds : List Draft} (h : ∀ d ∈ ds, d.fault? = none) :
    firstFault? ds = none := by
  induction ds with
  | nil => simp only [firstFault?]
  | cons d ds ih => simp [firstFault?, h d (.head _), ih fun e he => h e (.tail _ he)]

/-- A node whose operands are without fault and of the right kinds is without fault. -/
theorem fault?_node {s : Shape} {ds : List Draft} (operands : ∀ d ∈ ds, d.fault? = none)
    (own : ownFault? s ds = none) : (Draft.node s ds).fault? = none := by
  rw [fault?, firstFault?_eq_none operands, own]
  rfl

theorem toTerms?_map {ts : List Term} (h : ∀ t ∈ ts, t.toDraft.toTerm? = some t) :
    toTerms? (ts.map Term.toDraft) = some ts := by
  induction ts with
  | nil => simp only [List.map_nil, toTerms?]
  | cons t ts ih => simp [toTerms?, h t (.head _), ih fun u hu => h u (.tail _ hu)]

end Draft

open Draft

/-! ## Terms -/

namespace Term

theorem listDraftWith_eq_map (cut : Term → Option Draft) (ts : List Term) :
    listDraftWith cut ts = ts.map (draftWith cut) := by
  induction ts with
  | nil => rfl
  | cons t ts ih => rw [listDraftWith, ih, List.map_cons]

theorem toDraft_app (g : String) (args : List Term) :
    (Term.app g args).toDraft = .node .app (.text g :: args.map toDraft) := by
  rw [toDraft, draftWith, listDraftWith_eq_map]
  rfl

theorem hasKind_toDraft (t : Term) : t.toDraft.hasKind .term = true := by
  cases t <;> rfl

/-- A shape that takes a name and terms finds no fault with the drafts of terms. -/
theorem fault?_nameAndTerms {s : Shape} (hs : s.signature = .nameAndTerms) (g : String) {ts : List Term}
    (h : ∀ t ∈ ts, t.toDraft.fault? = none) :
    (Draft.node s (.text g :: ts.map toDraft)).fault? = none := by
  refine fault?_node (List.forall_mem_cons.2 ⟨by simp only [fault?], List.forall_mem_map.2 h⟩) ?_
  simp [ownFault?, hs, hasKind_toDraft]

/-- Nor does a shape that takes as many terms as there are. -/
theorem fault?_terms {s : Shape} (ts : List Term)
    (hs : s.signature = .operands (ts.map fun _ => .term)) (h : ∀ t ∈ ts, t.toDraft.fault? = none) :
    (Draft.node s (ts.map toDraft)).fault? = none := by
  refine fault?_node (List.forall_mem_map.2 h) ?_
  simp only [ownFault?, hs, List.length_map, if_true, List.zip_map', List.findSome?_eq_none_iff,
    List.forall_mem_map, hasKind_toDraft, implies_true]

theorem fault?_toDraft (t : Term) : t.toDraft.fault? = none := by
  induction t using children_induction with
  | step t ih =>
    cases t with
    | var x => exact fault?_node (List.forall_mem_singleton.2 (by simp only [fault?])) rfl
    | app g args =>
      rw [toDraft_app]
      exact fault?_nameAndTerms rfl g ih
    | empty => exact fault?_terms [] rfl ih
    | singleton e => exact fault?_terms [e] rfl ih
    | add a b | remove a b | union a b | inter a b | diff a b => exact fault?_terms [a, b] rfl ih

theorem toTerm?_toDraft (t : Term) : t.toDraft.toTerm? = some t := by
  induction t using children_induction with
  | step t ih =>
    cases t with
    | var x => rfl
    | app g args =>
      have values : toTerms? (args.map toDraft) = some args := toTerms?_map ih
      simp only [toDraft_app, toTerm?, values, Option.map_some]
    | empty => rfl
    | singleton e =>
      have he := ih e (.head _)
      simp only [toDraft] at he ⊢
      simp [draftWith, toTerm?, he]
    | add a b | remove a b | union a b | inter a b | diff a b =>
      have ha := ih a (.head _)
      have hb := ih b (.tail _ (.head _))
      simp only [toDraft] at ha hb ⊢
      simp [draftWith, toTerm?, ha, hb]

/-- The draft of a term in which `r` stands for the variable `x`. -/
theorem draftWith_var (x : String) (r t : Term) :
    t.draftWith (fun u => if Node.term (.var x) = .term u then some r.toDraft else none) =
      (t.subst x r).toDraft := by
  induction t using children_induction with
  | step t ih =>
    cases t with
    | var y =>
      by_cases hy : y = x
      · simp [draftWith, subst, hy]
      · simp [draftWith, subst, hy, Ne.symm hy, toDraft]
    | app g args =>
      have same := List.map_congr_left ih
      simp only [children] at same
      simp only [draftWith, listDraftWith_eq_map, subst, listSubst_eq_map, toDraft_app, List.map_map, same]
      rfl
    | empty => rfl
    | singleton e =>
      simp only [draftWith, ih e (.head _)]
      rfl
    | add a b | remove a b | union a b | inter a b | diff a b =>
      simp only [draftWith, ih a (.head _), ih b (.tail _ (.head _))]
      rfl

end Term

/-! ## Formulas -/

/-- Where the draft of each term is that of its image, the draft of an atom is that of its image. -/
theorem Atom.draftWith_mapArgs {cut : Term → Option Draft} {m : Term → Term}
    (h : ∀ t, t.draftWith cut = (m t).toDraft) (a : Atom) :
    a.draftWith cut = (a.mapArgs m).draftWith fun _ => none := by
  simp only [Term.toDraft] at h
  cases a <;> simp [draftWith, mapArgs, args, shape, Term.listDraftWith_eq_map, h]

namespace Formula

theorem toDraft_pred (p : String) (ts : List Term) :
    (Formula.atom (.pred p ts)).toDraft = .node .pred (.text p :: ts.map Term.toDraft) := by
  rw [toDraft, Atom.draftWith, Term.listDraftWith_eq_map]
  rfl

theorem hasKind_toDraft (f : Formula) : f.toDraft.hasKind .formula = true := by
  cases f with
  | top | bot | not | all => rfl
  | atom a => cases a <;> rfl
  | connect c => cases c <;> rfl

theorem fault?_toDraft (f : Formula) : f.toDraft.fault? = none := by
  induction f with
  | top | bot => rfl
  | atom a =>
    have args : ∀ t ∈ a.args, t.toDraft.fault? = none := fun t _ => t.fault?_toDraft
    cases a with
    | pred p ts =>
      rw [toDraft_pred]
      exact Term.fault?_nameAndTerms rfl p args
    | isEmpty s => exact Term.fault?_terms [s] rfl args
    | eq s t | mem s t | subset s t | setEq s t => exact Term.fault?_terms [s, t] rfl args
  | not f ih =>
    refine fault?_node (List.forall_mem_singleton.2 ih) ?_
    simp [ownFault?, Shape.signature, hasKind_toDraft]
  | connect c l r ihl ihr =>
    refine fault?_node (List.forall_mem_cons.2 ⟨ihl, List.forall_mem_singleton.2 ihr⟩) ?_
    cases c <;> simp [ownFault?, Shape.signature, Connective.shape, hasKind_toDraft]
  | all x f ih =>
    refine fault?_node
      (List.forall_mem_cons.2 ⟨Term.fault?_toDraft _, List.forall_mem_singleton.2 ih⟩) ?_
    have hx : (Term.var x).toDraft.hasKind .variable = true := rfl
    simp [ownFault?, Shape.signature, hasKind_toDraft, hx]

theorem toTerm?_toDraft (f : Formula) : f.toDraft.toTerm? = none := by
  cases f with
  | top | bot | not | all => rfl
  | atom a => cases a <;> rfl
  | connect c => cases c <;> rfl

theorem toFormula?_toDraft (f : Formula) : f.toDraft.toFormula? = some f := by
  induction f with
  | top | bot => rfl
  | atom a =>
    cases a with
    | pred p ts => simp [toDraft_pred, toFormula?, toTerms?_map fun t _ => t.toTerm?_toDraft]
    | eq | mem | subset | setEq | isEmpty =>
      have args : ∀ t : Term, (t.draftWith fun _ => none).toTerm? = some t := Term.toTerm?_toDraft
      simp [toDraft, Atom.draftWith, Atom.args, Atom.shape, Term.listDraftWith, toFormula?, args]
  | not f ih => simp [toDraft, toFormula?, ih]
  | connect c l r ihl ihr => cases c <;> simp [toDraft, Connective.shape, toFormula?, ihl, ihr]
  | all x f ih => simp [toDraft, Term.toDraft, Term.draftWith, toFormula?, ih]

/-- What the draft of a formula builds is the formula. -/
theorem build_toDraft (f : Formula) : f.toDraft.build = .ok (.formula f) := by
  rw [build, fault?_toDraft, toTerm?_toDraft, toFormula?_toDraft]

/-- The draft of a formula in which `r` stands for the free occurrences of `x`. -/
theorem draftReplacing_var (x : String) (r : Term) (f : Formula) :
    f.draftReplacing (.term (.var x)) r.toDraft = (f.subst x r).toDraft := by
  induction f with
  | top | bot => rfl
  | atom a =>
    rw [draftReplacing, if_neg (by simp), Atom.draftWith_mapArgs (Term.draftWith_var x r)]
    rfl
  | not f ih => simp [draftReplacing, subst, toDraft, ih]
  | connect c l r ihl ihr => simp [draftReplacing, subst, toDraft, ihl, ihr]
  | all y f ih =>
    by_cases hy : y = x
    · simp [draftReplacing, subst, hy]
    · simp [draftReplacing, subst, hy, Ne.symm hy, toDraft, ih]

end Formula

/-- The replacement of a variable by a term in a formula succeeds, and gives the formula with the term in the
free occurrences of the variable. -/
theorem Node.replace_var (f : Formula) (x : String) (r : Term) :
    Node.replace (.formula f) (.term (.var x)) (.term r) = .ok (.formula (f.subst x r)) := by
  rw [Node.replace, Node.toDraft, Formula.draftReplacing_var, Formula.build_toDraft]

end SetSequent
