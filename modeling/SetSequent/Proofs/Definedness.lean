import SetSequent.Proofs.Truth

/-!
# Where the evaluator has a result

* `Formula.terms`, `Formula.setPositions` — the terms of a formula, and those that the evaluator needs as
  sets.
* `Interpretation.Interprets` — every name and symbol of a formula has a meaning, and what stands in a
  set position denotes a set.
* `holds_of_interprets` — then the evaluator has a result, the truth of the formula.
* `Interpretation.Realizes` — every name has a value of its sort, over the domain.
-/

namespace SetSequent

namespace Term

/-- The arguments of a set constructor that have to be sets. -/
def operands : Term → List Term
  | .add _ s | .remove _ s => [s]
  | .union s t | .inter s t | .diff s t => [s, t]
  | .var _ | .app .. | .empty | .singleton _ => []

theorem mem_listSubterms {u : Term} {ts : List Term} :
    u ∈ listSubterms ts ↔ ∃ t ∈ ts, u ∈ t :: t.subterms := by
  induction ts with
  | nil => simp [listSubterms]
  | cons t ts ih =>
    change u ∈ (t :: t.subterms) ++ listSubterms ts ↔ _
    simp only [List.mem_append, ih, List.mem_cons, exists_eq_or_imp]

/-- A part of a part is a part. -/
theorem mem_subterms_of_child {u c t : Term} (hc : c ∈ t.children) (hu : u ∈ c :: c.subterms) :
    u ∈ t.subterms := by
  cases t with
  | var | empty => cases hc
  | app f args => exact mem_listSubterms.2 ⟨c, hc, hu⟩
  | singleton e =>
    obtain rfl := List.mem_singleton.1 hc
    exact hu
  | add a b | remove a b | union a b | inter a b | diff a b =>
    simp only [children, List.mem_cons, List.not_mem_nil, or_false] at hc
    rcases hc with rfl | rfl
    · exact List.mem_append_left _ hu
    · exact List.mem_append_right _ hu

mutual

theorem mem_vars_iff {x : String} : (t : Term) → (x ∈ t.vars ↔ .var x ∈ t :: t.subterms)
  | .var y => by simp [subterms, vars]
  | .app f args => by
    change x ∈ listVars args ↔ .var x ∈ .app f args :: listSubterms args
    rw [mem_listVars_iff args, List.mem_cons]
    simp
  | .empty => by simp [subterms, vars]
  | .singleton e => by
    change x ∈ e.vars ↔ .var x ∈ .singleton e :: e :: e.subterms
    rw [mem_vars_iff e]
    simp
  | .add a b | .remove a b | .union a b | .inter a b | .diff a b => by
    rw [vars, List.mem_append, mem_vars_iff a, mem_vars_iff b]
    simp [subterms, or_assoc]

theorem mem_listVars_iff {x : String} : (ts : List Term) →
    (x ∈ listVars ts ↔ .var x ∈ listSubterms ts)
  | [] => by simp [listVars, listSubterms]
  | t :: ts => by
    change x ∈ t.vars ++ listVars ts ↔ .var x ∈ (t :: t.subterms) ++ listSubterms ts
    rw [List.mem_append, List.mem_append, mem_vars_iff t, mem_listVars_iff ts]

end

end Term

namespace Formula

/-- The arguments of the atoms and their parts. -/
def terms (f : Formula) : List Term := f.atoms.flatMap fun a => Term.listSubterms a.args

/-- The terms that the evaluator needs as sets. -/
def setPositions (f : Formula) : List Term :=
  f.atoms.flatMap Atom.setArgs ++ f.terms.flatMap Term.operands

end Formula

namespace Model.Interpretation

/-! ## Sets -/

/-- A term denotes a set if the names and symbols that it uses as sets do. -/
theorem isSet_value {I : Interpretation} : (t : Term) →
    (∀ x ∈ t.setVars, (I.denote x).isSet = true) →
    (∀ f ∈ t.setFunctions, ∀ n vs, (I.function f n vs).isSet = true) → (I.value t).isSet = true
  | .var x, hx, _ => hx x (List.mem_singleton_self x)
  | .app f _, _, hf => hf f (List.mem_singleton_self f) _ _
  | .empty, _, _ | .singleton _, _, _ => rfl
  | .add _ s, hx, hf => Value.isSet_join (isSet_value s hx hf)
  | .remove _ s, hx, hf => Value.isSet_minus (isSet_value s hx hf)
  | .union s _, hx, hf => Value.isSet_join (isSet_value s
      (fun x h => hx x (List.mem_append_left _ h)) fun f h => hf f (List.mem_append_left _ h))
  | .inter s _, hx, hf => Value.isSet_meet (isSet_value s
      (fun x h => hx x (List.mem_append_left _ h)) fun f h => hf f (List.mem_append_left _ h))
  | .diff s _, hx, hf => Value.isSet_minus (isSet_value s
      (fun x h => hx x (List.mem_append_left _ h)) fun f h => hf f (List.mem_append_left _ h))

/-! ## Terms -/

/-- What the evaluator asks of a term, its parts aside. -/
structure Accepts (I : Interpretation) (t : Term) : Prop where
  name : ∀ x, t = .var x → ∃ v, I.lookup x = .ok v
  function : ∀ f args, t = .app f args → ∃ g, I.functions f args.length = some g
  operands : ∀ u ∈ t.operands, (I.value u).isSet = true

mutual

theorem eval_of_accepts {I : Interpretation} : (t : Term) →
    (∀ u ∈ t :: t.subterms, I.Accepts u) → I.eval t = .ok (I.value t)
  | .var x, h => by
    obtain ⟨v, hv⟩ := (h _ (.head _)).name x rfl
    simp [eval, value, denote, hv]
  | .app f args, h => by
    obtain ⟨g, hg⟩ := (h _ (.head _)).function f args rfl
    have hargs := evalAll_of_accepts args fun t ht u hu =>
      h u (.tail _ (Term.mem_subterms_of_child ht hu))
    simp only [eval, value, function, hg, hargs, Option.getD_some]
    rfl
  | .empty, _ => by simp only [eval, value]
  | .singleton e, h => by
    have he := eval_of_accepts e fun u hu => h u (.tail _ hu)
    simp only [eval, value, he]
    rfl
  | .add a b, h | .remove a b, h => by
    have ha := eval_of_accepts a fun u hu => h u (.tail _ (List.mem_append_left _ hu))
    have hb := eval_of_accepts b fun u hu => h u (.tail _ (List.mem_append_right _ hu))
    have hs := (h _ (.head _)).operands b (by simp [Term.operands])
    simp only [eval, value, ha, hb]
    first
      | exact Value.union_of_isSet hs (Value.isSet_ofList _)
      | exact Value.diff_of_isSet hs (Value.isSet_ofList _)
  | .union a b, h | .inter a b, h | .diff a b, h => by
    have ha := eval_of_accepts a fun u hu => h u (.tail _ (List.mem_append_left _ hu))
    have hb := eval_of_accepts b fun u hu => h u (.tail _ (List.mem_append_right _ hu))
    have hs := (h _ (.head _)).operands a (by simp [Term.operands])
    have ht := (h _ (.head _)).operands b (by simp [Term.operands])
    simp only [eval, value, ha, hb]
    first
      | exact Value.union_of_isSet hs ht
      | exact Value.inter_of_isSet hs ht
      | exact Value.diff_of_isSet hs ht

theorem evalAll_of_accepts {I : Interpretation} : (ts : List Term) →
    (∀ t ∈ ts, ∀ u ∈ t :: t.subterms, I.Accepts u) → I.evalAll ts = .ok (I.values ts)
  | [], _ => by simp only [evalAll, values]
  | t :: ts, h => by
    have ht := eval_of_accepts t (h t (.head _))
    have hts := evalAll_of_accepts ts fun t' ht' => h t' (.tail _ ht')
    simp only [evalAll, values, ht, hts]
    rfl

end

/-! ## Formulas -/

/-- Every free name and every symbol of the formula has a meaning, and the names and symbols that it
uses as sets denote sets. -/
structure Interprets (I : Interpretation) (f : Formula) : Prop where
  names : ∀ x ∈ f.freeVars, ∃ v, I.lookup x = .ok v
  functions : ∀ g args, .app g args ∈ f.terms → ∃ h, I.functions g args.length = some h
  predicates : ∀ p args, .pred p args ∈ f.atoms → ∃ r, I.predicates p = some r
  setNames : ∀ u ∈ f.setPositions, ∀ x ∈ u.setVars, ∃ v, I.sets.lookup x = some v ∧ v.isSet = true
  setFunctions : ∀ u ∈ f.setPositions, ∀ g ∈ u.setFunctions, ∀ n h, I.functions g n = some h →
    ∀ vs, (h vs).isSet = true

theorem Interprets.isSet {I : Interpretation} {f : Formula} (h : I.Interprets f) {u : Term}
    (hu : u ∈ f.setPositions) : (I.value u).isSet = true := by
  refine isSet_value u (fun x hx => ?_) fun g hg n vs => ?_
  · obtain ⟨v, hv, hs⟩ := h.setNames u hu x hx
    simpa [denote, lookup, hv] using hs
  · rw [function]
    cases hf : I.functions g n with
    | none => rfl
    | some k => exact h.setFunctions u hu g hg n k hf vs

theorem Interprets.accepts {I : Interpretation} {a : Atom} (h : I.Interprets (.atom a)) :
    ∀ t ∈ a.args, ∀ u ∈ t :: t.subterms, I.Accepts u := by
  intro t ht u hu
  have terms : u ∈ (Formula.atom a).terms :=
    List.mem_flatMap.2 ⟨a, List.mem_singleton_self a, Term.mem_listSubterms.2 ⟨t, ht, hu⟩⟩
  refine ⟨?_, ?_, fun w hw => h.isSet ?_⟩
  · rintro x rfl
    exact h.names x (List.mem_flatMap.2 ⟨t, ht, t.mem_vars_iff.2 hu⟩)
  · rintro f args rfl
    exact h.functions f args terms
  · exact List.mem_append_right _ (List.mem_flatMap.2 ⟨u, terms, hw⟩)

/-- An atom has a truth value if its arguments have values, those that stand as sets are sets, and its
predicate has a meaning. -/
theorem holdsAtom_of_accepts {I : Interpretation} {a : Atom}
    (accepts : ∀ t ∈ a.args, ∀ u ∈ t :: t.subterms, I.Accepts u)
    (isSet : ∀ u ∈ a.setArgs, (I.value u).isSet = true)
    (predicate : ∀ p args, a = .pred p args → ∃ r, I.predicates p = some r) :
    I.holdsAtom a = .ok (I.truthAtom a) := by
  have eval (t : Term) (ht : t ∈ a.args) : I.eval t = .ok (I.value t) :=
    eval_of_accepts t (accepts t ht)
  cases a with
  | eq l r | setEq l r =>
    simp only [holdsAtom, eval l (by simp [Atom.args]), eval r (by simp [Atom.args])]
    rfl
  | mem e s =>
    simp only [holdsAtom, eval e (by simp [Atom.args]), eval s (by simp [Atom.args])]
    exact Value.isMember_of_isSet (isSet s (by simp [Atom.setArgs]))
  | isEmpty s =>
    simp only [holdsAtom, eval s (by simp [Atom.args])]
    rfl
  | subset s u =>
    simp only [holdsAtom, eval s (by simp [Atom.args]), eval u (by simp [Atom.args])]
    exact Value.isSubset_of_isSet (isSet s (by simp [Atom.setArgs]))
      (isSet u (by simp [Atom.setArgs]))
  | pred p args =>
    obtain ⟨r, hr⟩ := predicate p args rfl
    simp only [holdsAtom, truthAtom, relation, evalAll_of_accepts args accepts, hr]
    rfl

theorem holdsAtom_of_interprets {I : Interpretation} {a : Atom} (h : I.Interprets (.atom a)) :
    I.holdsAtom a = .ok (I.truthAtom a) := by
  refine holdsAtom_of_accepts h.accepts (fun u hu => h.isSet ?_) fun p args ha => ?_
  · exact List.mem_append_left _ (List.mem_flatMap.2 ⟨a, List.mem_singleton_self a, hu⟩)
  · exact h.predicates p args (List.mem_singleton.2 ha.symm)

theorem Interprets.of_subset {I : Interpretation} {f g : Formula} (h : I.Interprets g)
    (names : f.freeVars ⊆ g.freeVars) (atoms : f.atoms ⊆ g.atoms) : I.Interprets f := by
  have terms : f.terms ⊆ g.terms := fun u hu => by
    obtain ⟨a, ha, hu⟩ := List.mem_flatMap.1 hu
    exact List.mem_flatMap.2 ⟨a, atoms ha, hu⟩
  have positions : f.setPositions ⊆ g.setPositions := fun u hu => by
    rcases List.mem_append.1 hu with hu | hu
    · obtain ⟨a, ha, hu⟩ := List.mem_flatMap.1 hu
      exact List.mem_append_left _ (List.mem_flatMap.2 ⟨a, atoms ha, hu⟩)
    · obtain ⟨t, ht, hu⟩ := List.mem_flatMap.1 hu
      exact List.mem_append_right _ (List.mem_flatMap.2 ⟨t, terms ht, hu⟩)
  exact ⟨fun x hx => h.names x (names hx), fun g args hm => h.functions g args (terms hm),
    fun p args hm => h.predicates p args (atoms hm), fun u hu => h.setNames u (positions hu),
    fun u hu => h.setFunctions u (positions hu)⟩

theorem Interprets.bind {I : Interpretation} {x : String} {f : Formula}
    (h : I.Interprets (.all x f)) (n : Int) : (I.bind x n).Interprets f := by
  refine ⟨fun y hy => ?_, h.functions, h.predicates, h.setNames, h.setFunctions⟩
  by_cases he : y = x
  · subst he
    simp only [lookup, Interpretation.bind, List.lookup_cons_self]
    split <;> exact ⟨_, rfl⟩
  · obtain ⟨v, hv⟩ := h.names y (List.mem_filter.2 ⟨hy, by simpa using he⟩)
    exact ⟨v, by simpa only [lookup, Interpretation.bind, lookup_cons_of_ne he] using hv⟩

theorem connect_ok (c : Connective) (a b : Bool) : connect c a (.ok b) = .ok (c.combine a b) := by
  cases c <;> cases a <;> rfl

theorem allM_ok {α : Type} {xs : List α} {test : α → Except ModelError Bool} {test' : α → Bool}
    (h : ∀ x ∈ xs, test x = .ok (test' x)) : xs.allM test = .ok (xs.all test') := by
  induction xs with
  | nil => rfl
  | cons x xs ih =>
    simp only [List.allM, h x (.head _), List.all_cons]
    cases test' x with
    | false => rfl
    | true => exact ih fun y hy => h y (.tail _ hy)

/-- **The evaluator has a result**, the truth, on every formula that is interpreted. -/
theorem holds_of_interprets {I : Interpretation} {f : Formula} (h : I.Interprets f) :
    I.holds f = .ok (I.truth f) := by
  induction f generalizing I with
  | top | bot => rfl
  | atom a => exact holdsAtom_of_interprets h
  | not f ih =>
    have := ih (h.of_subset (List.Subset.refl _) (List.Subset.refl _))
    simp only [holds, this]
    rfl
  | connect c l r ihl ihr =>
    have hl := ihl (h.of_subset (List.subset_append_left ..) (List.subset_append_left ..))
    have hr := ihr (h.of_subset (List.subset_append_right ..) (List.subset_append_right ..))
    simp only [holds, hl, hr]
    exact connect_ok c _ _
  | all x f ih => exact allM_ok fun n _ => ih (h.bind n)

/-- The interpretation gives a set of elements of its domain to each name of a set, an element of its
domain to each other free name, and a relation to each predicate. -/
structure Realizes (I : Interpretation) (fs : List Formula) : Prop where
  sets : ∀ x ∈ setVarNames fs, ∃ w, I.sets.lookup x = some w ∧ w.IsSetWithin I.domain
  others : ∀ f ∈ fs, ∀ x ∈ f.vars, x ∉ setVarNames fs → I.sets.lookup x = none
  elements : ∀ f ∈ fs, ∀ x ∈ f.freeVars, x ∉ setVarNames fs →
    ∃ n ∈ I.domain, I.elements.lookup x = some n
  predicates : ∀ f ∈ fs, ∀ p args, .pred p args ∈ f.atoms → ∃ r, I.predicates p = some r

end Model.Interpretation

end SetSequent
