import SetSequent.Proofs.EveryAtom
import SetSequent.Proofs.Members

/-!
# Truth in every interpretation

The evaluator fails on unbound names and on operations whose sorts do not fit. Reasoning about the
procedure needs a truth value for every formula, so the evaluator is completed: a name or a function
symbol without a meaning denotes the empty set, a predicate without one is false, and an operation
whose sorts do not fit works on the members.

* `Interpretation.value`, `Interpretation.truth` — the completed evaluator.
* `value_of_eval`, `truth_of_holds` — it agrees with the evaluator where that has a result.
* `Interpretation.assign` — one name gets another value.
* `truth_congr`, `truth_subst` — the truth of a formula without quantifiers depends on the values of
  its free variables only, and a variable may be replaced by a term of the same value.
* `Interpretation.Refutes` — the countermodels of a sequent.
-/

namespace SetSequent

def Connective.combine : Connective → Bool → Bool → Bool
  | .and, a, b => a && b
  | .or, a, b => a || b
  | .implies, a, b => !a || b
  | .iff, a, b => a == b

namespace Model

/-- A sequence of two computations has a result if both have one. -/
theorem ok_of_bind {x : Except ModelError α} {f : α → Except ModelError β} {b : β}
    (h : (x >>= f) = .ok b) : ∃ a, x = .ok a ∧ f a = .ok b := by
  cases x with
  | error e => cases h
  | ok a => exact ⟨a, rfl, h⟩

namespace Interpretation

/-! ## The completed evaluator -/

/-- What a variable denotes; the empty set if it has no value. -/
def denote (I : Interpretation) (x : String) : Value := withDefault (.ofList []) (I.lookup x)

/-- What a function symbol denotes at a number of arguments. -/
def function (I : Interpretation) (f : String) (arity : Nat) : List Value → Value :=
  (I.functions f arity).getD fun _ => .ofList []

/-- What a predicate denotes. -/
def relation (I : Interpretation) (p : String) : List Value → Bool :=
  (I.predicates p).getD fun _ => false

mutual

def value (I : Interpretation) : Term → Value
  | .var x => I.denote x
  | .app f args => I.function f args.length (values I args)
  | .empty => .ofList []
  | .singleton e => .ofList [value I e]
  | .add e s => (value I s).join (.ofList [value I e])
  | .remove e s => (value I s).minus (.ofList [value I e])
  | .union s t => (value I s).join (value I t)
  | .inter s t => (value I s).meet (value I t)
  | .diff s t => (value I s).minus (value I t)

def values (I : Interpretation) : List Term → List Value
  | [] => []
  | t :: ts => value I t :: values I ts

end

def truthAtom (I : Interpretation) : Atom → Bool
  | .eq l r | .setEq l r => I.value l == I.value r
  | .mem e s => (I.value s).members.contains (I.value e)
  | .isEmpty s => (I.value s).isVoid
  | .subset s t => (I.value s).below (I.value t)
  | .pred p args => I.relation p (I.values args)

def truth (I : Interpretation) : Formula → Bool
  | .top => true
  | .bot => false
  | .atom a => I.truthAtom a
  | .not f => !I.truth f
  | .connect c l r => c.combine (I.truth l) (I.truth r)
  | .all x f => I.domain.all fun n => (I.bind x n).truth f

theorem values_eq_map (I : Interpretation) (ts : List Term) : I.values ts = ts.map I.value := by
  induction ts with
  | nil => rfl
  | cons t ts ih => simp [values, ih]

/-! ## Agreement with the evaluator -/

mutual

theorem value_of_eval {I : Interpretation} : (t : Term) → {v : Value} → I.eval t = .ok v →
    I.value t = v
  | .var x, v, h => by
    simp only [eval] at h
    simp [value, denote, h]
  | .app f args, v, h => by
    simp only [eval] at h
    split at h
    · cases h
    · rename_i g hg
      obtain ⟨vs, hvs, h⟩ := ok_of_bind h
      cases h
      simp [value, function, hg, values_of_evalAll args hvs]
  | .empty, v, h => by
    simp only [eval] at h
    cases h; rfl
  | .singleton e, v, h => by
    simp only [eval] at h
    obtain ⟨a, ha, h⟩ := ok_of_bind h
    cases h
    simp [value, value_of_eval e ha]
  | .add e s, v, h => by
    simp only [eval] at h
    obtain ⟨a, ha, h⟩ := ok_of_bind h
    obtain ⟨b, hb, h⟩ := ok_of_bind h
    simp [value, value_of_eval e hb, value_of_eval s ha, Value.join, h]
  | .remove e s, v, h => by
    simp only [eval] at h
    obtain ⟨a, ha, h⟩ := ok_of_bind h
    obtain ⟨b, hb, h⟩ := ok_of_bind h
    simp [value, value_of_eval e hb, value_of_eval s ha, Value.minus, h]
  | .union s t, v, h => by
    simp only [eval] at h
    obtain ⟨a, ha, h⟩ := ok_of_bind h
    obtain ⟨b, hb, h⟩ := ok_of_bind h
    simp [value, value_of_eval s ha, value_of_eval t hb, Value.join, h]
  | .inter s t, v, h => by
    simp only [eval] at h
    obtain ⟨a, ha, h⟩ := ok_of_bind h
    obtain ⟨b, hb, h⟩ := ok_of_bind h
    simp [value, value_of_eval s ha, value_of_eval t hb, Value.meet, h]
  | .diff s t, v, h => by
    simp only [eval] at h
    obtain ⟨a, ha, h⟩ := ok_of_bind h
    obtain ⟨b, hb, h⟩ := ok_of_bind h
    simp [value, value_of_eval s ha, value_of_eval t hb, Value.minus, h]

theorem values_of_evalAll {I : Interpretation} : (ts : List Term) → {vs : List Value} →
    I.evalAll ts = .ok vs → I.values ts = vs
  | [], vs, h => by
    simp only [evalAll] at h
    cases h; rfl
  | t :: ts, vs, h => by
    simp only [evalAll] at h
    obtain ⟨a, ha, h⟩ := ok_of_bind h
    obtain ⟨as, has, h⟩ := ok_of_bind h
    cases h
    simp [values, value_of_eval t ha, values_of_evalAll ts has]

end

theorem truthAtom_of_holdsAtom {I : Interpretation} {a : Atom} {b : Bool}
    (h : I.holdsAtom a = .ok b) : I.truthAtom a = b := by
  cases a with
  | eq l r | setEq l r =>
    obtain ⟨u, hu, h⟩ := ok_of_bind h
    obtain ⟨v, hv, h⟩ := ok_of_bind h
    cases h
    simp [truthAtom, value_of_eval l hu, value_of_eval r hv]
  | mem e s =>
    obtain ⟨u, hu, h⟩ := ok_of_bind h
    obtain ⟨v, hv, h⟩ := ok_of_bind h
    simpa [truthAtom, value_of_eval e hu, value_of_eval s hv] using Value.contains_of_isMember h
  | isEmpty s =>
    obtain ⟨u, hu, h⟩ := ok_of_bind h
    cases h
    simp [truthAtom, value_of_eval s hu]
  | subset s t =>
    obtain ⟨u, hu, h⟩ := ok_of_bind h
    obtain ⟨v, hv, h⟩ := ok_of_bind h
    simp [truthAtom, value_of_eval s hu, value_of_eval t hv, Value.below, h]
  | pred p args =>
    obtain ⟨vs, hvs, h⟩ := ok_of_bind h
    split at h
    · cases h
    · rename_i r hr
      cases h
      simp [truthAtom, relation, hr, values_of_evalAll args hvs]

theorem combine_of_connect {c : Connective} {a b : Bool} {r : Except ModelError Bool} {r' : Bool}
    (hr : ∀ b, r = .ok b → r' = b) (h : connect c a r = .ok b) : c.combine a r' = b := by
  cases c with
  | and | implies =>
    cases a with
    | false => cases h; rfl
    | true => simpa [Connective.combine] using hr b h
  | or =>
    cases a with
    | false => simpa [Connective.combine] using hr b h
    | true => cases h; rfl
  | iff =>
    obtain ⟨v, hv, h⟩ := ok_of_bind h
    cases h
    simp [Connective.combine, hr v hv]

theorem all_of_allM {domain : List Int} {test : Int → Except ModelError Bool} {test' : Int → Bool}
    (ht : ∀ n b, test n = .ok b → test' n = b) {b : Bool} (h : domain.allM test = .ok b) :
    domain.all test' = b := by
  induction domain with
  | nil => cases h; rfl
  | cons n domain ih =>
    obtain ⟨v, hv, h⟩ := ok_of_bind h
    cases v with
    | false => cases h; simp [ht n false hv]
    | true => simp [ht n true hv, ih h]

/-- **The completed evaluator agrees with the evaluator.** -/
theorem truth_of_holds {I : Interpretation} {f : Formula} {b : Bool} (h : I.holds f = .ok b) :
    I.truth f = b := by
  induction f generalizing I b with
  | top | bot => cases h; rfl
  | atom a => exact truthAtom_of_holdsAtom h
  | not f ih =>
    obtain ⟨v, hv, h⟩ := ok_of_bind h
    cases h
    simp [truth, ih hv]
  | connect c l r ihl ihr =>
    obtain ⟨v, hv, h⟩ := ok_of_bind h
    rw [truth, ihl hv]
    exact combine_of_connect (fun _ => ihr) h
  | all x f ih => exact all_of_allM (fun _ _ => ih) h

/-! ## Other values for names -/

/-- The interpretation in which `x` has the value `v`. -/
def assign (I : Interpretation) (x : String) (v : Value) : Interpretation :=
  match v.view with
  | .element n => { I with elements := (x, n) :: I.elements, sets := I.sets.filter (·.1 ≠ x) }
  | .set _ => { I with sets := (x, v) :: I.sets }

theorem lookup_cons_of_ne {pairs : List (String × α)} {x y : String} {v : α} (h : y ≠ x) :
    ((x, v) :: pairs).lookup y = pairs.lookup y := by
  have : (y == x) = false := by simpa using h
  simp [List.lookup_cons, this]

theorem lookup_filter {pairs : List (String × Value)} {x y : String} :
    (pairs.filter (·.1 ≠ x)).lookup y = if y = x then none else pairs.lookup y := by
  induction pairs with
  | nil => simp
  | cons p pairs ih =>
    obtain ⟨z, v⟩ := p
    by_cases hz : z = x
    · subst hz
      rw [List.filter_cons_of_neg (by simp), ih]
      split
      · rfl
      · rename_i hy
        rw [lookup_cons_of_ne hy]
    · rw [List.filter_cons_of_pos (by simpa using hz)]
      by_cases hy : y = z
      · subst hy; simp [hz]
      · rw [lookup_cons_of_ne hy, lookup_cons_of_ne hy, ih]

theorem lookup_assign (I : Interpretation) (x y : String) (v : Value) :
    (I.assign x v).lookup y = if y = x then .ok v else I.lookup y := by
  rcases Value.view_cases v with ⟨n, rfl, hv⟩ | ⟨ms, hv, _, _⟩
  · simp only [lookup, assign, hv, lookup_filter]
    by_cases hy : y = x
    · simp [hy]
    · simp only [if_neg hy, lookup_cons_of_ne hy]
  · simp only [lookup, assign, hv]
    by_cases hy : y = x
    · simp [hy]
    · simp only [if_neg hy, lookup_cons_of_ne hy]

theorem denote_assign (I : Interpretation) (x y : String) (v : Value) :
    (I.assign x v).denote y = if y = x then v else I.denote y := by
  simp only [denote, lookup_assign]
  split <;> rfl

@[simp] theorem domain_assign (I : Interpretation) (x : String) (v : Value) :
    (I.assign x v).domain = I.domain := by
  unfold assign; split <;> rfl

@[simp] theorem functions_assign (I : Interpretation) (x : String) (v : Value) :
    (I.assign x v).functions = I.functions := by
  unfold assign; split <;> rfl

@[simp] theorem predicates_assign (I : Interpretation) (x : String) (v : Value) :
    (I.assign x v).predicates = I.predicates := by
  unfold assign; split <;> rfl

/-! ## Dependence on names -/

/-- The interpretations have the same symbols and give the same values to the names of `P`. -/
structure Agrees (I J : Interpretation) (P : String → Prop) : Prop where
  functions : I.functions = J.functions
  predicates : I.predicates = J.predicates
  names : ∀ x, P x → I.denote x = J.denote x

theorem Agrees.imp {I J : Interpretation} {P Q : String → Prop} (h : I.Agrees J P)
    (hq : ∀ x, Q x → P x) : I.Agrees J Q :=
  ⟨h.functions, h.predicates, fun x hx => h.names x (hq x hx)⟩

theorem agrees_assign (I : Interpretation) (x : String) (v : Value) :
    (I.assign x v).Agrees I (· ≠ x) :=
  ⟨functions_assign .., predicates_assign .., fun y hy => by rw [denote_assign, if_neg hy]⟩

mutual

theorem value_congr {I J : Interpretation} : (t : Term) → I.Agrees J (· ∈ t.vars) →
    I.value t = J.value t
  | .var x, h => h.names x (List.mem_singleton_self x)
  | .app f args, h => by
    simp only [value, function, h.functions, values_congr args h]
  | .empty, _ => rfl
  | .singleton e, h => by simp only [value, value_congr e h]
  | .add a b, h | .remove a b, h | .union a b, h | .inter a b, h | .diff a b, h => by
    simp only [value, value_congr a (h.imp fun x hx => List.mem_append_left _ hx),
      value_congr b (h.imp fun x hx => List.mem_append_right _ hx)]

theorem values_congr {I J : Interpretation} : (ts : List Term) →
    I.Agrees J (· ∈ Term.listVars ts) → I.values ts = J.values ts
  | [], _ => rfl
  | t :: ts, h => by
    simp only [values, value_congr t (h.imp fun x hx => List.mem_append_left _ hx),
      values_congr ts (h.imp fun x hx => List.mem_append_right _ hx)]

end

theorem truthAtom_congr {I J : Interpretation} {a : Atom} (h : I.Agrees J (· ∈ a.vars)) :
    I.truthAtom a = J.truthAtom a := by
  have args : ∀ t ∈ a.args, I.value t = J.value t := fun t ht =>
    value_congr t (h.imp fun x hx => List.mem_flatMap.2 ⟨t, ht, hx⟩)
  cases a with
  | pred p ts =>
    simp only [truthAtom, relation, h.predicates, values_eq_map]
    rw [show ts.map I.value = ts.map J.value from List.map_congr_left args]
  | _ => simp_all [truthAtom, Atom.args]

/-- The truth of a formula without quantifiers depends on the truth of its atoms. -/
theorem truth_of_atoms {I J : Interpretation} {f : Formula}
    (hf : f.Every fun a => I.truthAtom a = J.truthAtom a) : I.truth f = J.truth f := by
  induction f with
  | top | bot => rfl
  | atom a => exact hf
  | not f ih => rw [truth, truth, ih hf]
  | connect c l r ihl ihr => rw [truth, truth, ihl hf.1, ihr hf.2]
  | all x f => exact hf.elim

theorem truth_congr {I J : Interpretation} {f : Formula} (hf : f.Every fun _ => True)
    (h : I.Agrees J (· ∈ f.freeVars)) : I.truth f = J.truth f := by
  refine truth_of_atoms (Formula.every_of_atoms hf fun a ha => truthAtom_congr ?_)
  exact h.imp fun x hx => hf.mem_freeVars ha hx

/-! ## Replacement of a variable -/

mutual

theorem value_subst {I : Interpretation} {x : String} {r : Term} (h : I.denote x = I.value r) :
    (t : Term) → I.value (t.subst x r) = I.value t
  | .var y => by
    by_cases hy : y = x
    · simp [Term.subst, hy, value, h]
    · simp [Term.subst, hy]
  | .app f args => by
    simp only [Term.subst, value, values_listSubst h args]
    simp
  | .empty => rfl
  | .singleton e => by simp only [Term.subst, value, value_subst h e]
  | .add a b | .remove a b | .union a b | .inter a b | .diff a b => by
    simp only [Term.subst, value, value_subst h a, value_subst h b]

theorem values_listSubst {I : Interpretation} {x : String} {r : Term} (h : I.denote x = I.value r) :
    (ts : List Term) → I.values (Term.listSubst ts x r) = I.values ts
  | [] => rfl
  | t :: ts => by simp only [Term.listSubst, values, value_subst h t, values_listSubst h ts]

end

theorem truthAtom_subst {I : Interpretation} {x : String} {r : Term} (h : I.denote x = I.value r)
    (a : Atom) : I.truthAtom (a.mapArgs (·.subst x r)) = I.truthAtom a := by
  cases a with
  | pred p args =>
    simp only [Atom.mapArgs, truthAtom, ← Term.listSubst_eq_map, values_listSubst h]
  | _ => simp only [Atom.mapArgs, truthAtom, value_subst h]

/-- A variable may be replaced by a term of the same value. -/
theorem truth_subst {I : Interpretation} {x : String} {r : Term} (h : I.denote x = I.value r)
    {f : Formula} (hf : f.Every fun _ => True) : I.truth (f.subst x r) = I.truth f := by
  induction f with
  | top | bot => rfl
  | atom a => exact truthAtom_subst h a
  | not f ih => simp only [Formula.subst, truth, ih hf]
  | connect c l r ihl ihr => simp only [Formula.subst, truth, ihl hf.1, ihr hf.2]
  | all y f => exact hf.elim

/-! ## Countermodels -/

/-- The facts of the sequent are true and its goal is false. -/
def Refutes (I : Interpretation) (s : Sequent) : Prop :=
  (∀ f ∈ s.facts, I.truth f = true) ∧ I.truth s.goal = false

end Interpretation

end Model

end SetSequent
