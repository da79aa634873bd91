import SetSequent.Proofs.Definedness
import SetSequent.Solver.Expr

/-!
# What solver expressions mean

An interpretation is read as a structure of the solver: the elements are those of its domain, a set is
a truth value for each element, and quantifiers, inclusion and equality of sets range over the domain.

* `Meaning` — an element, a set or a truth value.
* `Expr.meaning` — the meaning of an expression, with the elements that its quantifiers bind.
* `Meaning.Represents` — an element or a set of the solver stands for a value of the evaluator.
* `Represents.value_eq`, `Represents.same_eq` — it stands for no other value, and equality of the
  solver is equality of values.
* `Represents.union`, `Represents.inter`, `Represents.diff`, `Represents.store_true`,
  `Represents.store_false` — the operations on sets agree; `Represents.has_eq`, `Represents.subset_eq`,
  `Represents.empty_eq` say so of the tests.
-/

namespace SetSequent.Solver

open Model

/-! ## Meanings -/

inductive Meaning where
  | element (n : Int)
  | set (has : Int → Bool)
  | truth (b : Bool)

namespace Meaning

def domain : Meaning → Domain
  | .element _ => .elem
  | .set _ => .set
  | .truth _ => .bool

/-- The element, if it is one. -/
def number : Meaning → Int
  | .element n => n
  | _ => 0

/-- Whether the set holds an element. -/
def has : Meaning → Int → Bool
  | .set s, n => s n
  | _, _ => false

def isTrue : Meaning → Bool
  | .truth b => b
  | _ => false

/-- Equality of two meanings of one sort. Sets are equal if they hold the same elements. -/
def same (elements : List Int) : Meaning → Meaning → Bool
  | .element m, .element n => m == n
  | .set s, .set t => elements.all fun n => s n == t n
  | .truth a, .truth b => a == b
  | _, _ => false

/-- The value that an element or a set is handed on as to the relation of a predicate. -/
def value (elements : List Int) : Meaning → Value
  | .element n => .element n
  | .set s => .ofInts (elements.filter s)
  | .truth _ => .ofList []

def ofValue (v : Value) : Meaning :=
  match v.view with
  | .element n => .element n
  | .set ms => .set fun n => ms.contains (.element n)

end Meaning

mutual

/-- The meaning of an expression; `bound` lists the elements of its quantifiers, the innermost first. -/
def Expr.meaning (I : Interpretation) (bound : List Int) : Expr → Meaning
  | .symbol p .bool args => .truth (I.relation p (Expr.values I bound args))
  | .symbol x _ [] => .ofValue (I.denote x)
  | .symbol f _ args => .ofValue (I.function f args.length (Expr.values I bound args))
  | .bound k => .element (bound.getD k 0)
  | .all _ body => .truth (I.domain.all fun n => (body.meaning I (n :: bound)).isTrue)
  | .truth b => .truth b
  | .emptySet => .set fun _ => false
  | .store s e present =>
    .set fun n => if n = (e.meaning I bound).number then present else (s.meaning I bound).has n
  | .union s t => .set fun n => (s.meaning I bound).has n || (t.meaning I bound).has n
  | .inter s t => .set fun n => (s.meaning I bound).has n && (t.meaning I bound).has n
  | .diff s t => .set fun n => (s.meaning I bound).has n && !(t.meaning I bound).has n
  | .select s e => .truth ((s.meaning I bound).has (e.meaning I bound).number)
  | .subset s t =>
    .truth (I.domain.all fun n => !(s.meaning I bound).has n || (t.meaning I bound).has n)
  | .equal a b => .truth ((a.meaning I bound).same I.domain (b.meaning I bound))
  | .not a => .truth !(a.meaning I bound).isTrue
  | .and a b => .truth ((a.meaning I bound).isTrue && (b.meaning I bound).isTrue)
  | .or a b => .truth ((a.meaning I bound).isTrue || (b.meaning I bound).isTrue)
  | .implies a b => .truth (!(a.meaning I bound).isTrue || (b.meaning I bound).isTrue)

def Expr.values (I : Interpretation) (bound : List Int) : List Expr → List Value
  | [] => []
  | e :: es => (e.meaning I bound).value I.domain :: Expr.values I bound es

end

theorem Expr.meaning_constant {I : Interpretation} {bound : List Int} (x : String) {d : Domain}
    (h : d ≠ .bool) : (Expr.symbol x d []).meaning I bound = .ofValue (I.denote x) := by
  rw [Expr.meaning]
  exact h

/-! ## Values that meanings stand for -/

namespace Meaning

/-- An element of the domain stands for itself, and a set for the set of the elements that it holds. -/
inductive Represents (elements : List Int) : Meaning → Value → Prop where
  | element {n : Int} (mem : n ∈ elements) : Represents elements (.element n) (.element n)
  | set {s : Int → Bool} {v : Value} (within : v.IsSetWithin elements)
      (agrees : ∀ n ∈ elements, s n = true ↔ .element n ∈ v.members) :
      Represents elements (.set s) v

variable {elements : List Int} {a b : Meaning} {u v : Value}

theorem domain_ofValue (h : v.isSet = true) : (ofValue v).domain = .set := by
  rcases Value.view_cases v with ⟨n, rfl, _⟩ | ⟨ms, hv, _, _⟩
  · cases h
  · rw [ofValue, hv]
    rfl

theorem represents_ofValue_set (h : v.IsSetWithin elements) :
    (ofValue v).Represents elements v := by
  rcases Value.view_cases v with ⟨n, rfl, _⟩ | ⟨ms, hv, hm, _⟩
  · cases h.1
  · rw [ofValue, hv]
    exact .set h fun n _ => by rw [hm, List.contains_iff_mem]

namespace Represents

/-- A set of the solver and what it stands for. -/
theorem isSetWithin (h : a.Represents elements v) (hd : a.domain = .set) :
    v.IsSetWithin elements := by
  cases h with
  | element => cases hd
  | set within => exact within

theorem has_iff (h : a.Represents elements v) (hd : a.domain = .set) {n : Int} (hn : n ∈ elements) :
    a.has n = true ↔ .element n ∈ v.members := by
  cases h with
  | element => cases hd
  | set _ agrees => exact agrees n hn

theorem eq_element (h : a.Represents elements v) (hd : a.domain = .elem) :
    a.number ∈ elements ∧ v = .element a.number := by
  cases h with
  | element mem => exact ⟨mem, rfl⟩
  | set => cases hd

/-- A meaning stands for one value only, the one that relations get. -/
theorem value_eq (h : a.Represents elements v) : a.value elements = v := by
  cases h with
  | element => rfl
  | set within agrees =>
    refine Value.ext_members rfl within.1 fun w => ?_
    simp only [value, Value.mem_members_ofInts, List.mem_filter]
    constructor
    · rintro ⟨n, ⟨hn, hs⟩, rfl⟩
      exact (agrees n hn).1 hs
    · intro hw
      obtain ⟨n, hn, rfl⟩ := within.2 w hw
      exact ⟨n, ⟨hn, (agrees n hn).2 hw⟩, rfl⟩

/-! ### Operations -/

theorem empty : (Meaning.set fun _ => false).Represents elements (.ofList []) :=
  .set ⟨rfl, fun w hw => by simp at hw⟩ fun n _ => by simp

section Sets

variable (ha : a.Represents elements u) (hb : b.Represents elements v) (da : a.domain = .set)
include ha hb da

theorem union (db : b.domain = .set) :
    (Meaning.set fun n => a.has n || b.has n).Represents elements (u.join v) := by
  have wa := ha.isSetWithin da
  have wb := hb.isSetWithin db
  refine .set (wa.join wb.2) fun n hn => ?_
  rw [Bool.or_eq_true, ha.has_iff da hn, hb.has_iff db hn, Value.mem_members_join]

theorem inter (db : b.domain = .set) :
    (Meaning.set fun n => a.has n && b.has n).Represents elements (u.meet v) := by
  refine .set ((ha.isSetWithin da).meet v) fun n hn => ?_
  rw [Bool.and_eq_true, ha.has_iff da hn, hb.has_iff db hn, Value.mem_members_meet]

theorem diff (db : b.domain = .set) :
    (Meaning.set fun n => a.has n && !b.has n).Represents elements (u.minus v) := by
  refine .set ((ha.isSetWithin da).minus v) fun n hn => ?_
  rw [Bool.and_eq_true, ha.has_iff da hn, Bool.not_eq_true', ← Bool.not_eq_true, hb.has_iff db hn,
    Value.mem_members_minus]

/-- An element is put in. -/
theorem store_true (db : b.domain = .elem) :
    (Meaning.set fun n => if n = b.number then true else a.has n).Represents elements
      (u.join (.ofList [v])) := by
  obtain ⟨hm, rfl⟩ := hb.eq_element db
  refine .set ((ha.isSetWithin da).join fun w hw => ?_) fun n hn => ?_
  · exact ⟨b.number, hm, List.mem_singleton.1 (Value.mem_members_ofList.1 hw)⟩
  · simp only [Value.mem_members_join, Value.mem_members_ofList, List.mem_singleton,
      ← ha.has_iff da hn]
    split
    · rename_i he
      simp [he]
    · rename_i he
      exact (or_iff_left fun h => he (Value.element_inj h)).symm

/-- An element is taken out. -/
theorem store_false (db : b.domain = .elem) :
    (Meaning.set fun n => if n = b.number then false else a.has n).Represents elements
      (u.minus (.ofList [v])) := by
  obtain ⟨hm, rfl⟩ := hb.eq_element db
  refine .set ((ha.isSetWithin da).minus _) fun n hn => ?_
  simp only [Value.mem_members_minus, Value.mem_members_ofList, List.mem_singleton,
    ← ha.has_iff da hn]
  split
  · rename_i he
    simp [he]
  · rename_i he
    exact (and_iff_left fun h => he (Value.element_inj h)).symm

/-! ### Tests -/

theorem has_eq (db : b.domain = .elem) : a.has b.number = u.members.contains v := by
  obtain ⟨hm, rfl⟩ := hb.eq_element db
  rw [Bool.eq_iff_iff, ha.has_iff da hm, List.contains_iff_mem]

theorem subset_eq (db : b.domain = .set) :
    (elements.all fun n => !a.has n || b.has n) = u.below v := by
  have wa := ha.isSetWithin da
  have step (n : Int) (hn : n ∈ elements) :
      (!a.has n || b.has n) = true ↔ (.element n ∈ u.members → .element n ∈ v.members) := by
    rw [← ha.has_iff da hn, ← hb.has_iff db hn]
    cases a.has n <;> simp
  rw [Bool.eq_iff_iff, List.all_eq_true]
  constructor
  · intro h
    refine Value.below_of_mem wa.1 (hb.isSetWithin db).1 fun w hw => ?_
    obtain ⟨n, hn, rfl⟩ := wa.2 w hw
    exact (step n hn).1 (h n hn) hw
  · exact fun h n hn => (step n hn).2 (Value.mem_of_below h)

end Sets

/-- Equality of the solver is equality of the values. -/
theorem same_eq (ha : a.Represents elements u) (hb : b.Represents elements v)
    (hd : a.domain = b.domain) : a.same elements b = (u == v) := by
  cases ha with
  | element =>
    cases hb with
    | element =>
      rw [Bool.eq_iff_iff, same, beq_iff_eq, beq_iff_eq]
      exact ⟨fun h => h ▸ rfl, Value.element_inj⟩
    | set => cases hd
  | set wa agreesA =>
    cases hb with
    | element => cases hd
    | set wb agreesB =>
      rw [Bool.eq_iff_iff, same, List.all_eq_true, beq_iff_eq]
      constructor
      · intro h
        have step (n : Int) (hn : n ∈ elements) : .element n ∈ u.members ↔ .element n ∈ v.members := by
          rw [← agreesA n hn, ← agreesB n hn, beq_iff_eq.1 (h n hn)]
        refine Value.ext_members wa.1 wb.1 fun w => ⟨fun hw => ?_, fun hw => ?_⟩
        · obtain ⟨n, hn, rfl⟩ := wa.2 w hw
          exact (step n hn).1 hw
        · obtain ⟨n, hn, rfl⟩ := wb.2 w hw
          exact (step n hn).2 hw
      · rintro rfl n hn
        rw [beq_iff_eq, Bool.eq_iff_iff, agreesA n hn, agreesB n hn]

theorem empty_eq (ha : a.Represents elements u) (hd : a.domain = .set) :
    a.same elements (.set fun _ => false) = u.isVoid := by
  rw [ha.same_eq .empty hd, Bool.eq_iff_iff, beq_iff_eq]
  constructor
  · rintro rfl
    rfl
  · intro h
    refine Value.ext_members (ha.isSetWithin hd).1 rfl fun w => ?_
    simpa using Value.not_mem_of_isVoid h

end Represents

end Meaning

end SetSequent.Solver
