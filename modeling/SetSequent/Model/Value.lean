/-!
# Values

A value is an integer or a finite set of values. Sets may hold integers and sets side by side.

* `Tree` — finite trees with integer leaves, and the total order `Tree.cmp` on them.
* `Tree.isCanonical` — the members of each branch strictly ascend.
* `Value` — a canonical tree, so that two sets with the same members are equal.
* `Value.element`, `Value.ofList` — the two ways to build a value; `Value.view` takes one apart.
-/

namespace SetSequent.Model

inductive Tree where
  | leaf (n : Int)
  | branch (members : List Tree)
  deriving Inhabited

namespace Tree

/-! ## Order -/

def cmpInt (m n : Int) : Ordering :=
  if m < n then .lt else if n < m then .gt else .eq

mutual

/-- Leaves come before branches; branches are compared member by member. -/
def cmp : Tree → Tree → Ordering
  | .leaf m, .leaf n => cmpInt m n
  | .leaf _, .branch _ => .lt
  | .branch _, .leaf _ => .gt
  | .branch ms, .branch ns => cmpAll ms ns

def cmpAll : List Tree → List Tree → Ordering
  | [], [] => .eq
  | [], _ :: _ => .lt
  | _ :: _, [] => .gt
  | m :: ms, n :: ns =>
    match cmp m n with
    | .eq => cmpAll ms ns
    | o => o

end

theorem cmpInt_eq_iff {m n : Int} : cmpInt m n = .eq ↔ m = n := by
  grind [cmpInt]

theorem cmpInt_swap (m n : Int) : (cmpInt m n).swap = cmpInt n m := by
  rcases Int.lt_trichotomy m n with h | rfl | h
  · simp [cmpInt, h, Int.le_of_lt h]
  · simp [cmpInt]
  · simp [cmpInt, h, Int.le_of_lt h]

mutual

theorem cmp_eq_iff : (a b : Tree) → (cmp a b = .eq ↔ a = b)
  | .leaf m, b => by cases b <;> simp [cmp, cmpInt_eq_iff]
  | .branch ms, b => by cases b <;> simp [cmp, cmpAll_eq_iff ms]

theorem cmpAll_eq_iff : (as bs : List Tree) → (cmpAll as bs = .eq ↔ as = bs)
  | [], bs => by cases bs <;> simp [cmpAll]
  | a :: as, [] => by simp [cmpAll]
  | a :: as, b :: bs => by
    rw [cmpAll, List.cons.injEq, ← cmp_eq_iff a b, ← cmpAll_eq_iff as bs]
    split <;> simp_all

end

mutual

theorem cmp_swap : (a b : Tree) → (cmp a b).swap = cmp b a
  | .leaf m, b => by cases b <;> simp [cmp, cmpInt_swap]
  | .branch ms, b => by cases b <;> simp [cmp, cmpAll_swap ms]

theorem cmpAll_swap : (as bs : List Tree) → (cmpAll as bs).swap = cmpAll bs as
  | [], bs => by cases bs <;> simp [cmpAll]
  | a :: as, [] => by simp [cmpAll]
  | a :: as, b :: bs => by
    rw [cmpAll, cmpAll, ← cmp_swap a b]
    cases cmp a b <;> simp [cmpAll_swap as bs]

end

instance : DecidableEq Tree := fun a b => decidable_of_iff _ (cmp_eq_iff a b)

/-! ## Canonical trees -/

/-- Whether each tree of the list comes before its right neighbour. -/
def ascending : List Tree → Bool
  | [] | [_] => true
  | a :: b :: rest => cmp a b == .lt && ascending (b :: rest)

mutual

/-- Whether the members of each branch strictly ascend. -/
def isCanonical : Tree → Bool
  | .leaf _ => true
  | .branch ms => ascending ms && allCanonical ms

def allCanonical : List Tree → Bool
  | [] => true
  | m :: ms => isCanonical m && allCanonical ms

end

theorem allCanonical_iff {ms : List Tree} :
    allCanonical ms = true ↔ ∀ m ∈ ms, m.isCanonical = true := by
  induction ms with
  | nil => simp [allCanonical]
  | cons m ms ih => simp [allCanonical, ih]

/-- Puts a tree in its place in an ascending list; one that is there stays. -/
def insert (t : Tree) : List Tree → List Tree
  | [] => [t]
  | m :: ms =>
    match cmp t m with
    | .lt => t :: m :: ms
    | .eq => m :: ms
    | .gt => m :: insert t ms

theorem mem_insert {u t : Tree} {ms : List Tree} : u ∈ insert t ms ↔ u = t ∨ u ∈ ms := by
  induction ms with
  | nil => simp [insert]
  | cons m ms ih =>
    rw [insert]
    split
    · simp
    · next h => simp [(cmp_eq_iff t m).1 h]
    · simp only [List.mem_cons, ih]
      grind

/-- Insertion to the right of a smaller head keeps the list ascending. -/
theorem ascending_cons_insert {a t : Tree} {ms : List Tree} (hat : cmp a t = .lt)
    (h : ascending (a :: ms) = true) : ascending (a :: insert t ms) = true := by
  induction ms generalizing a with
  | nil => simp [insert, ascending, hat]
  | cons m ms ih =>
    simp only [ascending, Bool.and_eq_true, beq_iff_eq] at h
    rw [insert]
    split
    · next htm => simp [ascending, hat, htm, h.2]
    · simp [ascending, h]
    · next htm =>
      have hmt : cmp m t = .lt := by rw [← cmp_swap, htm]; rfl
      simp [ascending, h.1, ih hmt h.2]

theorem ascending_insert {t : Tree} {ms : List Tree} (h : ascending ms = true) :
    ascending (insert t ms) = true := by
  cases ms with
  | nil => rfl
  | cons m ms =>
    rw [insert]
    split
    · next htm => simp [ascending, htm, h]
    · exact h
    · next htm => exact ascending_cons_insert (by rw [← cmp_swap, htm]; rfl) h

end Tree

/-! ## Values -/

/-- An integer or a finite set of values. -/
structure Value where
  tree : Tree
  canonical : tree.isCanonical = true
  deriving DecidableEq

namespace Value

def element (n : Int) : Value := ⟨.leaf n, rfl⟩

instance : Inhabited Value := ⟨element 0⟩

/-- The trees of the values, in ascending order, each once. -/
def trees (vs : List Value) : List Tree := vs.foldr (fun v ts => Tree.insert v.tree ts) []

theorem mem_trees {t : Tree} {vs : List Value} : t ∈ trees vs ↔ ∃ v ∈ vs, v.tree = t := by
  induction vs with
  | nil => simp [trees]
  | cons v vs ih =>
    change t ∈ Tree.insert v.tree (trees vs) ↔ _
    simp [Tree.mem_insert, ih, eq_comm]

theorem ascending_trees (vs : List Value) : Tree.ascending (trees vs) = true := by
  induction vs with
  | nil => rfl
  | cons v vs ih => exact Tree.ascending_insert ih

/-- The set of the values of a list. -/
def ofList (vs : List Value) : Value where
  tree := .branch (trees vs)
  canonical := by
    simp only [Tree.isCanonical, Bool.and_eq_true]
    refine ⟨ascending_trees vs, Tree.allCanonical_iff.2 fun t ht => ?_⟩
    obtain ⟨v, _, rfl⟩ := mem_trees.1 ht
    exact v.canonical

/-- The set of the integers of a list. -/
def ofInts (ns : List Int) : Value := ofList (ns.map element)

theorem canonical_of_mem {ms : List Tree} (h : (Tree.branch ms).isCanonical = true) {t : Tree}
    (ht : t ∈ ms) : t.isCanonical = true := by
  simp only [Tree.isCanonical, Bool.and_eq_true] at h
  exact Tree.allCanonical_iff.1 h.2 t ht

/-- A value taken apart: the integer, or the members in ascending order. -/
inductive View where
  | element (n : Int)
  | set (members : List Value)

def view : Value → View
  | ⟨.leaf n, _⟩ => .element n
  | ⟨.branch ms, h⟩ => .set (ms.attach.map fun t => ⟨t.1, canonical_of_mem h t.2⟩)

@[simp] theorem view_element (n : Int) : (element n).view = .element n := rfl

/-- The members of a set of listed values are the listed values. -/
theorem view_ofList (vs : List Value) :
    ∃ ms, (ofList vs).view = .set ms ∧ ∀ v, v ∈ ms ↔ v ∈ vs := by
  refine ⟨_, rfl, fun v => ?_⟩
  simp only [List.mem_map, List.mem_attach, true_and, Subtype.exists]
  constructor
  · rintro ⟨t, ht, rfl⟩
    obtain ⟨w, hw, rfl⟩ := mem_trees.1 ht
    exact hw
  · exact fun hv => ⟨v.tree, mem_trees.2 ⟨v, hv, rfl⟩, rfl⟩

end Value

end SetSequent.Model
