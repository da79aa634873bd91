import SetSequent.Evaluation

/-!
# What the search lowers

The search ends because a triple falls in lexicographic order: the number of free variables of a
branch, then a number of formulas, then a weight.

* `distinct` — the number of different names in a list.
* `lex_of_fall` — the order on triples, by components.
-/

namespace SetSequent.Search

/-- The number of different names in a list. -/
def distinct (names : List String) : Nat := names.eraseDups.length

theorem nodup_eraseDups {α : Type} [BEq α] [LawfulBEq α] (xs : List α) : xs.eraseDups.Nodup := by
  match xs with
  | [] => simp
  | x :: rest =>
    rw [List.eraseDups_cons]
    refine List.nodup_cons.2 ⟨?_, nodup_eraseDups _⟩
    simp [List.mem_eraseDups]
termination_by xs.length
decreasing_by exact Nat.lt_succ_of_le (List.length_filter_le ..)

theorem distinct_le {xs ys : List String} (h : ∀ x ∈ xs, x ∈ ys) : distinct xs ≤ distinct ys := by
  apply (nodup_eraseDups xs).length_le_of_subset
  intro x hx
  exact List.mem_eraseDups.2 (h x (List.mem_eraseDups.1 hx))

theorem distinct_lt {xs ys : List String} (h : ∀ x ∈ xs, x ∈ ys) {y : String} (hy : y ∈ ys)
    (hn : y ∉ xs) : distinct xs < distinct ys := by
  have hle : distinct (y :: xs) ≤ distinct ys := distinct_le (by simp_all)
  have hlt : distinct xs < distinct (y :: xs) := by
    have hf : xs.filter (fun b => !b == y) = xs := by
      apply List.filter_eq_self.2
      intro b hb
      have : b ≠ y := fun he => hn (he ▸ hb)
      simpa using this
    simp [distinct, List.eraseDups_cons, hf]
  omega

/-- The free variables of a list of formulas, with repetitions. -/
def freeVars (fs : List Formula) : List String := fs.flatMap (·.freeVars)

/-- The weight of a list of formulas. -/
def weight (fs : List Formula) : Nat := fs.foldr (·.weight + ·) 0

@[simp] theorem weight_nil : weight [] = 0 := rfl

@[simp] theorem weight_cons (f : Formula) (fs : List Formula) :
    weight (f :: fs) = f.weight + weight fs := rfl

@[simp] theorem weight_append (fs gs : List Formula) :
    weight (fs ++ gs) = weight fs + weight gs := by
  induction fs with
  | nil => simp
  | cons f fs ih => simp [ih, Nat.add_assoc]

/-- A triple falls when its first component falls, or stays below and the rest falls. -/
theorem lex_of_fall {a a' b b' c c' : Nat}
    (h : a' < a ∨ a' ≤ a ∧ (b' < b ∨ b' ≤ b ∧ c' < c)) :
    Prod.Lex (· < ·) (Prod.Lex (· < ·) (· < ·)) (a', b', c') (a, b, c) := by
  simp only [Prod.lex_def]
  omega

end SetSequent.Search
