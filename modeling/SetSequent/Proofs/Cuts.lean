import SetSequent.Reader

/-!
# Cutting token lists

The reader counts parentheses and cuts where it is outside all of them. Over a balanced part it passes,
and what it cuts is the whole list.

* `Balanced` — parentheses are matched, and the tokens outside them have a property.
* `cutBy_balanced` — a cut passes over a balanced part.
* `cutAt_of_balanced`, `cutGroup_of_balanced`, `cutCommas_of_balanced` — where each kind of cut is made.
* `eq_of_cutBy`, `eq_of_cutAt`, `intercalate_cutCommas` — the pieces of any cut make up the list.
-/

namespace SetSequent

/-- Every parenthesis is matched, and the tokens outside parentheses satisfy `P`. -/
inductive Balanced : (Token → Prop) → List Token → Prop where
  | nil {P : Token → Prop} : Balanced P []
  | token {P : Token → Prop} {t : Token} {ts : List Token} (property : P t) (left : t ≠ "(")
      (right : t ≠ ")") (rest : Balanced P ts) : Balanced P (t :: ts)
  | group {P : Token → Prop} {inner ts : List Token} (inside : Balanced (fun _ => True) inner)
      (rest : Balanced P ts) : Balanced P ("(" :: (inner ++ ")" :: ts))

namespace Balanced

variable {P Q : Token → Prop} {a b : List Token}

theorem imp (h : Balanced P a) (hq : ∀ t, P t → Q t) : Balanced Q a := by
  induction h with
  | nil => exact .nil
  | token hp hl hr _ ih => exact .token (hq _ hp) hl hr (ih hq)
  | group hi _ _ ih => exact .group hi (ih hq)

theorem append (ha : Balanced P a) (hb : Balanced P b) : Balanced P (a ++ b) := by
  induction ha with
  | nil => exact hb
  | token hp hl hr _ ih => exact .token hp hl hr (ih hb)
  | group hi _ _ ih =>
    rw [List.cons_append, List.append_assoc]
    exact .group hi (ih hb)

/-- No parenthesis outside the groups is left open for the list that follows. -/
theorem matched (h : Balanced P a) : Balanced (· ≠ ")") a := by
  induction h with
  | nil => exact .nil
  | token _ hl hr _ ih => exact .token hr hl hr ih
  | group hi _ _ ih => exact .group hi ih

/-- A list in parentheses. -/
theorem parenthesised (h : Balanced (fun _ => True) a) : Balanced P ("(" :: (a ++ [")"])) :=
  .group h .nil

end Balanced

/-! ## Cuts at a word -/

section

variable {P : Token → Prop} {stop cut : Token → Bool} {a b : List Token}

theorem nesting_of_ne {t : Token} (hl : t ≠ "(") (hr : t ≠ ")") : nesting t = 0 := by
  rw [nesting, if_neg hl, if_neg hr]

/-- A group is one deeper than the tokens around it. -/
theorem add_nesting_open (depth : Nat) : (depth : Int) + nesting "(" = (depth + 1 : Nat) := by
  have opening : nesting "(" = 1 := by decide
  omega

theorem add_nesting_close (depth : Nat) : ((depth + 1 : Nat) : Int) + nesting ")" = depth := by
  have closing : nesting ")" = -1 := by decide
  omega

/-- A token that is neither stopped at nor cut at is passed. -/
theorem cutBy_cons {depth : Int} {t : Token} (h : depth = 0 → stop t = false ∧ cut t = false)
    (ts : List Token) :
    cutBy stop cut depth (t :: ts) =
      (cutBy stop cut (depth + nesting t) ts).map fun p => (t :: p.1, p.2) := by
  rw [cutBy]
  by_cases hd : depth = 0
  · simp [hd, h hd]
  · simp [hd]

/-- **A cut passes over a balanced part**: outside parentheses if no token there is one to stop or cut
at, and anywhere inside them. -/
theorem cutBy_balanced (ha : Balanced P a) (depth : Nat)
    (hp : depth = 0 → ∀ t, P t ∨ t = "(" → stop t = false ∧ cut t = false) :
    cutBy stop cut depth (a ++ b) = (cutBy stop cut depth b).map fun p => (a ++ p.1, p.2) := by
  -- The depth is general, for the groups: inside them it is positive, so nothing there stops the cut.
  induction ha generalizing depth b with
  | nil => simp
  | @token _ t ts ht hl hr _ ih =>
    have pass : (depth : Int) = 0 → stop t = false ∧ cut t = false :=
      fun h => hp (by omega) t (.inl ht)
    rw [List.cons_append, cutBy_cons pass, nesting_of_ne hl hr, Int.add_zero, ih depth hp,
      Option.map_map]
    rfl
  | @group _ inner ts _ _ ihi ih =>
    have opening : (depth : Int) = 0 → stop "(" = false ∧ cut "(" = false :=
      fun h => hp (by omega) _ (.inr rfl)
    have closing : ((depth + 1 : Nat) : Int) = 0 → stop ")" = false ∧ cut ")" = false := by
      intro h
      omega
    rw [List.cons_append, cutBy_cons opening, add_nesting_open, List.append_assoc,
      ihi (depth + 1) (fun h => absurd h (Nat.succ_ne_zero depth)), List.cons_append,
      cutBy_cons closing, add_nesting_close, ih depth hp]
    simp only [Option.map_map, Function.comp_def, List.cons_append, List.append_assoc]

theorem cutBy_none_of_balanced (ha : Balanced P a)
    (hp : ∀ t, P t ∨ t = "(" → stop t = false ∧ cut t = false) : cutBy stop cut 0 a = none := by
  have := cutBy_balanced (b := []) ha 0 fun _ => hp
  rwa [List.append_nil] at this

/-- A cut after a balanced part. -/
theorem cutBy_of_balanced {t : Token} (ha : Balanced P a)
    (hp : ∀ t, P t ∨ t = "(" → stop t = false ∧ cut t = false) (hs : stop t = false)
    (hc : cut t = true) : cutBy stop cut 0 (a ++ t :: b) = some (a, b) := by
  have here : cutBy stop cut 0 (t :: b) = some ([], b) := by simp [cutBy, hs, hc]
  have := cutBy_balanced (b := t :: b) ha 0 fun _ => hp
  rw [Int.natCast_zero] at this
  rw [this, here]
  simp

theorem cutAt_of_balanced {word : Token} (ha : Balanced P a) (hw : word ≠ "(") (hf : word ≠ "forall")
    (hp : ∀ t, P t → t ≠ word ∧ t ≠ "forall") : cutAt word (a ++ word :: b) = some (a, b) := by
  refine cutBy_of_balanced ha (fun t ht => ?_) (by simpa using hf) (by simp)
  rcases ht with ht | rfl
  · simpa using (hp t ht).symm
  · simpa using hw.symm

theorem cutAt_none_of_balanced {word : Token} (ha : Balanced P a) (hw : word ≠ "(")
    (hp : ∀ t, P t → t ≠ word ∧ t ≠ "forall") : cutAt word a = none := by
  refine cutBy_none_of_balanced ha fun t ht => ?_
  rcases ht with ht | rfl
  · simpa using (hp t ht).symm
  · simpa using hw.symm

/-- The parenthesis after a balanced list closes the group. -/
theorem cutGroup_of_balanced (ha : Balanced P a) : cutGroup (a ++ ")" :: b) = some (a, b) := by
  refine cutBy_of_balanced ha.matched (fun t ht => ⟨rfl, ?_⟩) rfl (by simp)
  rcases ht with ht | rfl
  · simpa using ht
  · decide

theorem eq_of_cutBy {depth : Int} {ts l r : List Token} (h : cutBy stop cut depth ts = some (l, r)) :
    ∃ t, cut t = true ∧ ts = l ++ t :: r := by
  induction ts generalizing depth l with
  | nil => cases h
  | cons t ts ih =>
    rw [cutBy] at h
    split at h
    · cases h
    · split at h
      · rename_i hc
        cases h
        rw [Bool.and_eq_true] at hc
        exact ⟨t, hc.2, rfl⟩
      · obtain ⟨⟨l', r'⟩, h', he⟩ := Option.map_eq_some_iff.1 h
        cases he
        obtain ⟨u, hu, rfl⟩ := ih h'
        exact ⟨u, hu, rfl⟩

theorem eq_of_cutAt {word : Token} {ts l r : List Token} (h : cutAt word ts = some (l, r)) :
    ts = l ++ word :: r := by
  obtain ⟨t, ht, rfl⟩ := eq_of_cutBy h
  rw [of_decide_eq_true ht]

/-! ## Cuts at commas -/

theorem cutCommasFrom_cons {depth : Int} {t : Token} (h : depth = 0 → t ≠ ",")
    (piece ts : List Token) :
    cutCommasFrom depth piece (t :: ts) = cutCommasFrom (depth + nesting t) (t :: piece) ts := by
  rw [cutCommasFrom, if_neg fun hd => h hd.1 hd.2]

theorem cutCommasFrom_balanced (ha : Balanced P a) (depth : Nat) (hp : depth = 0 → ∀ t, P t → t ≠ ",")
    (piece : List Token) :
    cutCommasFrom depth piece (a ++ b) = cutCommasFrom depth (a.reverse ++ piece) b := by
  induction ha generalizing depth piece b with
  | nil => rfl
  | @token _ t ts ht hl hr _ ih =>
    have pass : (depth : Int) = 0 → t ≠ "," := fun h => hp (by omega) t ht
    rw [List.cons_append, cutCommasFrom_cons pass, nesting_of_ne hl hr, Int.add_zero, ih depth hp,
      List.reverse_cons, List.append_assoc]
    rfl
  | @group _ inner ts _ _ ihi ih =>
    rw [List.cons_append, cutCommasFrom_cons (fun _ => by decide), add_nesting_open, List.append_assoc,
      ihi (depth + 1) (fun h => absurd h (Nat.succ_ne_zero depth)), List.cons_append,
      cutCommasFrom_cons (fun _ => by decide), add_nesting_close, ih depth hp]
    simp

/-- Balanced pieces with commas in between are cut into the pieces. -/
theorem cutCommas_of_balanced {pieces : List (List Token)} (hne : pieces ≠ [])
    (h : ∀ p ∈ pieces, Balanced (· ≠ ",") p) : cutCommas ([","].intercalate pieces) = pieces := by
  induction pieces with
  | nil => exact absurd rfl hne
  | cons p pieces ih =>
    obtain ⟨hp, hs⟩ := List.forall_mem_cons.1 h
    have pass (b : List Token) : cutCommas (p ++ b) = cutCommasFrom 0 p.reverse b := by
      have := cutCommasFrom_balanced (b := b) hp 0 (fun _ _ h => h) []
      rwa [List.append_nil] at this
    cases pieces with
    | nil =>
      have whole := pass []
      rw [List.append_nil, cutCommasFrom, List.reverse_reverse] at whole
      rw [List.intercalate_singleton, whole]
    | cons q pieces =>
      rw [List.intercalate_cons_cons, List.append_assoc, pass, List.singleton_append, cutCommasFrom,
        if_pos ⟨rfl, rfl⟩, List.reverse_reverse]
      exact congrArg (p :: ·) (ih (List.cons_ne_nil _ _) hs)

theorem intercalate_cutCommasFrom (depth : Int) (piece ts : List Token) :
    [","].intercalate (cutCommasFrom depth piece ts) = piece.reverse ++ ts := by
  have nonempty (depth : Int) (piece ts : List Token) : cutCommasFrom depth piece ts ≠ [] := by
    induction ts generalizing depth piece with
    | nil => exact List.cons_ne_nil _ _
    | cons t ts ih =>
      rw [cutCommasFrom]
      split
      · exact List.cons_ne_nil _ _
      · exact ih _ _
  induction ts generalizing depth piece with
  | nil => simp [cutCommasFrom]
  | cons t ts ih =>
    rw [cutCommasFrom]
    split
    · rename_i ht
      rw [List.intercalate_cons_of_ne_nil (nonempty _ _ _), ih, ht.2]
      simp
    · rw [ih]
      simp

/-- The pieces and the commas between them make up the list. -/
theorem intercalate_cutCommas (ts : List Token) : [","].intercalate (cutCommas ts) = ts :=
  intercalate_cutCommasFrom 0 [] ts

end

end SetSequent
