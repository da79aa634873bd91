import SetSequent.Model.Countermodel
import SetSequent.Proofs.Definedness
import SetSequent.Proofs.Sorts

/-!
# The enumeration misses no countermodel

* `mem_tuples`, `filter_mem_subsets` — what the lists of choices and of subsets hold.
* `Space.find_eq` — the search visits the interpretations of the space in order.
* `Space.mem_interpretations` — these are the choices of an element for each element name and of a set of
  elements for each set name.
* `interprets_of_sorted` — they give every sorted formula a truth value.
* `exists_countermodel` — if a countermodel fits, the search finds one.
-/

namespace SetSequent.Model

/-! ## Lists of choices -/

theorem mem_tuples {α : Type} {choices : List α} {k : Nat} {t : List α} :
    t ∈ tuples choices k ↔ t.length = k ∧ ∀ c ∈ t, c ∈ choices := by
  induction k generalizing t with
  | zero =>
    rw [tuples, List.mem_singleton, List.length_eq_zero_iff]
    exact ⟨fun h => ⟨h, h ▸ by simp⟩, fun h => h.1⟩
  | succ k ih =>
    simp only [tuples, List.mem_flatMap, List.mem_map]
    constructor
    · rintro ⟨c, hc, rest, hrest, rfl⟩
      obtain ⟨hl, hm⟩ := ih.1 hrest
      exact ⟨by rw [List.length_cons, hl], List.forall_mem_cons.2 ⟨hc, hm⟩⟩
    · rintro ⟨hl, hm⟩
      cases t with
      | nil => cases hl
      | cons c rest =>
        obtain ⟨hc, hm⟩ := List.forall_mem_cons.1 hm
        exact ⟨c, hc, rest, ih.2 ⟨Nat.succ.inj hl, hm⟩, rfl⟩

theorem filter_mem_subsets {α : Type} (p : α → Bool) (as : List α) : as.filter p ∈ subsets as := by
  induction as with
  | nil => exact List.mem_singleton_self []
  | cons a as ih =>
    refine List.mem_flatMap.2 ⟨as.filter p, ih, ?_⟩
    rw [List.filter_cons]
    split
    · exact .tail _ (.head _)
    · exact .head _

/-! ## The first result of a test -/

section First

variable {α β ε : Type} {γ : Type}

theorem findSomeM?_cons (test : α → Except ε (Option β)) (x : α) (xs : List α) :
    (x :: xs).findSomeM? test =
      test x >>= fun r => match r with
        | some b => .ok (some b)
        | none => xs.findSomeM? test := rfl

theorem findSomeM?_append (test : α → Except ε (Option β)) (xs ys : List α) :
    (xs ++ ys).findSomeM? test =
      xs.findSomeM? test >>= fun r => match r with
        | some b => .ok (some b)
        | none => ys.findSomeM? test := by
  induction xs with
  | nil => rfl
  | cons x xs ih =>
    rw [List.cons_append, findSomeM?_cons, findSomeM?_cons, ih]
    cases test x with
    | error e => rfl
    | ok r => cases r <;> rfl

theorem findSomeM?_map (test : β → Except ε (Option γ)) (f : α → β) (xs : List α) :
    (xs.map f).findSomeM? test = xs.findSomeM? fun x => test (f x) := by
  induction xs with
  | nil => rfl
  | cons x xs ih => rw [List.map_cons, findSomeM?_cons, findSomeM?_cons, ih]

theorem findSomeM?_flatMap (test : β → Except ε (Option γ)) (f : α → List β) (xs : List α) :
    (xs.flatMap f).findSomeM? test = xs.findSomeM? fun x => (f x).findSomeM? test := by
  induction xs with
  | nil => rfl
  | cons x xs ih => rw [List.flatMap_cons, findSomeM?_append, findSomeM?_cons, ih]

/-- A test without failures gives the search none. -/
theorem ok_findSomeM? {test : α → Except ε (Option β)} {xs : List α}
    (runs : ∀ x ∈ xs, ∃ r, test x = .ok r) : ∃ r, xs.findSomeM? test = .ok r := by
  induction xs with
  | nil => exact ⟨none, rfl⟩
  | cons x xs ih =>
    obtain ⟨r, hr⟩ := runs x (.head _)
    rw [findSomeM?_cons, hr]
    cases r with
    | some b => exact ⟨some b, rfl⟩
    | none => exact ih fun y hy => runs y (.tail _ hy)

/-- If nothing is found, no test has a result. -/
theorem none_of_findSomeM? {test : α → Except ε (Option β)} {xs : List α}
    (h : xs.findSomeM? test = .ok none) : ∀ x ∈ xs, test x = .ok none := by
  induction xs with
  | nil => exact fun _ hx => (List.not_mem_nil hx).elim
  | cons x xs ih =>
    rw [findSomeM?_cons] at h
    cases hr : test x with
    | error e => rw [hr] at h; cases h
    | ok r =>
      rw [hr] at h
      cases r with
      | some b => cases h
      | none => exact List.forall_mem_cons.2 ⟨hr, ih h⟩

/-- A test without failures that has a result somewhere has a first one. -/
theorem exists_findSomeM? {test : α → Except ε (Option β)} {xs : List α}
    (runs : ∀ x ∈ xs, ∃ r, test x = .ok r) {x : α} (hx : x ∈ xs) {b : β}
    (hb : test x = .ok (some b)) : ∃ b, xs.findSomeM? test = .ok (some b) := by
  obtain ⟨r, hr⟩ := ok_findSomeM? runs
  cases r with
  | some b => exact ⟨b, hr⟩
  | none =>
    rw [none_of_findSomeM? hr x hx] at hb
    cases hb

/-- The first result is one of the test. -/
theorem exists_of_findSomeM? {test : α → Except ε (Option β)} {xs : List α} {b : β}
    (h : xs.findSomeM? test = .ok (some b)) : ∃ x ∈ xs, test x = .ok (some b) := by
  induction xs with
  | nil => cases h
  | cons x xs ih =>
    rw [findSomeM?_cons] at h
    cases hr : test x with
    | error e => rw [hr] at h; cases h
    | ok r =>
      rw [hr] at h
      cases r with
      | some c =>
        cases h
        exact ⟨x, .head _, hr⟩
      | none =>
        obtain ⟨y, hy, hb⟩ := ih h
        exact ⟨y, .tail _ hy, hb⟩

theorem findTuple_eq (choices : List α) (k : Nat) (test : List α → Except ε (Option β)) :
    findTuple choices k test = (tuples choices k).findSomeM? test := by
  induction k generalizing test with
  | zero =>
    rw [tuples, findSomeM?_cons, findTuple]
    cases test [] with
    | error e => rfl
    | ok r => cases r <;> rfl
  | succ k ih =>
    rw [findTuple, tuples, findSomeM?_flatMap]
    congr 1
    funext c
    rw [findSomeM?_map, ih]

/-- The search visits the interpretations in order. -/
theorem Space.find_eq (s : Space) (test : Interpretation → Except ε (Option β)) :
    s.find test = s.interpretations.findSomeM? test := by
  rw [find, interpretations, findTuple_eq, findSomeM?_flatMap]
  congr 1
  funext elements
  rw [findTuple_eq, findSomeM?_map]

end First

/-! ## The interpretations of a space -/

namespace Space

variable {s : Space} {I : Interpretation} {n : Nat} {fs : List Formula}

theorem mem_interpretations :
    I ∈ s.interpretations ↔ ∃ elements sets, elements.length = s.elementNames.length ∧
      (∀ m ∈ elements, m ∈ s.domain) ∧ sets.length = s.setNames.length ∧
      (∀ v ∈ sets, v ∈ s.setValues) ∧ I = s.interpretation elements sets := by
  simp only [interpretations, List.mem_flatMap, List.mem_map, mem_tuples]
  constructor
  · rintro ⟨elements, ⟨he, hd⟩, sets, ⟨hs, hv⟩, rfl⟩
    exact ⟨elements, sets, he, hd, hs, hv, rfl⟩
  · rintro ⟨elements, sets, he, hd, hs, hv, rfl⟩
    exact ⟨elements, ⟨he, hd⟩, sets, ⟨hs, hv⟩, rfl⟩

theorem isSet_of_setValues {v : Value} (h : v ∈ s.setValues) : v.isSet = true := by
  obtain ⟨ns, _, rfl⟩ := List.mem_map.1 h
  rfl

theorem mem_domain_ofFormulas {i : Nat} (hi : i < n) : (i : Int) ∈ (ofFormulas fs n).domain :=
  List.mem_map.2 ⟨i, List.mem_range.2 hi, rfl⟩

/-- Every set of elements below `n` is enumerated. -/
theorem mem_setValues_ofFormulas {v : Value} (hv : v.IsSetBelow n) :
    v ∈ (ofFormulas fs n).setValues := by
  let members := (ofFormulas fs n).domain.filter fun i => v.members.contains (.element i)
  have hm : members ∈ subsets (ofFormulas fs n).domain := filter_mem_subsets ..
  have he : Value.ofInts members = v := by
    refine Value.ext_members (Value.isSet_ofList _) hv.1 fun w => ?_
    rw [Value.mem_members_ofInts]
    constructor
    · rintro ⟨i, hi, rfl⟩
      exact List.contains_iff_mem.1 (List.mem_filter.1 hi).2
    · intro hw
      obtain ⟨i, hi, rfl⟩ := hv.2 w hw
      exact ⟨i, List.mem_filter.2 ⟨mem_domain_ofFormulas hi, List.contains_iff_mem.2 hw⟩, rfl⟩
  exact List.mem_map.2 ⟨members, hm, he⟩

theorem lookup_zip {α : Type} {xs : List String} {vs : List α} (hl : vs.length = xs.length)
    {x : String} (hx : x ∈ xs) : ∃ v ∈ vs, (xs.zip vs).lookup x = some v := by
  induction xs generalizing vs with
  | nil => cases hx
  | cons y xs ih =>
    cases vs with
    | nil => cases hl
    | cons v vs =>
      by_cases he : x = y
      · subst he
        exact ⟨v, .head _, List.lookup_cons_self⟩
      · have hx : x ∈ xs := (List.mem_cons.1 hx).resolve_left he
        obtain ⟨w, hw, hl⟩ := ih (Nat.succ.inj hl) hx
        exact ⟨w, .tail _ hw, by rw [List.zip_cons_cons, Interpretation.lookup_cons_of_ne he, hl]⟩

end Space

end SetSequent.Model

namespace SetSequent

open Model

/-! ## Sorted formulas have a truth value -/

section Sorted

variable {σ : Sorts}

/-- The term is an element name, or a set term. -/
def Term.IsSorted (σ : Sorts) (t : Term) : Prop := t.IsElement σ ∨ t.IsSet σ

theorem Term.isSorted_subterm : (t : Term) → t.IsSorted σ → ∀ u ∈ t :: t.subterms, u.IsSorted σ
  | .var x, ht, u, hu | .empty, ht, u, hu => by
    rw [List.mem_singleton.1 hu]
    exact ht
  | .app f args, ht, _, _ => ht.elim False.elim False.elim
  | .singleton e, ht, u, hu => by
    have he : e.IsElement σ := ht.elim False.elim id
    rcases List.mem_cons.1 hu with rfl | hu
    · exact ht
    · exact isSorted_subterm e (.inl he) u hu
  | .add a b, ht, u, hu | .remove a b, ht, u, hu => by
    have hs : a.IsElement σ ∧ b.IsSet σ := ht.elim False.elim id
    rcases List.mem_cons.1 hu with rfl | hu
    · exact ht
    · rcases List.mem_append.1 hu with hu | hu
      · exact isSorted_subterm a (.inl hs.1) u hu
      · exact isSorted_subterm b (.inr hs.2) u hu
  | .union a b, ht, u, hu | .inter a b, ht, u, hu | .diff a b, ht, u, hu => by
    have hs : a.IsSet σ ∧ b.IsSet σ := ht.elim False.elim id
    rcases List.mem_cons.1 hu with rfl | hu
    · exact ht
    · rcases List.mem_append.1 hu with hu | hu
      · exact isSorted_subterm a (.inr hs.1) u hu
      · exact isSorted_subterm b (.inr hs.2) u hu

theorem Term.IsSorted.operands {t : Term} (ht : t.IsSorted σ) {u : Term} (hu : u ∈ t.operands) :
    u.IsSet σ := by
  cases t with
  | var | app | empty | singleton => cases hu
  | add e s | remove e s =>
    rw [List.mem_singleton.1 hu]
    exact (ht.elim False.elim id : e.IsElement σ ∧ s.IsSet σ).2
  | union s t | inter s t | diff s t =>
    have hs : s.IsSet σ ∧ t.IsSet σ := ht.elim False.elim id
    rcases List.mem_cons.1 hu with rfl | hu
    · exact hs.1
    · rw [List.mem_singleton.1 hu]; exact hs.2

/-- A set term uses set names as sets, and no function symbols. -/
theorem Term.setVars_of_isSet : (t : Term) → t.IsSet σ →
    (∀ x ∈ t.setVars, x ∈ σ.sets) ∧ t.setFunctions = []
  | .var x, ht => ⟨fun _ hx => List.mem_singleton.1 hx ▸ ht, rfl⟩
  | .app f args, ht => ht.elim
  | .empty, _ | .singleton _, _ => ⟨fun _ hx => (List.not_mem_nil hx).elim, rfl⟩
  | .add e s, ht | .remove e s, ht => setVars_of_isSet s ht.2
  | .union s t, ht | .inter s t, ht | .diff s t, ht => by
    obtain ⟨hs, fs⟩ := setVars_of_isSet s ht.1
    obtain ⟨ht, ft⟩ := setVars_of_isSet t ht.2
    exact ⟨List.forall_mem_append.2 ⟨hs, ht⟩, by simp [setFunctions, fs, ft]⟩

theorem Atom.Sorted.isSorted {a : Atom} (ha : a.Sorted σ) {t : Term} (ht : t ∈ a.args) :
    t.IsSorted σ := by
  cases a with
  | eq l r =>
    rcases List.mem_cons.1 ht with rfl | ht
    · exact .inl ha.1
    · rw [List.mem_singleton.1 ht]; exact .inl ha.2
  | mem e s =>
    rcases List.mem_cons.1 ht with rfl | ht
    · exact .inl ha.1
    · rw [List.mem_singleton.1 ht]; exact .inr ha.2
  | isEmpty s => rw [List.mem_singleton.1 ht]; exact .inr ha
  | subset s u | setEq s u =>
    rcases List.mem_cons.1 ht with rfl | ht
    · exact .inr ha.1
    · rw [List.mem_singleton.1 ht]; exact .inr ha.2
  | pred => exact ha.elim

/-- Every variable of a formula stands in an atom. -/
theorem Formula.exists_atom_of_freeVars {f : Formula} {x : String} (h : x ∈ f.freeVars) :
    ∃ a ∈ f.atoms, x ∈ a.vars := by
  induction f with
  | top | bot => cases h
  | atom a => exact ⟨a, List.mem_singleton_self a, h⟩
  | not f ih => exact ih h
  | connect c l r ihl ihr =>
    rcases List.mem_append.1 h with h | h
    · obtain ⟨a, ha, hx⟩ := ihl h
      exact ⟨a, List.mem_append_left _ ha, hx⟩
    · obtain ⟨a, ha, hx⟩ := ihr h
      exact ⟨a, List.mem_append_right _ ha, hx⟩
  | all y f ih => exact ih (List.mem_filter.1 h).1

/-- A sorted formula uses names of the two sorts. -/
theorem Formula.names_of_sorted {f : Formula} (hf : f.Every (Atom.Sorted σ)) {x : String}
    (hx : x ∈ f.freeVars) : x ∈ σ.elements ∨ x ∈ σ.sets := by
  obtain ⟨a, ha, hx⟩ := exists_atom_of_freeVars hx
  obtain ⟨t, ht, hx⟩ := List.mem_flatMap.1 hx
  exact t.isSorted_subterm ((hf.of_mem_atoms ha).isSorted ht) (.var x) (t.mem_vars_iff.1 hx)

/-- **A sorted formula is interpreted** if its element names have values, and its set names sets. -/
theorem interprets_of_sorted {I : Interpretation} {f : Formula} (hf : f.Every (Atom.Sorted σ))
    (he : ∀ x ∈ σ.elements, ∃ v, I.lookup x = .ok v)
    (hs : ∀ y ∈ σ.sets, ∃ v, I.sets.lookup y = some v ∧ v.isSet = true) : I.Interprets f := by
  have terms {u : Term} (hu : u ∈ f.terms) : u.IsSorted σ := by
    obtain ⟨a, ha, hu⟩ := List.mem_flatMap.1 hu
    obtain ⟨t, ht, hu⟩ := Term.mem_listSubterms.1 hu
    exact t.isSorted_subterm ((hf.of_mem_atoms ha).isSorted ht) u hu
  have positions {u : Term} (hu : u ∈ f.setPositions) : u.IsSet σ := by
    rcases List.mem_append.1 hu with hu | hu
    · obtain ⟨a, ha, hu⟩ := List.mem_flatMap.1 hu
      exact (hf.of_mem_atoms ha).isSet hu
    · obtain ⟨t, ht, hu⟩ := List.mem_flatMap.1 hu
      exact (terms ht).operands hu
  refine ⟨fun x hx => ?_, fun g args hm => ?_, fun p args hm => ?_, fun u hu x hx => ?_,
    fun u hu g hg => ?_⟩
  · rcases Formula.names_of_sorted hf hx with hx | hx
    · exact he x hx
    · obtain ⟨v, hv, _⟩ := hs x hx
      exact ⟨v, by rw [Interpretation.lookup, hv]⟩
  · exact (terms hm).elim False.elim False.elim
  · exact (hf.of_mem_atoms hm : False).elim
  · exact hs x ((u.setVars_of_isSet (positions hu)).1 x hx)
  · rw [(u.setVars_of_isSet (positions hu)).2] at hg
    cases hg

end Sorted

/-! ## Countermodels are found -/

/-- The names that no atom of the formulas uses as a set, each once. -/
def elementVarNames (fs : List Formula) : List String :=
  ((fs.flatMap Formula.vars).filter (!(setVarNames fs).contains ·)).eraseDups

/-- The two sorts of names of the formulas. -/
def Sorts.ofFormulas (fs : List Formula) : Sorts where
  elements := elementVarNames fs
  sets := setVarNames fs
  disjoint := by
    intro x hx
    have := (List.mem_filter.1 (List.mem_eraseDups.1 hx)).2
    simpa using this

namespace Model

variable {fs : List Formula} {n : Nat} {x : String}

theorem Space.mem_setNames : x ∈ (Space.ofFormulas fs n).setNames ↔ x ∈ setVarNames fs := by
  simp only [ofFormulas, sortedNames, List.mem_mergeSort, List.mem_eraseDups]

theorem Space.mem_elementNames :
    x ∈ (Space.ofFormulas fs n).elementNames ↔ x ∈ elementVarNames fs := by
  simp only [ofFormulas, elementVarNames, sortedNames, List.mem_filter, List.mem_mergeSort,
    List.mem_eraseDups, List.contains_eq_mem]

/-- The interpretations of the space give every sorted formula a truth value. -/
theorem Space.interprets {I : Interpretation} (hI : I ∈ (Space.ofFormulas fs n).interpretations)
    {f : Formula} (hf : f.Every (Atom.Sorted (.ofFormulas fs))) : I.Interprets f := by
  obtain ⟨elements, sets, he, _, hs, hv, rfl⟩ := mem_interpretations.1 hI
  refine interprets_of_sorted hf (fun x hx => ?_) fun y hy => ?_
  · obtain ⟨m, _, hm⟩ := lookup_zip he (mem_elementNames.2 hx)
    simp only [Interpretation.lookup, interpretation, hm]
    split <;> exact ⟨_, rfl⟩
  · obtain ⟨v, hm, hl⟩ := lookup_zip hs (mem_setNames.2 hy)
    exact ⟨v, hl, isSet_of_setValues (hv v hm)⟩

theorem Interpretation.refutes?_of_holds {I : Interpretation} {facts : List Formula} {goal : Formula}
    (hf : ∀ f ∈ facts, I.holds f = .ok (I.truth f)) (hg : I.holds goal = .ok (I.truth goal)) :
    I.refutes? facts goal =
      .ok (if facts.all I.truth && !I.truth goal then some I else none) := by
  simp only [refutes?, allM_ok hf, hg]
  cases facts.all I.truth with
  | false => rfl
  | true => cases I.truth goal <;> rfl

theorem ok_of_allM {α : Type} {xs : List α} {test : α → Except ModelError Bool}
    (h : xs.allM test = .ok true) : ∀ x ∈ xs, test x = .ok true := by
  induction xs with
  | nil => exact fun _ hx => (List.not_mem_nil hx).elim
  | cons x xs ih =>
    obtain ⟨b, hb, h⟩ := ok_of_bind h
    cases b with
    | false => cases h
    | true => exact List.forall_mem_cons.2 ⟨hb, ih h⟩

/-- The test gives back the interpretations that satisfy the facts and not the goal. -/
theorem Interpretation.refutes?_eq_some_iff {I J : Interpretation} {facts : List Formula}
    {goal : Formula} : I.refutes? facts goal = .ok (some J) ↔
      J = I ∧ (∀ f ∈ facts, I.holds f = .ok true) ∧ I.holds goal = .ok false := by
  constructor
  · intro h
    obtain ⟨satisfied, hs, h⟩ := ok_of_bind h
    cases satisfied with
    | false => cases h
    | true =>
      obtain ⟨proved, hp, h⟩ := ok_of_bind h
      cases proved with
      | true => cases h
      | false =>
        cases h
        exact ⟨rfl, ok_of_allM hs, hp⟩
  · rintro ⟨rfl, hf, hg⟩
    have all : facts.allM J.holds = .ok (facts.all fun _ => true) := allM_ok hf
    rw [List.all_eq_true.2 fun _ _ => rfl] at all
    simp only [refutes?, all, hg]
    rfl

theorem domainSize_natCast (n : Nat) : domainSize n = .ok n := by
  rw [domainSize, if_neg (by omega)]
  rfl

/-- The search goes through the interpretations of the facts and the goal. -/
theorem countermodel_eq (facts : List Formula) (goal : Formula) (n : Nat) :
    countermodel facts goal n = (Space.ofFormulas (facts ++ [goal]) n).interpretations.findSomeM?
      (Interpretation.refutes? facts goal) := by
  rw [← Space.find_eq, countermodel, domainSize_natCast]
  rfl

/-- What the search finds satisfies the facts and not the goal. -/
theorem holds_of_countermodel {facts : List Formula} {goal : Formula} {n : Nat}
    {I : Interpretation} (h : countermodel facts goal n = .ok (some I)) :
    (∀ f ∈ facts, I.holds f = .ok true) ∧ I.holds goal = .ok false := by
  rw [countermodel_eq] at h
  obtain ⟨J, _, h⟩ := exists_of_findSomeM? h
  obtain ⟨rfl, h⟩ := Interpretation.refutes?_eq_some_iff.1 h
  exact h

/-- The interpretation of the space with the values of a given one. -/
def Space.select (s : Space) (I : Interpretation) : Interpretation :=
  s.interpretation (s.elementNames.map fun x => (I.denote x).number) (s.setNames.map I.denote)

section Select

variable {I : Interpretation} (hI : I.Fits (.ofFormulas fs) n)

include hI

theorem Space.select_mem_interpretations :
    (ofFormulas fs n).select I ∈ (ofFormulas fs n).interpretations := by
  refine mem_interpretations.2 ⟨_, _, List.length_map .., fun m hm => ?_, List.length_map ..,
    fun v hv => ?_, rfl⟩
  · obtain ⟨x, hx, rfl⟩ := List.mem_map.1 hm
    obtain ⟨i, hi, he⟩ := hI.elements x (mem_elementNames.1 hx)
    rw [he]
    exact mem_domain_ofFormulas hi
  · obtain ⟨y, hy, rfl⟩ := List.mem_map.1 hv
    exact mem_setValues_ofFormulas (hI.sets y (mem_setNames.1 hy))

theorem Space.agrees_select :
    ((ofFormulas fs n).select I).Agrees I fun x => x ∈ elementVarNames fs ∨ x ∈ setVarNames fs := by
  refine ⟨hI.functions.symm, hI.predicates.symm, fun x hx => ?_⟩
  simp only [Interpretation.denote, Interpretation.lookup, select, interpretation,
    ← List.map_prod_left_eq_zip, Sorts.lookup_map, mem_elementNames, mem_setNames]
  by_cases hs : x ∈ setVarNames fs
  · rw [if_pos hs]
    rfl
  · have he := hx.resolve_right hs
    rw [if_neg hs, if_pos he]
    exact Value.element_number (hI.elements x he)

end Select

/-- The interpretation of the space refutes what the given one refutes. -/
theorem Space.refutes_select {I : Interpretation} {s : Sequent} (hI : I.Fits (.ofFormulas s.formulas) n)
    (hs : s.Every (Atom.Sorted (.ofFormulas s.formulas))) (h : I.Refutes s) :
    ((ofFormulas s.formulas n).select I).Refutes s := by
  refine (Sequent.refutes_congr (hs.imp fun _ _ => trivial) fun f hf => ?_).2 h
  exact (agrees_select hI).imp fun x hx => Formula.names_of_sorted (hs f hf) hx

/-- **The search finds a countermodel** of a sorted sequent if one fits. -/
theorem exists_countermodel {s : Sequent} (hs : s.Every (Atom.Sorted (.ofFormulas s.formulas)))
    {I : Interpretation} (hI : I.Fits (.ofFormulas s.formulas) n) (h : I.Refutes s) :
    ∃ J, countermodel s.facts s.goal n = .ok (some J) := by
  let space := Space.ofFormulas s.formulas n
  have runs (J : Interpretation) (hJ : J ∈ space.interpretations) :
      J.refutes? s.facts s.goal =
        .ok (if s.facts.all J.truth && !J.truth s.goal then some J else none) := by
    apply Interpretation.refutes?_of_holds
    · intro f hf
      exact Interpretation.holds_of_interprets (Space.interprets hJ (hs f (List.mem_append_left _ hf)))
    · have hgoal := hs s.goal (Sequent.mem_formulas.2 (.inr rfl))
      exact Interpretation.holds_of_interprets (Space.interprets hJ hgoal)
  have hmem := Space.select_mem_interpretations hI
  have hselect : (space.select I).Refutes s := Space.refutes_select hI hs h
  have hfound : (space.select I).refutes? s.facts s.goal = .ok (some (space.select I)) := by
    rw [runs _ hmem, List.all_eq_true.2 hselect.1, hselect.2]
    rfl
  obtain ⟨J, hJ⟩ := exists_findSomeM? (fun J hJ => ⟨_, runs J hJ⟩) hmem hfound
  exact ⟨J, by rw [countermodel_eq]; exact hJ⟩

end Model

end SetSequent
