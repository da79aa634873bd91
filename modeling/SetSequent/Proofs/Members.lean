import SetSequent.Model.Interpretation

/-!
# Members of values

* `Tree.eq_of_ascending` — an ascending list of trees is determined by its members, since `Tree.cmp`
  is a strict total order.
* `Value.members`, `Value.isSet` — what a value holds; an integer holds nothing.
* `Value.ext_members` — sets with the same members are equal.
* `Value.join`, `Value.meet`, `Value.minus`, `Value.below` — the operations of the evaluator with a
  result on every pair of values. They agree with the evaluator where it has a result, and their
  members are those of the set operation on the members, whatever the sorts are.
* `Value.IsSetOf` — sets by a property of their members, which these operations keep.
-/

namespace SetSequent.Model

namespace Tree

/-! ## The order on trees -/

theorem cmpInt_trans {m n k : Int} (h₁ : cmpInt m n = .lt) (h₂ : cmpInt n k = .lt) :
    cmpInt m k = .lt := by
  grind [cmpInt]

mutual

theorem cmp_trans : (a b c : Tree) → cmp a b = .lt → cmp b c = .lt → cmp a c = .lt
  | .leaf m, b, c, h₁, h₂ => by
    cases b <;> cases c <;> simp_all [cmp]
    exact cmpInt_trans h₁ h₂
  | .branch ms, b, c, h₁, h₂ => by
    cases b <;> cases c <;> simp_all [cmp]
    exact cmpAll_trans ms _ _ h₁ h₂

theorem cmpAll_trans : (as bs cs : List Tree) → cmpAll as bs = .lt → cmpAll bs cs = .lt →
    cmpAll as cs = .lt
  | [], bs, cs, h₁, h₂ => by cases bs <;> cases cs <;> simp_all [cmpAll]
  | a :: as, [], _, h₁, _ => by simp [cmpAll] at h₁
  | a :: as, b :: bs, [], _, h₂ => by simp [cmpAll] at h₂
  | a :: as, b :: bs, c :: cs, h₁, h₂ => by
    rw [cmpAll] at h₁ h₂ ⊢
    cases hab : cmp a b with
    | lt =>
      cases hbc : cmp b c with
      | lt => rw [cmp_trans a b c hab hbc]
      | eq => rw [← (cmp_eq_iff b c).1 hbc, hab]
      | gt => simp [hbc] at h₂
    | eq =>
      obtain rfl := (cmp_eq_iff a b).1 hab
      cases hac : cmp a c with
      | lt => rfl
      | eq =>
        simp only [hab, hac] at h₁ h₂
        exact cmpAll_trans as bs cs h₁ h₂
      | gt => simp [hac] at h₂
    | gt => simp [hab] at h₁

end

theorem cmp_self (a : Tree) : cmp a a = .eq := (cmp_eq_iff a a).2 rfl

theorem pairwise_of_ascending : {ms : List Tree} → ascending ms = true →
    ms.Pairwise (cmp · · = .lt)
  | [], _ => .nil
  | [_], _ => List.pairwise_singleton ..
  | a :: b :: rest, h => by
    simp only [ascending, Bool.and_eq_true, beq_iff_eq] at h
    have ih := pairwise_of_ascending h.2
    refine List.pairwise_cons.2 ⟨fun c hc => ?_, ih⟩
    rcases List.mem_cons.1 hc with rfl | hc
    · exact h.1
    · exact cmp_trans a b c h.1 ((List.pairwise_cons.1 ih).1 c hc)

theorem nodup_of_ascending {ms : List Tree} (h : ascending ms = true) : ms.Nodup := by
  refine (pairwise_of_ascending h).imp fun {a b} hab he => ?_
  rw [he, cmp_self] at hab
  cases hab

/-- Ascending lists with the same members are equal. -/
theorem eq_of_ascending {ms ns : List Tree} (hm : ascending ms = true) (hn : ascending ns = true)
    (h : ∀ t, t ∈ ms ↔ t ∈ ns) : ms = ns := by
  have hp := (List.perm_ext_iff_of_nodup (nodup_of_ascending hm) (nodup_of_ascending hn)).2 h
  refine hp.eq_of_pairwise (fun a b _ _ hab hba => ?_) (pairwise_of_ascending hm)
    (pairwise_of_ascending hn)
  rw [← cmp_swap, hab] at hba
  cases hba

end Tree

/-- The result of a computation, or the fallback if there is none. -/
def withDefault (fallback : α) : Except ModelError α → α
  | .ok a => a
  | .error _ => fallback

@[simp] theorem withDefault_ok (d a : α) : withDefault d (.ok a) = a := rfl

@[simp] theorem withDefault_error (d : α) (e : ModelError) : withDefault d (.error e) = d := rfl

namespace Value

/-! ## Members -/

/-- The members of a set; an integer has none. -/
def members (v : Value) : List Value :=
  match v.view with
  | .element _ => []
  | .set ms => ms

def isSet (v : Value) : Bool :=
  match v.view with
  | .element _ => false
  | .set _ => true

@[simp] theorem members_element (n : Int) : (element n).members = [] := rfl

theorem element_inj {m n : Int} (h : element m = element n) : m = n := by
  simpa [element] using congrArg Value.tree h

/-- A value is an integer, or a set of its members. -/
theorem view_cases (v : Value) :
    (∃ n, v = element n ∧ v.view = .element n) ∨
      ∃ ms, v.view = .set ms ∧ v.members = ms ∧ v.isSet = true := by
  match v with
  | ⟨.leaf n, _⟩ => exact .inl ⟨n, rfl, rfl⟩
  | ⟨.branch ms, h⟩ => exact .inr ⟨_, rfl, rfl, rfl⟩

@[simp] theorem isSet_ofList (vs : List Value) : (ofList vs).isSet = true := rfl

@[simp] theorem mem_members_ofList {v : Value} {vs : List Value} :
    v ∈ (ofList vs).members ↔ v ∈ vs := by
  obtain ⟨ms, hv, hm⟩ := view_ofList vs
  simp only [members, hv]
  exact hm v

theorem mem_members_ofInts {v : Value} {ns : List Int} :
    v ∈ (ofInts ns).members ↔ ∃ n ∈ ns, element n = v := by
  rw [ofInts, mem_members_ofList, List.mem_map]

theorem element_mem_members_ofInts {m : Int} {ns : List Int} :
    element m ∈ (ofInts ns).members ↔ m ∈ ns := by
  rw [mem_members_ofInts]
  constructor
  · rintro ⟨n, hn, he⟩
    rwa [← element_inj he]
  · exact fun hm => ⟨m, hm, rfl⟩

theorem mem_members_iff {v w : Value} :
    w ∈ v.members ↔ ∃ ms, v.tree = .branch ms ∧ w.tree ∈ ms := by
  match v, w with
  | ⟨.leaf n, _⟩, w => simp [members, view]
  | ⟨.branch ms, h⟩, ⟨t, ht⟩ =>
    simp only [members, view, List.mem_map, List.mem_attach, true_and, Subtype.exists,
      Tree.branch.injEq, exists_eq_left', mk.injEq]
    constructor
    · rintro ⟨u, hu, rfl⟩; exact hu
    · exact fun hu => ⟨t, hu, rfl⟩

/-- Sets with the same members are equal. -/
theorem ext_members {a b : Value} (ha : a.isSet = true) (hb : b.isSet = true)
    (h : ∀ w, w ∈ a.members ↔ w ∈ b.members) : a = b := by
  match a, b with
  | ⟨.leaf _, _⟩, _ => cases ha
  | ⟨.branch _, _⟩, ⟨.leaf _, _⟩ => cases hb
  | ⟨.branch ms, hm⟩, ⟨.branch ns, hn⟩ =>
    have he : ms = ns := by
      have hm' := hm
      have hn' := hn
      simp only [Tree.isCanonical, Bool.and_eq_true] at hm' hn'
      refine Tree.eq_of_ascending hm'.1 hn'.1 fun t => ⟨fun ht => ?_, fun ht => ?_⟩
      · obtain ⟨_, he, hw⟩ := mem_members_iff.1
          ((h ⟨t, canonical_of_mem hm ht⟩).1 (mem_members_iff.2 ⟨ms, rfl, ht⟩))
        cases he; exact hw
      · obtain ⟨_, he, hw⟩ := mem_members_iff.1
          ((h ⟨t, canonical_of_mem hn ht⟩).2 (mem_members_iff.2 ⟨ns, rfl, ht⟩))
        cases he; exact hw
    subst he
    rfl

/-! ## Operations with a result on all values -/

/-- Union, of the members if the sorts do not fit. -/
def join (a b : Value) : Value := withDefault (ofList (a.members ++ b.members)) (a.union b)

/-- Intersection, of the members if the sorts do not fit. -/
def meet (a b : Value) : Value :=
  withDefault (ofList (a.members.filter (b.members.contains ·))) (a.inter b)

/-- Difference, of the members if the sorts do not fit. -/
def minus (a b : Value) : Value :=
  withDefault (ofList (a.members.filter (!b.members.contains ·))) (a.diff b)

/-- Inclusion, which fails if the sorts do not fit. -/
def below (a b : Value) : Bool := withDefault false (a.isSubset b)

section OnSort

variable {a b w : Value} {f : Int → Int → Int} {g : List Value → List Value → List Value}

/-- An operation that works on the members where it must has the members it should. -/
theorem mem_members_onSort (hg : g [] [] = []) :
    w ∈ (withDefault (ofList (g a.members b.members))
        (onSort a b (fun m n => element (f m n)) fun xs ys => ofList (g xs ys))).members ↔
      w ∈ g a.members b.members := by
  rcases view_cases a with ⟨m, rfl, ha⟩ | ⟨xs, ha, hx, _⟩ <;>
    rcases view_cases b with ⟨n, rfl, hb⟩ | ⟨ys, hb, hy, _⟩ <;>
    simp_all [onSort]

theorem isSet_onSort (hs : a.isSet = true) :
    (withDefault (ofList (g a.members b.members))
      (onSort a b (fun m n => element (f m n)) fun xs ys => ofList (g xs ys))).isSet = true := by
  rcases view_cases a with ⟨m, rfl, _⟩ | ⟨xs, ha, _, _⟩
  · cases hs
  · rcases view_cases b with ⟨n, rfl, hb⟩ | ⟨ys, hb, _, _⟩ <;> simp [onSort, ha, hb]

theorem mem_members_join : w ∈ (join a b).members ↔ w ∈ a.members ∨ w ∈ b.members := by
  rw [join, union, mem_members_onSort (g := (· ++ ·)) rfl, List.mem_append]

theorem mem_members_meet : w ∈ (meet a b).members ↔ w ∈ a.members ∧ w ∈ b.members := by
  rw [meet, inter, mem_members_onSort (g := fun xs ys => xs.filter (ys.contains ·)) rfl,
    List.mem_filter, List.contains_iff_mem]

theorem mem_members_minus : w ∈ (minus a b).members ↔ w ∈ a.members ∧ w ∉ b.members := by
  rw [minus, diff, mem_members_onSort (g := fun xs ys => xs.filter (!ys.contains ·)) rfl,
    List.mem_filter, Bool.not_eq_true', Bool.eq_false_iff, Ne, List.contains_iff_mem]

theorem isSet_join (ha : a.isSet = true) : (join a b).isSet = true :=
  isSet_onSort (g := (· ++ ·)) ha

theorem isSet_meet (ha : a.isSet = true) : (meet a b).isSet = true :=
  isSet_onSort (g := fun xs ys => xs.filter (ys.contains ·)) ha

theorem isSet_minus (ha : a.isSet = true) : (minus a b).isSet = true :=
  isSet_onSort (g := fun xs ys => xs.filter (!ys.contains ·)) ha

end OnSort

/-- What is included has no other members. -/
theorem mem_of_below {a b w : Value} (h : below a b = true) (hw : w ∈ a.members) :
    w ∈ b.members := by
  rcases view_cases a with ⟨m, rfl, ha⟩ | ⟨xs, ha, hx, _⟩
  · simp at hw
  · rcases view_cases b with ⟨n, rfl, hb⟩ | ⟨ys, hb, hy, _⟩
    · simp [below, isSubset, onSort, ha, hb] at h
    · simp only [below, isSubset, onSort, ha, hb, withDefault_ok, List.all_eq_true,
        List.contains_iff_mem] at h
      rw [hx] at hw
      rw [hy]
      exact h w hw

theorem below_of_mem {a b : Value} (ha : a.isSet = true) (hb : b.isSet = true)
    (h : ∀ w ∈ a.members, w ∈ b.members) : below a b = true := by
  rcases view_cases a with ⟨m, rfl, _⟩ | ⟨xs, hv, hx, _⟩
  · cases ha
  · rcases view_cases b with ⟨n, rfl, _⟩ | ⟨ys, hw, hy, _⟩
    · cases hb
    · rw [hx, hy] at h
      simpa [below, isSubset, onSort, hv, hw] using h

theorem not_mem_of_isVoid {a w : Value} (h : a.isVoid = true) : w ∉ a.members := by
  rcases view_cases a with ⟨m, rfl, _⟩ | ⟨xs, hv, hx, _⟩
  · simp
  · simp only [isVoid, hv, List.isEmpty_iff] at h
    simp [hx, h]

theorem isVoid_of_not_mem {a : Value} (ha : a.isSet = true) (h : ∀ w, w ∉ a.members) :
    a.isVoid = true := by
  rcases view_cases a with ⟨m, rfl, _⟩ | ⟨xs, hv, hx, _⟩
  · cases ha
  · rw [hx] at h
    simpa [isVoid, hv] using List.eq_nil_iff_forall_not_mem.2 h

/-! ## Agreement with the evaluator -/

theorem contains_of_isMember {a b : Value} {t : Bool} (h : a.isMember b = .ok t) :
    b.members.contains a = t := by
  rcases view_cases b with ⟨n, rfl, hb⟩ | ⟨ys, hb, hy, _⟩
  · simp [isMember] at h
  · simpa [isMember, hb, hy] using h

theorem isMember_of_isSet {a b : Value} (hb : b.isSet = true) :
    a.isMember b = .ok (b.members.contains a) := by
  rcases view_cases b with ⟨n, rfl, _⟩ | ⟨ys, hv, hy, _⟩
  · cases hb
  · simp [isMember, hv, hy]

theorem onSort_of_isSet {a b : Value} (ha : a.isSet = true) (hb : b.isSet = true)
    (f : Int → Int → α) (g : List Value → List Value → α) :
    onSort a b f g = .ok (g a.members b.members) := by
  rcases view_cases a with ⟨m, rfl, _⟩ | ⟨xs, hv, hx, _⟩
  · cases ha
  · rcases view_cases b with ⟨n, rfl, _⟩ | ⟨ys, hw, hy, _⟩
    · cases hb
    · simp [onSort, hv, hw, hx, hy]

section Sets

variable {a b : Value} (ha : a.isSet = true) (hb : b.isSet = true)
include ha hb

theorem union_of_isSet : a.union b = .ok (a.join b) := by
  rw [join, union, onSort_of_isSet ha hb, withDefault_ok]

theorem inter_of_isSet : a.inter b = .ok (a.meet b) := by
  rw [meet, inter, onSort_of_isSet ha hb, withDefault_ok]

theorem diff_of_isSet : a.diff b = .ok (a.minus b) := by
  rw [minus, diff, onSort_of_isSet ha hb, withDefault_ok]

theorem isSubset_of_isSet : a.isSubset b = .ok (a.below b) := by
  rw [below, isSubset, onSort_of_isSet ha hb, withDefault_ok]

end Sets

/-! ## Sets by what they hold -/

/-- A set whose members have the property. -/
def IsSetOf (E : Value → Prop) (v : Value) : Prop := v.isSet = true ∧ ∀ w ∈ v.members, E w

/-- An integer of the list. -/
def IsElementWithin (elements : List Int) (v : Value) : Prop := ∃ n ∈ elements, v = .element n

/-- A set of integers of the list. -/
def IsSetWithin (elements : List Int) : Value → Prop := IsSetOf (IsElementWithin elements)

section IsSetOf

variable {E : Value → Prop} {a b : Value}

theorem isSetOf_ofList {vs : List Value} (h : ∀ v ∈ vs, E v) : (ofList vs).IsSetOf E :=
  ⟨isSet_ofList vs, fun w hw => h w (mem_members_ofList.1 hw)⟩

theorem IsSetOf.join (ha : a.IsSetOf E) (hb : ∀ w ∈ b.members, E w) : (a.join b).IsSetOf E :=
  ⟨isSet_join ha.1, fun w hw => (mem_members_join.1 hw).elim (ha.2 w) (hb w)⟩

theorem IsSetOf.meet (ha : a.IsSetOf E) (b : Value) : (a.meet b).IsSetOf E :=
  ⟨isSet_meet ha.1, fun w hw => ha.2 w (mem_members_meet.1 hw).1⟩

theorem IsSetOf.minus (ha : a.IsSetOf E) (b : Value) : (a.minus b).IsSetOf E :=
  ⟨isSet_minus ha.1, fun w hw => ha.2 w (mem_members_minus.1 hw).1⟩

end IsSetOf

end Value

end SetSequent.Model
