import Mathlib
import SetSequent.Proofs.ExprMeaning
import SetSequent.Solver.Encoding

/-!
# Encoded formulas mean what the formulas mean

The encoder declares symbols as it meets them, and a formula that fails leaves its declarations to the
next. Each part of the encoder is specified by a triple: from regular declarations it ends with regular
ones, also when it fails, and an expression that it returns means what was encoded.

* `Regular` — the invariant: declared sorts are those of the vocabulary.
* `bind_spec`, `ensure_pure_spec`, `constant_spec`, `apply_spec` — the rules for the parts of the encoder.
* `Expr.Means`, `Expr.States` — an expression means the value of a term, the truth of a formula, whatever
  elements the quantifiers around it bind.
* `Expr.Means.operation` — the rule for the operations on sets.
* `encodeTerm_spec`, `encodeFormula_spec` — what is returned for a term and for a formula means it.
* `encode_meaning` — what is returned for a list of formulas means the formulas.
-/

namespace SetSequent

open Model Std.Do

set_option mvcgen.warning false

/-! ## Names -/

/-- The names that quantifiers of the formula bind. -/
def Formula.quantified : Formula → List String
  | .top | .bot | .atom _ => []
  | .not f => f.quantified
  | .connect _ l r => l.quantified ++ r.quantified
  | .all x f => x :: f.quantified

namespace Model.Interpretation

/-- The interpretation inside quantifiers that bind the names of `scope`, the innermost first, to the
elements of `bound`. -/
def under (I : Interpretation) (scope : List String) (bound : List Int) : Interpretation :=
  { I with elements := scope.zip bound ++ I.elements }

/-- The quantifiers bind as many elements as there are names, all of the domain. -/
structure Binds (I : Interpretation) (scope : List String) (bound : List Int) : Prop where
  length : bound.length = scope.length
  within : ∀ n ∈ bound, n ∈ I.domain

theorem Binds.cons {I : Interpretation} {scope : List String} {bound : List Int}
    (h : I.Binds scope bound) (x : String) {n : Int} (hn : n ∈ I.domain) :
    I.Binds (x :: scope) (n :: bound) :=
  ⟨by simp [h.length], by simpa using ⟨hn, h.within⟩⟩

end Model.Interpretation

namespace Solver

variable {v : Vocabulary}

/-! ## Rules for the encoder -/

/-- The declarations satisfy the invariant `J`. -/
abbrev declared (J : Declarations → Prop) : Assertion (.arg Declarations .pure) := fun d => ⌜J d⌝

/-- The declarations satisfy the invariant `J`, also after a failure, and the result satisfies `Q`. -/
abbrev keeps {α : Type} (J : Declarations → Prop) (Q : α → Prop) :
    PostCond α (.except SortMismatch (.arg Declarations .pure)) :=
  post⟨fun a d => ⌜J d ∧ Q a⌝, fun _ d => ⌜J d⌝⟩

section Rules

variable {J : Declarations → Prop} {α β : Type} {P : α → Prop} {Q : β → Prop}

theorem pure_spec {a : α} (h : P a) : ⦃declared J⦄ (pure a : Encoder α) ⦃keeps J P⦄ := by
  mvcgen

theorem bind_spec {m : Encoder α} {k : α → Encoder β} (hm : ⦃declared J⦄ m ⦃keeps J P⦄)
    (hk : ∀ a, P a → ⦃declared J⦄ k a ⦃keeps J Q⦄) : ⦃declared J⦄ (m >>= k) ⦃keeps J Q⦄ :=
  Triple.bind m k hm fun a d hd => hk a hd.2 d hd.1

theorem ensure_spec (c : Bool) : ⦃declared J⦄ ensure c ⦃keeps J fun _ => c = true⦄ := by
  mvcgen [ensure]

/-- A result that is given only if a condition holds. -/
theorem ensure_pure_spec {c : Bool} {a : α} (h : c = true → P a) :
    ⦃declared J⦄ (do ensure c; pure a : Encoder α) ⦃keeps J P⦄ :=
  bind_spec (ensure_spec c) fun _ hc => pure_spec (h hc)

theorem store_spec {R : Expr → Prop} {a b : Expr} {present : Bool}
    (h : a.domain = .set → b.domain = .elem → R (.store a b present)) :
    ⦃declared J⦄ store a b present ⦃keeps J R⦄ :=
  ensure_pure_spec fun hc => by
    simp only [Bool.and_eq_true, decide_eq_true_eq] at hc
    exact h hc.1 hc.2

theorem onSets_spec {R : Expr → Prop} {a b : Expr} {op : Expr → Expr → Expr}
    (h : a.domain = .set → b.domain = .set → R (op a b)) :
    ⦃declared J⦄ onSets op a b ⦃keeps J R⦄ :=
  ensure_pure_spec fun hc => by
    simp only [Bool.and_eq_true, decide_eq_true_eq] at hc
    exact h hc.1 hc.2

theorem equal_spec {R : Expr → Prop} {a b : Expr} (h : a.domain = b.domain → R (.equal a b)) :
    ⦃declared J⦄ equal a b ⦃keeps J R⦄ :=
  ensure_pure_spec fun hc => h (of_decide_eq_true hc)

/-- What a triple says about a run. -/
theorem run_spec {m : Encoder α} (h : ⦃declared J⦄ m ⦃keeps J P⦄) {d : Declarations} (hd : J d) :
    J (m.run.run d).2 ∧ ∀ a, (m.run.run d).1 = .ok a → P a := by
  have outcome := h d hd
  simp only [wp, PredTrans.apply_pushExcept, PredTrans.apply_pushArg, PredTrans.apply_Pure_pure]
    at outcome
  generalize m.run.run d = result at outcome ⊢
  obtain ⟨r, d'⟩ := result
  cases r with
  | error e => exact ⟨outcome, fun a ha => by cases ha⟩
  | ok a =>
    refine ⟨outcome.1, fun a' ha => ?_⟩
    cases ha
    exact outcome.2

end Rules

/-! ## Symbols -/

/-- What declarations keep while formulas without functions are encoded: a constant has the sort that
the vocabulary gives to its name, and the result of a function is a truth value. -/
structure Regular (v : Vocabulary) (d : Declarations) : Prop where
  constants : ∀ x e, d.constants.lookup x = some e → e = v.variableDomain x
  functions : ∀ k a, d.functions.lookup k = some a → a.result = .bool

theorem constant_spec (scope : List String) (x : String) :
    ⦃declared (Regular v)⦄ constant scope x (v.variableDomain x)
    ⦃keeps (Regular v) fun e => (∃ k, scope.idxOf? x = some k ∧ e = .bound k) ∨
      scope.idxOf? x = none ∧ e = .symbol x (v.variableDomain x) []⦄ := by
  mvcgen [constant]
  case vc1 k hk d hd => exact ⟨hd, .inl ⟨k, hk, rfl⟩⟩
  case vc2 hk d hd e he => exact ⟨hd, .inr ⟨hk, by rw [hd.constants x e he]⟩⟩
  case vc3 hk d hd he =>
    refine ⟨⟨fun y e hy => ?_, hd.functions⟩, .inr hk⟩
    by_cases h : y = x
    · subst h
      simpa using hy.symm
    · rw [Interpretation.lookup_cons_of_ne h] at hy
      exact hd.constants y e hy

theorem arrow_spec (p : String) (args : List Domain) :
    ⦃declared (Regular v)⦄ arrow p args .bool ⦃keeps (Regular v) (·.result = .bool)⦄ := by
  mvcgen [arrow]
  case vc1 d hd a ha => exact ⟨hd, hd.functions _ a ha⟩
  case vc2 d hd _ _ =>
    refine ⟨⟨hd.constants, fun k a hk => ?_⟩, rfl⟩
    rw [List.lookup_cons] at hk
    split at hk
    · cases hk
      rfl
    · exact hd.functions k a hk

theorem apply_spec (p : String) (args : List Expr) :
    ⦃declared (Regular v)⦄ apply p args .bool ⦃keeps (Regular v) (· = .symbol p .bool args)⦄ := by
  refine bind_spec (arrow_spec p _) fun a ha => ensure_pure_spec fun _ => ?_
  rw [ha]

/-! ## Terms -/

variable {I : Interpretation} {scope : List String}

/-- The interpretation has a meaning for the name, of the sort that the vocabulary gives to it. -/
inductive Gives (I : Interpretation) (v : Vocabulary) (scope : List String) (x : String) : Prop where
  | set {w : Value} (named : x ∈ v.setNames) (free : x ∉ scope) (value : I.sets.lookup x = some w)
      (within : w.IsSetWithin I.domain)
  | element {n : Int} (unnamed : x ∉ v.setNames) (value : I.sets.lookup x = none)
      (element : I.elements.lookup x = some n) (mem : n ∈ I.domain)
  | bound (unnamed : x ∉ v.setNames) (value : I.sets.lookup x = none) (mem : x ∈ scope)

theorem Gives.of_idxOf? {x : String} {k : Nat} (h : Gives I v scope x)
    (hk : scope.idxOf? x = some k) : I.sets.lookup x = none := by
  cases h with
  | set _ free _ _ =>
    rw [List.idxOf?_eq_none_iff.2 free] at hk
    cases hk
  | element _ value _ _ => exact value
  | bound _ value _ => exact value

/-- In the scope of quantifiers the expression means the value of the term, whatever they bind. -/
def Expr.Means (I : Interpretation) (scope : List String) (t : Term) (e : Expr) : Prop :=
  ∀ bound, I.Binds scope bound → ∃ w, (I.under scope bound).eval t = .ok w ∧
    (e.meaning I bound).Represents I.domain w ∧ (e.meaning I bound).domain = e.domain

theorem lookup_zip_of_idxOf? {scope : List String} {bound : List Int} {x : String} {k : Nat}
    (hl : bound.length = scope.length) (h : scope.idxOf? x = some k) (rest : List (String × Int)) :
    (scope.zip bound ++ rest).lookup x = some (bound.getD k 0) ∧ bound.getD k 0 ∈ bound := by
  induction scope generalizing bound k with
  | nil => cases h
  | cons y scope ih =>
    cases bound with
    | nil => cases hl
    | cons n bound =>
      rw [List.idxOf?_cons] at h
      split at h
      · rename_i he
        cases h
        simp [beq_iff_eq.1 he]
      · rename_i he
        obtain ⟨j, hj, rfl⟩ := Option.map_eq_some_iff.1 h
        obtain ⟨hn, hm⟩ := ih (Nat.succ.inj hl) hj
        refine ⟨?_, .tail _ hm⟩
        rw [List.zip_cons_cons, List.cons_append,
          Interpretation.lookup_cons_of_ne fun hx => he (beq_iff_eq.2 hx.symm), hn]
        rfl

theorem lookup_zip_of_not_mem {scope : List String} {bound : List Int} {x : String}
    (h : x ∉ scope) (rest : List (String × Int)) :
    (scope.zip bound ++ rest).lookup x = rest.lookup x := by
  induction scope generalizing bound with
  | nil => rfl
  | cons y scope ih =>
    obtain ⟨hy, hs⟩ := not_or.1 (mt List.mem_cons.2 h)
    cases bound with
    | nil => rfl
    | cons n bound =>
      rw [List.zip_cons_cons, List.cons_append, Interpretation.lookup_cons_of_ne hy, ih hs]

theorem variableDomain_of_mem {x : String} (h : x ∈ v.setNames) : v.variableDomain x = .set := by
  simp [Vocabulary.variableDomain, h]

theorem variableDomain_of_not_mem {x : String} (h : x ∉ v.setNames) :
    v.variableDomain x = .elem := by
  simp [Vocabulary.variableDomain, h]

/-- A bound name means the element that it is bound to. -/
theorem means_bound {x : String} {k : Nat} (hs : I.sets.lookup x = none)
    (hk : scope.idxOf? x = some k) : (Expr.bound k).Means I scope (.var x) := by
  intro bound hb
  obtain ⟨hl, hm⟩ := lookup_zip_of_idxOf? hb.length hk I.elements
  refine ⟨.element (bound.getD k 0), ?_, .element (hb.within _ hm), rfl⟩
  simp only [Interpretation.eval, Interpretation.lookup, Interpretation.under, hs, hl]

/-- A name that no quantifier binds means what the interpretation gives to it. -/
theorem means_symbol {x : String} (hx : Gives I v scope x) (hs : x ∉ scope) :
    (Expr.symbol x (v.variableDomain x) []).Means I scope (.var x) := by
  intro bound hb
  cases hx with
  | @set w named _ value within =>
    have denote : I.denote x = w := by simp [Interpretation.denote, Interpretation.lookup, value]
    rw [variableDomain_of_mem named, Expr.meaning_constant x (by decide), denote]
    refine ⟨w, ?_, Meaning.represents_ofValue_set within, Meaning.domain_ofValue within.1⟩
    simp only [Interpretation.eval, Interpretation.lookup, Interpretation.under, value]
  | @element n unnamed value element mem =>
    have denote : I.denote x = .element n := by
      simp [Interpretation.denote, Interpretation.lookup, value, element]
    rw [variableDomain_of_not_mem unnamed, Expr.meaning_constant x (by decide), denote]
    refine ⟨.element n, ?_, .element mem, rfl⟩
    simp only [Interpretation.eval, Interpretation.lookup, Interpretation.under, value,
      lookup_zip_of_not_mem hs, element]
  | bound _ _ mem => exact absurd mem hs

namespace Expr.Means

variable {a b : Expr} {s t : Term}

theorem empty : Expr.emptySet.Means I scope .empty := by
  intro bound _
  refine ⟨.ofList [], by simp only [Interpretation.eval], ?_, ?_⟩ <;> rw [meaning]
  · exact .empty
  · rfl

section Sets

variable (ha : a.Means I scope s) (hb : b.Means I scope t) (da : a.domain = .set)
include ha hb da

/-- What two expressions of known sorts mean. -/
theorem both {d : Domain} (db : b.domain = d) {bound : List Int} (h : I.Binds scope bound) :
    ∃ u w, (I.under scope bound).eval s = .ok u ∧ (I.under scope bound).eval t = .ok w ∧
      (a.meaning I bound).Represents I.domain u ∧ (b.meaning I bound).Represents I.domain w ∧
      (a.meaning I bound).domain = .set ∧ (b.meaning I bound).domain = d := by
  obtain ⟨u, hu, ra, sa⟩ := ha bound h
  obtain ⟨w, hw, rb, sb⟩ := hb bound h
  exact ⟨u, w, hu, hw, ra, rb, sa.trans da, sb.trans db⟩

/-- **One rule for the operations** on a set and a value of the domain `d`: if the result is `op`, and what
the expression holds represents it, then the expression means the term. -/
theorem operation {e : Expr} {r : Term} {d : Domain} {op : Value → Value → Value}
    {has : Meaning → Meaning → Int → Bool} (db : b.domain = d) (de : e.domain = .set)
    (represented : ∀ {m k : Meaning} {u w : Value}, m.Represents I.domain u →
      k.Represents I.domain w → m.domain = .set → k.domain = d →
        (Meaning.set (has m k)).Represents I.domain (op u w))
    (evaluated : ∀ {J : Interpretation} {u w : Value}, J.eval s = .ok u → J.eval t = .ok w →
      u.isSet = true → (d = .set → w.isSet = true) → J.eval r = .ok (op u w))
    (expressed : ∀ bound, e.meaning I bound = .set (has (a.meaning I bound) (b.meaning I bound))) :
    e.Means I scope r := by
  intro bound h
  obtain ⟨u, w, hu, hw, ra, rb, sa, sb⟩ := both ha hb da db h
  refine ⟨op u w, ?_, ?_, ?_⟩
  · exact evaluated hu hw (ra.isSetWithin sa).1 fun hd => (rb.isSetWithin (sb.trans hd)).1
  · rw [expressed]
    exact represented ra rb sa sb
  · rw [expressed, de]
    rfl

theorem union (db : b.domain = .set) : (Expr.union a b).Means I scope (.union s t) := by
  refine operation ha hb da db rfl Meaning.Represents.union (fun hu hw su sw => ?_) fun _ => rfl
  simp only [Interpretation.eval, hu, hw]
  exact Value.union_of_isSet su (sw rfl)

theorem inter (db : b.domain = .set) : (Expr.inter a b).Means I scope (.inter s t) := by
  refine operation ha hb da db rfl Meaning.Represents.inter (fun hu hw su sw => ?_) fun _ => rfl
  simp only [Interpretation.eval, hu, hw]
  exact Value.inter_of_isSet su (sw rfl)

theorem diff (db : b.domain = .set) : (Expr.diff a b).Means I scope (.diff s t) := by
  refine operation ha hb da db rfl Meaning.Represents.diff (fun hu hw su sw => ?_) fun _ => rfl
  simp only [Interpretation.eval, hu, hw]
  exact Value.diff_of_isSet su (sw rfl)

theorem add (db : b.domain = .elem) : (Expr.store a b true).Means I scope (.add t s) := by
  refine operation ha hb da db rfl Meaning.Represents.store_true (fun hu hw su _ => ?_) fun _ => rfl
  simp only [Interpretation.eval, hu, hw]
  exact Value.union_of_isSet su rfl

theorem remove (db : b.domain = .elem) : (Expr.store a b false).Means I scope (.remove t s) := by
  refine operation ha hb da db rfl Meaning.Represents.store_false (fun hu hw su _ => ?_) fun _ => rfl
  simp only [Interpretation.eval, hu, hw]
  exact Value.diff_of_isSet su rfl

end Sets

/-- A set of one element is made from the empty set. -/
theorem singleton (hb : b.Means I scope t) (db : b.domain = .elem) :
    (Expr.store .emptySet b true).Means I scope (.singleton t) := by
  intro bound h
  obtain ⟨w, hw, rb, sb⟩ := hb bound h
  have joined : (Value.ofList []).join (.ofList [w]) = .ofList [w] :=
    Value.ext_members (Value.isSet_join rfl) rfl fun x => by simp [Value.mem_members_join]
  refine ⟨.ofList [w], ?_, ?_, ?_⟩
  · simp only [Interpretation.eval, hw]
    rfl
  · rw [meaning, meaning, ← joined]
    exact Meaning.Represents.empty.store_true rb rfl (sb.trans db)
  · rw [meaning]
    rfl

end Expr.Means

/-- What is asked of a term, its parts aside: it is no application, and a name has a meaning. -/
structure Plain (I : Interpretation) (v : Vocabulary) (scope : List String) (t : Term) : Prop where
  name : ∀ x, t = .var x → Gives I v scope x
  noFunction : ∀ g args, t ≠ .app g args

mutual

/-- **The expression of a term means its value.** -/
theorem encodeTerm_spec : (t : Term) → (∀ u ∈ t :: t.subterms, Plain I v scope u) →
    ⦃declared (Regular v)⦄ encodeTerm v scope t ⦃keeps (Regular v) (Expr.Means I scope t)⦄
  | .var x, h => by
    have hx := (h _ (.head _)).name x rfl
    rw [encodeTerm, ← bind_pure (constant scope x _)]
    refine bind_spec (constant_spec scope x) fun e he => pure_spec ?_
    rcases he with ⟨k, hk, rfl⟩ | ⟨hk, rfl⟩
    · exact means_bound (hx.of_idxOf? hk) hk
    · exact means_symbol hx (List.idxOf?_eq_none_iff.1 hk)
  | .app f args, h => absurd rfl ((h _ (.head _)).noFunction f args)
  | .empty, _ => by
    rw [encodeTerm]
    exact pure_spec .empty
  | .singleton e, h => by
    have he := encodeTerm_spec e fun u hu => h u (.tail _ hu)
    rw [encodeTerm]
    exact bind_spec he fun b hb => store_spec fun _ => hb.singleton
  | .add e s, h => by
    have hs := encodeTerm_spec s fun u hu => h u (.tail _ (List.mem_append_right _ hu))
    have he := encodeTerm_spec e fun u hu => h u (.tail _ (List.mem_append_left _ hu))
    rw [encodeTerm]
    exact bind_spec hs fun a ha => bind_spec he fun b hb => store_spec (ha.add hb)
  | .remove e s, h => by
    have hs := encodeTerm_spec s fun u hu => h u (.tail _ (List.mem_append_right _ hu))
    have he := encodeTerm_spec e fun u hu => h u (.tail _ (List.mem_append_left _ hu))
    rw [encodeTerm]
    exact bind_spec hs fun a ha => bind_spec he fun b hb => store_spec (ha.remove hb)
  | .union s t, h => by
    have hs := encodeTerm_spec s fun u hu => h u (.tail _ (List.mem_append_left _ hu))
    have ht := encodeTerm_spec t fun u hu => h u (.tail _ (List.mem_append_right _ hu))
    rw [encodeTerm]
    exact bind_spec hs fun a ha => bind_spec ht fun b hb => onSets_spec (ha.union hb)
  | .inter s t, h => by
    have hs := encodeTerm_spec s fun u hu => h u (.tail _ (List.mem_append_left _ hu))
    have ht := encodeTerm_spec t fun u hu => h u (.tail _ (List.mem_append_right _ hu))
    rw [encodeTerm]
    exact bind_spec hs fun a ha => bind_spec ht fun b hb => onSets_spec (ha.inter hb)
  | .diff s t, h => by
    have hs := encodeTerm_spec s fun u hu => h u (.tail _ (List.mem_append_left _ hu))
    have ht := encodeTerm_spec t fun u hu => h u (.tail _ (List.mem_append_right _ hu))
    rw [encodeTerm]
    exact bind_spec hs fun a ha => bind_spec ht fun b hb => onSets_spec (ha.diff hb)

theorem encodeTerms_spec : (ts : List Term) → (∀ t ∈ ts, ∀ u ∈ t :: t.subterms, Plain I v scope u) →
    ⦃declared (Regular v)⦄ encodeTerms v scope ts
    ⦃keeps (Regular v) (List.Forall₂ (Expr.Means I scope) ts)⦄
  | [], _ => by
    rw [encodeTerms]
    exact pure_spec .nil
  | t :: ts, h => by
    have ht := encodeTerm_spec t (h t (.head _))
    have hts := encodeTerms_spec ts fun t' ht' => h t' (.tail _ ht')
    rw [encodeTerms]
    exact bind_spec ht fun e he => bind_spec hts fun es hes => pure_spec (.cons he hes)

end

/-! ## Formulas -/

/-- In the scope of quantifiers the expression means the truth of the formula, whatever they bind. -/
def Expr.States (I : Interpretation) (scope : List String) (f : Formula) (e : Expr) : Prop :=
  ∀ bound, I.Binds scope bound → ∃ b, (I.under scope bound).holds f = .ok b ∧
    e.meaning I bound = .truth b

theorem evalAll_of_means {ts : List Term} {es : List Expr}
    (h : List.Forall₂ (Expr.Means I scope) ts es) {bound : List Int} (hb : I.Binds scope bound) :
    (I.under scope bound).evalAll ts = .ok (Expr.values I bound es) := by
  induction h with
  | nil => simp only [Interpretation.evalAll, Expr.values]
  | cons ht _ ih =>
    obtain ⟨w, hw, rb, _⟩ := ht bound hb
    simp only [Interpretation.evalAll, Expr.values, hw, ih, rb.value_eq]
    rfl

namespace Expr.States

variable {a b : Expr}

theorem equal {l r : Term} (ha : a.Means I scope l) (hb : b.Means I scope r)
    (hd : a.domain = b.domain) : (Expr.equal a b).States I scope (.atom (.eq l r)) := by
  intro bound h
  obtain ⟨u, hu, ra, sa⟩ := ha bound h
  obtain ⟨w, hw, rb, sb⟩ := hb bound h
  refine ⟨u == w, ?_, ?_⟩
  · simp only [Interpretation.holds, Interpretation.holdsAtom, hu, hw]
    rfl
  · rw [meaning, ra.same_eq rb (by rw [sa, sb, hd])]

theorem select {e s : Term} (ha : a.Means I scope e) (hb : b.Means I scope s)
    (db : b.domain = .set) (da : a.domain = .elem) :
    (Expr.select b a).States I scope (.atom (.mem e s)) := by
  intro bound h
  obtain ⟨w, u, hw, hu, rb, ra, sb, sa⟩ := hb.both ha db da h
  refine ⟨w.members.contains u, ?_, ?_⟩
  · simp only [Interpretation.holds, Interpretation.holdsAtom, hu, hw]
    exact Value.isMember_of_isSet (rb.isSetWithin sb).1
  · rw [meaning, rb.has_eq ra sb sa]

theorem isEmpty {s : Term} (ha : a.Means I scope s) (da : a.domain = .set) :
    (Expr.equal a .emptySet).States I scope (.atom (.isEmpty s)) := by
  intro bound h
  obtain ⟨u, hu, ra, sa⟩ := ha bound h
  refine ⟨u.isVoid, ?_, ?_⟩
  · simp only [Interpretation.holds, Interpretation.holdsAtom, hu]
    rfl
  · rw [meaning, meaning, ra.empty_eq (sa.trans da)]

theorem subset {s t : Term} (ha : a.Means I scope s) (hb : b.Means I scope t) (da : a.domain = .set)
    (db : b.domain = .set) : (Expr.subset a b).States I scope (.atom (.subset s t)) := by
  intro bound h
  obtain ⟨u, w, hu, hw, ra, rb, sa, sb⟩ := ha.both hb da db h
  refine ⟨u.below w, ?_, ?_⟩
  · simp only [Interpretation.holds, Interpretation.holdsAtom, hu, hw]
    exact Value.isSubset_of_isSet (ra.isSetWithin sa).1 (rb.isSetWithin sb).1
  · rw [meaning, ra.subset_eq rb sa sb]

theorem pred {p : String} {args : List Term} {es : List Expr}
    (hes : List.Forall₂ (Expr.Means I scope) args es) {r : List Value → Bool}
    (hr : I.predicates p = some r) :
    (Expr.symbol p .bool es).States I scope (.atom (.pred p args)) := by
  intro bound h
  refine ⟨r (Expr.values I bound es), ?_, ?_⟩
  · simp only [Interpretation.holds, Interpretation.holdsAtom, evalAll_of_means hes h]
    simp only [Interpretation.under, hr]
    rfl
  · rw [meaning, Interpretation.relation, hr]
    rfl

theorem not {f : Formula} (ha : a.States I scope f) : (Expr.not a).States I scope (.not f) := by
  intro bound h
  obtain ⟨x, hx, mx⟩ := ha bound h
  refine ⟨!x, ?_, ?_⟩
  · simp only [Interpretation.holds, hx]
    rfl
  · rw [meaning, mx]
    rfl

/-- An expression that combines two truth values as a connective does. -/
theorem connect {c : Connective} {e : Expr} {l r : Formula} (ha : a.States I scope l)
    (hb : b.States I scope r)
    (he : ∀ bound x y, a.meaning I bound = .truth x → b.meaning I bound = .truth y →
      e.meaning I bound = .truth (c.combine x y)) :
    e.States I scope (.connect c l r) := by
  intro bound h
  obtain ⟨x, hx, mx⟩ := ha bound h
  obtain ⟨y, hy, my⟩ := hb bound h
  refine ⟨c.combine x y, ?_, he bound x y mx my⟩
  simp only [Interpretation.holds, hx, hy]
  exact Interpretation.connect_ok c x y

/-- A quantifier of the solver ranges over the domain, as that of the formula does. -/
theorem all {x : String} {f : Formula} (ha : a.States I (x :: scope) f) :
    (Expr.all x a).States I scope (.all x f) := by
  intro bound h
  refine ⟨I.domain.all fun n => (a.meaning I (n :: bound)).isTrue, ?_, by rw [meaning]⟩
  refine Interpretation.allM_ok fun n hn => ?_
  obtain ⟨b, hb, mb⟩ := ha (n :: bound) (h.cons x hn)
  rw [mb]
  exact hb

end Expr.States

theorem connect_spec {c : Connective} {a b : Expr} {l r : Formula} (ha : a.States I scope l)
    (hb : b.States I scope r) :
    ⦃declared (Regular v)⦄ connect c a b
    ⦃keeps (Regular v) (Expr.States I scope (.connect c l r))⦄ := by
  cases c with
  | and | or | implies =>
    refine ensure_pure_spec fun _ => ha.connect hb fun bound x y hx hy => ?_
    rw [Expr.meaning, hx, hy]
    rfl
  | iff =>
    rw [connect]
    -- The sides may change places, but equality is symmetric.
    split
    · refine equal_spec fun _ => ha.connect hb fun bound x y hx hy => ?_
      rw [Expr.meaning, hx, hy]
      exact congrArg Meaning.truth Bool.beq_comm
    · refine equal_spec fun _ => ha.connect hb fun bound x y hx hy => ?_
      rw [Expr.meaning, hx, hy]
      rfl

/-- What is asked of a formula: its names and predicates have a meaning, it has no function symbols,
and no quantifier binds the name of a set. -/
structure Suits (I : Interpretation) (v : Vocabulary) (scope : List String) (f : Formula) : Prop where
  names : ∀ x ∈ f.freeVars, Gives I v scope x
  quantified : ∀ x ∈ f.quantified, x ∉ v.setNames ∧ I.sets.lookup x = none
  noFunction : ∀ g args, .app g args ∉ f.terms
  predicates : ∀ p args, .pred p args ∈ f.atoms → ∃ r, I.predicates p = some r

theorem Suits.plain {a : Atom} (h : Suits I v scope (.atom a)) :
    ∀ t ∈ a.args, ∀ u ∈ t :: t.subterms, Plain I v scope u := by
  intro t ht u hu
  constructor
  · rintro x rfl
    exact h.names x (List.mem_flatMap.2 ⟨t, ht, t.mem_vars_iff.2 hu⟩)
  · rintro g args rfl
    exact h.noFunction g args
      (List.mem_flatMap.2 ⟨a, List.mem_singleton_self a, Term.mem_listSubterms.2 ⟨t, ht, hu⟩⟩)

theorem Suits.of_subset {f g : Formula} (h : Suits I v scope g) (names : f.freeVars ⊆ g.freeVars)
    (quantified : f.quantified ⊆ g.quantified) (atoms : f.atoms ⊆ g.atoms) : Suits I v scope f := by
  refine ⟨fun x hx => h.names x (names hx), fun x hx => h.quantified x (quantified hx),
    fun g args hm => ?_, fun p args hm => h.predicates p args (atoms hm)⟩
  obtain ⟨a, ha, hu⟩ := List.mem_flatMap.1 hm
  exact h.noFunction g args (List.mem_flatMap.2 ⟨a, atoms ha, hu⟩)

theorem Gives.cons {x y : String} (h : Gives I v scope y) (hy : y ≠ x) :
    Gives I v (x :: scope) y := by
  cases h with
  | set named free value within =>
    exact .set named (fun h => (List.mem_cons.1 h).elim hy free) value within
  | element unnamed value element mem => exact .element unnamed value element mem
  | bound unnamed value mem => exact .bound unnamed value (.tail _ mem)

/-- Under a quantifier its name is bound. -/
theorem Suits.all {x : String} {f : Formula} (h : Suits I v scope (.all x f)) :
    Suits I v (x :: scope) f := by
  refine ⟨fun y hy => ?_, fun y hy => h.quantified y (.tail _ hy), h.noFunction, h.predicates⟩
  by_cases he : y = x
  · subst he
    obtain ⟨unnamed, value⟩ := h.quantified y (.head _)
    exact .bound unnamed value (.head _)
  · exact (h.names y (List.mem_filter.2 ⟨hy, by simpa using he⟩)).cons he

theorem encodeAtom_spec {a : Atom} (h : Suits I v scope (.atom a)) :
    ⦃declared (Regular v)⦄ encodeAtom v scope a
    ⦃keeps (Regular v) (Expr.States I scope (.atom a))⦄ := by
  have term (t : Term) (ht : t ∈ a.args) :
      ⦃declared (Regular v)⦄ encodeTerm v scope t ⦃keeps (Regular v) (Expr.Means I scope t)⦄ :=
    encodeTerm_spec t (h.plain t ht)
  cases a with
  | eq l r | setEq l r =>
    exact bind_spec (term l (.head _)) fun a ha => bind_spec (term r (.tail _ (.head _))) fun b hb =>
      equal_spec (.equal ha hb)
  | mem e s =>
    refine bind_spec (term e (.head _)) fun a ha => bind_spec (term s (.tail _ (.head _))) fun b hb =>
      ensure_pure_spec fun hc => ?_
    simp only [Bool.and_eq_true, decide_eq_true_eq] at hc
    exact .select ha hb hc.1 hc.2
  | isEmpty s => exact bind_spec (term s (.head _)) fun a ha => equal_spec (.isEmpty ha)
  | subset s t =>
    exact bind_spec (term s (.head _)) fun a ha => bind_spec (term t (.tail _ (.head _))) fun b hb =>
      onSets_spec (.subset ha hb)
  | pred p args =>
    obtain ⟨r, hr⟩ := h.predicates p args (List.mem_singleton_self _)
    cases args with
    | nil => exact pure_spec (.pred .nil hr)
    | cons t ts =>
      rw [encodeAtom]
      refine bind_spec (encodeTerms_spec (t :: ts) h.plain) fun es hes => ?_
      rw [← bind_pure (apply p es .bool)]
      refine bind_spec (apply_spec p es) fun e he => pure_spec ?_
      rw [he]
      exact .pred hes hr
      simp

/-- **The expression of a formula means its truth.** -/
theorem encodeFormula_spec {f : Formula} (h : Suits I v scope f) :
    ⦃declared (Regular v)⦄ encodeFormula v scope f ⦃keeps (Regular v) (Expr.States I scope f)⦄ := by
  induction f generalizing scope with
  | top | bot => exact pure_spec fun _ _ => ⟨_, rfl, by rw [Expr.meaning]⟩
  | atom a => exact encodeAtom_spec h
  | not f ih =>
    have hf := ih (h.of_subset (List.Subset.refl _) (List.Subset.refl _) (List.Subset.refl _))
    exact bind_spec hf fun a ha => ensure_pure_spec fun _ => ha.not
  | connect c l r ihl ihr =>
    have hl := ihl (h.of_subset (List.subset_append_left ..) (List.subset_append_left ..)
      (List.subset_append_left ..))
    have hr := ihr (h.of_subset (List.subset_append_right ..) (List.subset_append_right ..)
      (List.subset_append_right ..))
    exact bind_spec hl fun a ha => bind_spec hr fun b hb => connect_spec ha hb
  | all x f ih => exact bind_spec (ih h.all) fun a ha => ensure_pure_spec fun _ => ha.all

/-! ## Lists of formulas -/

/-- The expressions of the formulas, where there is one, state the truth of the formulas: a formula
that fails leaves regular declarations to the next. -/
theorem states_encodeAll {fs : List Formula} (h : ∀ f ∈ fs, Suits I v [] f) {d : Declarations}
    (hd : Regular v d) :
    List.Forall₂ (fun f r => ∀ e, r = .ok e → e.States I [] f) fs ((encodeAll v fs).run d).1 := by
  induction fs generalizing d with
  | nil => exact .nil
  | cons f fs ih =>
    obtain ⟨hd', hf⟩ := run_spec (encodeFormula_spec (h f (.head _))) hd
    exact .cons hf (ih (fun g hg => h g (.tail _ hg)) hd')

end Solver

theorem Formula.mem_vars_of_mem_quantified {f : Formula} {x : String} (h : x ∈ f.quantified) :
    x ∈ f.vars := by
  induction f with
  | top | bot | atom => cases h
  | not f ih => exact ih h
  | connect c l r ihl ihr => exact List.mem_append.2 ((List.mem_append.1 h).imp ihl ihr)
  | all y f ih => exact List.mem_cons.2 ((List.mem_cons.1 h).imp_right ih)

namespace Solver

theorem suits_of_realizes {I : Interpretation} {fs : List Formula} (h : I.Realizes fs)
    (noFunction : ∀ f ∈ fs, ∀ g args, .app g args ∉ f.terms)
    (apart : ∀ f ∈ fs, ∀ x ∈ f.quantified, x ∉ setVarNames fs) :
    ∀ f ∈ fs, Suits I (.ofFormulas fs) [] f := by
  intro f hf
  refine ⟨fun x hx => ?_, fun x hx => ?_, noFunction f hf, h.predicates f hf⟩
  · by_cases named : x ∈ setVarNames fs
    · obtain ⟨w, hw, within⟩ := h.sets x named
      exact .set named List.not_mem_nil hw within
    · obtain ⟨n, mem, hn⟩ := h.elements f hf x hx named
      exact .element named (h.others f hf x (Formula.mem_vars_of_mem_freeVars hx) named) hn mem
  · have unnamed := apart f hf x hx
    exact ⟨unnamed, h.others f hf x (Formula.mem_vars_of_mem_quantified hx) unnamed⟩

/-- **An encoding means what it encodes.** Formulas without function symbols, in which no quantifier
binds the name of a set, are encoded one after another over shared declarations. Whatever the others
declare, and whichever of them fail, an expression that is returned means the truth of its formula in
each interpretation that gives sets to the names of sets, elements to the other names and relations to
the predicates. -/
theorem encode_meaning {I : Interpretation} {fs : List Formula}
    (noFunction : ∀ f ∈ fs, ∀ g args, .app g args ∉ f.terms)
    (apart : ∀ f ∈ fs, ∀ x ∈ f.quantified, x ∉ setVarNames fs) (h : I.Realizes fs) :
    List.Forall₂ (fun f r => ∀ e, r = .ok e →
      ∃ b, I.holds f = .ok b ∧ e.meaning I [] = .truth b) fs (encode fs) := by
  have regular : Regular (.ofFormulas fs) {} :=
    ⟨by simp, by simp⟩
  refine (states_encodeAll (suits_of_realizes h noFunction apart) regular).imp fun f r hr e he => ?_
  exact hr e he [] ⟨rfl, fun n hn => by cases hn⟩

/-- A name that the first formula binds is free in the others; the second does not fit the sorts. -/
def shared : List Formula :=
  [.all "x" (.implies (.atom (.mem (.var "x") (.var "s"))) (.atom (.pred "P" [.var "x", .var "s"]))),
    .atom (.eq (.var "x") (.var "s")),
    .iff (.atom (.mem (.var "x") (.remove (.var "y") (.add (.var "x") (.var "t")))))
      (.all "y" (.not (.atom (.mem (.var "y") (.var "t")))))]

/-- `x` is `0`, `y` is `1`, `s` holds `0`, and `t` holds `1`. `P` holds of an element and a set. -/
def sharedModel : Interpretation where
  domain := [0, 1]
  elements := [("x", 0), ("y", 1)]
  sets := [("s", .ofInts [0]), ("t", .ofInts [1])]
  predicates := fun _ => some fun vs => vs == [.element 0, .ofInts [0]]

theorem encode_meaning_shared :
    (∀ f ∈ shared, ∀ g args, .app g args ∉ f.terms) ∧
      (∀ f ∈ shared, ∀ x ∈ f.quantified, x ∉ setVarNames shared) ∧ sharedModel.Realizes shared ∧
      ∃ e₁ e₃, encode shared = [.ok e₁, .error .mismatch, .ok e₃] ∧
        e₁.meaning sharedModel [] = .truth true ∧ e₃.meaning sharedModel [] = .truth false := by
  have noFunction : ∀ f ∈ shared, ∀ g args, .app g args ∉ f.terms := by
    intro f hf g args hm
    simp only [shared, List.mem_cons, List.not_mem_nil, or_false] at hf
    rcases hf with rfl | rfl | rfl <;>
      simp [Formula.terms, Formula.atoms, Atom.args, Term.listSubterms, Term.subterms] at hm
  have apart : ∀ f ∈ shared, ∀ x ∈ f.quantified, x ∉ setVarNames shared := by decide
  have realizes : sharedModel.Realizes shared := by
    refine ⟨fun x hx => ?_, by decide, fun f hf x hx hn => ?_, fun f _ p _ _ => ⟨_, rfl⟩⟩
    · have within (n : Int) (hn : n ∈ sharedModel.domain) :
          (Value.ofInts [n]).IsSetWithin sharedModel.domain :=
        ⟨rfl, fun w hw => ⟨n, hn, by simpa [Value.ofInts] using hw⟩⟩
      obtain rfl | rfl : x = "s" ∨ x = "t" := by revert x; decide
      · exact ⟨_, rfl, within 0 (by decide)⟩
      · exact ⟨_, rfl, within 1 (by decide)⟩
    · obtain rfl | rfl : x = "x" ∨ x = "y" := by revert x; revert f; decide
      · exact ⟨0, by decide, rfl⟩
      · exact ⟨1, by decide, rfl⟩
  obtain ⟨e₁, e₃, he⟩ : ∃ e₁ e₃, encode shared = [.ok e₁, .error .mismatch, .ok e₃] := ⟨_, _, rfl⟩
  have all := encode_meaning noFunction apart realizes
  rw [he] at all
  obtain ⟨h₁, -, h₃, -⟩ := by simpa only [shared, List.forall₂_cons, List.forall₂_nil_right_iff] using all
  refine ⟨noFunction, apart, realizes, e₁, e₃, he, ?_, ?_⟩
  · obtain ⟨b, hb, mb⟩ := h₁ e₁ rfl
    change Except.ok true = .ok b at hb
    cases hb
    exact mb
  · obtain ⟨b, hb, mb⟩ := h₃ e₃ rfl
    change Except.ok false = .ok b at hb
    cases hb
    exact mb

end Solver

end SetSequent
