import Mathlib
import SetSequent.Proofs.CommutingElimination
import SetSequent.Proofs.InstanceFixpoint
import SetSequent.Proofs.Noninterference
import SetSequent.Proofs.PreparedForm
import SetSequent.Proofs.WrittenProblems

/-!
# The names of hypotheses

The stages make up names: `I` with a number for a premise of the goal, a name with a number for a part of a
conjunction, a name with a term for an instance, `D` with a number for an excluded middle. The first and the
last kind are chosen so that they are not in use. The number of a part can be told from its name, and so can
the term of an instance, if no two terms are written alike. What is left is a label that looks like the name
of a part.

* `partName_inj`, `instanceName_inj` — what the names of parts and of instances are made of.
* `Sequent.DistinctNames` — no two hypotheses have the same name.
* `Sequent.PartsApart`, `Sequent.distinctNames_splitConjunctions_iff` — names stay apart when conjunctions are
  split, unless a hypothesis bears the name of a part of another one.
* `Sequent.names_substitute`, `DistinctNames.instantiate`, `DistinctNames.inject` — the other stages keep names
  apart.
* `Term.LegibleOr.eq_of_text` — why instances at different terms have different names.
* `Sequent.distinctNames_stages`, `Sequent.prepare_distinctNames` — all stages.
-/

namespace SetSequent

/-! ## Names that are put together -/

theorem append_cons_inj {c : Char} {xs ys us vs : List Char} (hx : c ∉ xs) (hy : c ∉ ys)
    (h : xs ++ c :: us = ys ++ c :: vs) : xs = ys ∧ us = vs := by
  induction xs generalizing ys with
  | nil =>
    cases ys with
    | nil => exact ⟨rfl, (List.cons.inj h).2⟩
    | cons d ys => exact absurd ((List.cons.inj h).1 ▸ .head _) hy
  | cons d xs ih =>
    cases ys with
    | nil => exact absurd ((List.cons.inj h).1 ▸ .head _) hx
    | cons d' ys =>
      obtain ⟨rfl, rest⟩ := List.cons.inj h
      obtain ⟨rfl, rfl⟩ := ih (fun hc => hx (.tail _ hc)) (fun hc => hy (.tail _ hc)) rest
      exact ⟨rfl, rfl⟩

theorem not_mem_toString {c : Char} (hc : c.isDigit = false) (n : Nat) : c ∉ (toString n).toList := by
  intro h
  change c ∈ n.repr.toList at h
  rw [Nat.repr_eq_ofList_toDigits, String.toList_ofList] at h
  rw [Nat.isDigit_of_mem_toDigits (by decide) (by decide) h] at hc
  cases hc

/-- The name of a part of a conjunction. -/
def partName (name : String) (i : Nat) : String := name ++ "." ++ toString i

theorem toList_partName (name : String) (i : Nat) :
    (partName name i).toList = name.toList ++ '.' :: (toString i).toList := by
  rw [partName, String.toList_append, String.toList_append, List.append_assoc]
  rfl

/-- The number stands after the last dot. -/
theorem partName_inj {a b : String} {i j : Nat} (h : partName a i = partName b j) : a = b ∧ i = j := by
  have reversed : (toString i).toList.reverse ++ '.' :: a.toList.reverse =
      (toString j).toList.reverse ++ '.' :: b.toList.reverse := by
    simpa [toList_partName] using congrArg (List.reverse ∘ String.toList) h
  have digits (n : Nat) : '.' ∉ (toString n).toList.reverse :=
    fun hc => not_mem_toString (by decide) n (List.mem_reverse.1 hc)
  obtain ⟨-, names⟩ := append_cons_inj (digits i) (digits j) reversed
  obtain rfl := String.toList_injective (List.reverse_injective names)
  exact ⟨rfl, eq_of_append_toString h⟩

/-- The name of an instance. -/
def instanceName (name term : String) : String := name ++ "[" ++ term ++ "]"

/-- The term stands between the first bracket and the last one. -/
theorem instanceName_inj {a b t u : String} (ha : '[' ∉ a.toList) (hb : '[' ∉ b.toList)
    (h : instanceName a t = instanceName b u) : a = b ∧ t = u := by
  have chars (a t : String) : (instanceName a t).toList = a.toList ++ '[' :: (t.toList ++ [']']) := by
    simp [instanceName]
  have brackets := congrArg String.toList h
  rw [chars, chars] at brackets
  obtain ⟨names, terms⟩ := append_cons_inj ha hb brackets
  exact ⟨String.toList_injective names, String.toList_injective (List.append_cancel_right terms)⟩

namespace Sequent

/-- No two hypotheses have the same name. -/
def DistinctNames (s : Sequent) : Prop := (s.hypotheses.map (·.name)).Nodup

instance (s : Sequent) : Decidable s.DistinctNames := inferInstanceAs (Decidable (List.Nodup _))

variable {s : Sequent}

theorem DistinctNames.of_sublist {s' : Sequent} (h : s.DistinctNames)
    (hs : (s'.hypotheses.map (·.name)).Sublist (s.hypotheses.map (·.name))) : s'.DistinctNames :=
  List.Nodup.sublist hs h

/-! ## Premises and parts -/

/-- A premise has a name that is not in use. -/
theorem distinctNames_introduce {hs : List Hypothesis} {goal : Formula} (h : (hs.map (·.name)).Nodup) :
    (introduce hs goal).value.DistinctNames := by
  have assumed {hs : List Hypothesis} (premise : Formula) (h : (hs.map (·.name)).Nodup) :
      ((hs ++ [introduce.assume hs premise]).map (·.name)).Nodup := by
    rw [List.map_append, List.map_singleton, List.nodup_append_comm]
    exact List.nodup_cons.2 ⟨fresh_not_mem _ _, h⟩
  induction hs, goal using introduce.induct with
  | case1 hs premise goal =>
    rename_i ih
    rw [introduce]
    exact ih (assumed premise h)
  | case2 hs premise =>
    rw [introduce]
    exact assumed premise h
  | case3 hs goal hi hn =>
    rw [introduce]
    · exact h
    · exact hi
    · exact hn

end Sequent

namespace Hypothesis

/-- The formula is a conjunction, which is taken apart. -/
def IsSplit (h : Hypothesis) : Prop := 1 < h.formula.conjuncts.length

instance (h : Hypothesis) : Decidable h.IsSplit := inferInstanceAs (Decidable (_ < _))

/-- The name of the hypothesis, which is no conjunction, is that of a part of `h`. -/
def BearsPartOf (h' h : Hypothesis) : Prop :=
  ¬h'.IsSplit ∧ h.IsSplit ∧ ∃ i < h.formula.conjuncts.length, h'.name = partName h.name i

instance (h' h : Hypothesis) : Decidable (h'.BearsPartOf h) := inferInstanceAs (Decidable (_ ∧ _ ∧ _))

theorem split_of_not_isSplit {h : Hypothesis} (hs : ¬h.IsSplit) : h.split = [h] := by
  unfold split
  split
  · rfl
  · rename_i hp
    cases hc : h.formula.conjuncts with
    | nil => exact absurd hc h.formula.conjuncts_ne_nil
    | cons f fs =>
      cases fs with
      | nil => exact absurd hc (hp f)
      | cons g gs => exact absurd (by simp [IsSplit, hc]) hs

theorem names_split {h : Hypothesis} (hs : h.IsSplit) :
    h.split.map (·.name) = (List.range h.formula.conjuncts.length).map (partName h.name) := by
  unfold split
  split
  · rename_i f hf
    simp [IsSplit, hf] at hs
  · refine List.ext_getElem (by simp) fun i _ _ => ?_
    simp [partName]

theorem name_of_mem_split {h h' : Hypothesis} (hm : h' ∈ h.split) :
    h'.name = h.name ∨ ∃ i, h'.name = partName h.name i := by
  unfold split at hm
  split at hm
  · exact .inl (congrArg _ (List.mem_singleton.1 hm))
  · obtain ⟨i, hi, rfl⟩ := List.mem_mapIdx.1 hm
    exact .inr ⟨i, rfl⟩

theorem nodup_names_split (h : Hypothesis) : (h.split.map (·.name)).Nodup := by
  by_cases hs : h.IsSplit
  · rw [names_split hs]
    exact List.nodup_range.map fun i j he => (partName_inj he).2
  · rw [split_of_not_isSplit hs]
    exact List.nodup_singleton _

/-- A name that two hypotheses give to their parts is that of the one and of a part of the other. -/
theorem bearsPartOf_of_mem {h h' : Hypothesis} (hne : h.name ≠ h'.name) {name : String}
    (hn : name ∈ h.split.map (·.name)) (hn' : name ∈ h'.split.map (·.name)) :
    h.BearsPartOf h' ∨ h'.BearsPartOf h := by
  by_cases hs : h.IsSplit <;> by_cases hs' : h'.IsSplit
  · -- The name of a part tells whose part it is.
    rw [names_split hs] at hn
    rw [names_split hs'] at hn'
    obtain ⟨i, -, rfl⟩ := List.mem_map.1 hn
    obtain ⟨j, -, he⟩ := List.mem_map.1 hn'
    exact absurd (partName_inj he).1.symm hne
  · rw [names_split hs] at hn
    rw [split_of_not_isSplit hs'] at hn'
    obtain ⟨i, hi, rfl⟩ := List.mem_map.1 hn
    exact .inr ⟨hs', hs, i, List.mem_range.1 hi, (List.mem_singleton.1 hn').symm⟩
  · rw [split_of_not_isSplit hs] at hn
    rw [names_split hs'] at hn'
    obtain ⟨i, hi, rfl⟩ := List.mem_map.1 hn'
    exact .inl ⟨hs, hs', i, List.mem_range.1 hi, (List.mem_singleton.1 hn).symm⟩
  · rw [split_of_not_isSplit hs] at hn
    rw [split_of_not_isSplit hs'] at hn'
    exact absurd ((List.mem_singleton.1 hn).symm.trans (List.mem_singleton.1 hn')) hne

end Hypothesis

namespace Sequent

variable {s : Sequent}

/-- No hypothesis has the name of a part of another one. -/
def PartsApart (s : Sequent) : Prop := ∀ h ∈ s.hypotheses, ∀ h' ∈ s.hypotheses, ¬h'.BearsPartOf h

instance (s : Sequent) : Decidable s.PartsApart :=
  inferInstanceAs (Decidable (∀ h ∈ s.hypotheses, ∀ h' ∈ s.hypotheses, ¬h'.BearsPartOf h))

/-- **Splitting keeps names apart exactly if no hypothesis has the name of a part of another one.** -/
theorem distinctNames_splitConjunctions_iff (hd : s.DistinctNames) :
    s.splitConjunctions.DistinctNames ↔ s.PartsApart := by
  have names : s.splitConjunctions.hypotheses.map (·.name) =
      s.hypotheses.flatMap fun h => h.split.map (·.name) := by
    rw [splitConjunctions, List.map_flatMap]
  rw [DistinctNames, names, List.nodup_flatMap]
  constructor
  · rintro ⟨-, apart⟩ h hh h' hh' ⟨whole, split, i, hi, name⟩
    have hne : h ≠ h' := fun he => whole (he ▸ split)
    have symm : Std.Symm (Function.onFun List.Disjoint fun h : Hypothesis => h.split.map (·.name)) :=
      ⟨fun _ _ disjoint => disjoint.symm⟩
    have disjoint : List.Disjoint (h.split.map (·.name)) (h'.split.map (·.name)) :=
      apart.forall hh hh' hne
    refine @disjoint h'.name ?_ ?_
    · rw [Hypothesis.names_split split, name]
      exact List.mem_map_of_mem (List.mem_range.2 hi)
    · rw [Hypothesis.split_of_not_isSplit whole]
      exact List.mem_singleton_self _
  · intro apart
    have names : s.hypotheses.Pairwise (·.name ≠ ·.name) := List.pairwise_map.1 hd
    refine ⟨fun h _ => h.nodup_names_split, names.imp_of_mem fun hh hh' hne name hn hn' => ?_⟩
    rcases Hypothesis.bearsPartOf_of_mem hne hn hn' with clash | clash
    · exact apart _ hh' _ hh clash
    · exact apart _ hh _ hh' clash

/-! ## Filters, replacements and changes of formulas -/

theorem DistinctNames.filter (hd : s.DistinctNames) (p : Hypothesis → Bool) (goal : Formula) :
    DistinctNames ⟨s.hypotheses.filter p, goal⟩ :=
  hd.of_sublist ((List.filter_sublist).map _)

theorem distinctNames_classify {t : DecidabilityTable} (hd : s.opened.DistinctNames) :
    (s.classify t).value.DistinctNames := by
  rw [value_classify]
  exact hd.filter _ _

theorem sublist_of_findRemoval {hs others : List Hypothesis} {h : Hypothesis} {r : Removal}
    (hr : findRemoval hs = some (h, r, others)) : others.Sublist hs := by
  induction hs generalizing others with
  | nil => cases hr
  | cons g hs ih =>
    rw [findRemoval] at hr
    split at hr
    · cases hr
      exact List.sublist_cons_self ..
    · obtain ⟨⟨_, _, others'⟩, found, he⟩ := Option.map_eq_some_iff.1 hr
      cases he
      exact (ih found).cons_cons g

theorem names_map (g : Formula → Formula) (hs : List Hypothesis) :
    (hs.map fun h => { h with formula := g h.formula }).map (·.name) = hs.map (·.name) := by
  rw [List.map_map]
  rfl

/-- Elimination only takes hypotheses away. -/
theorem names_substitute (s : Sequent) :
    (s.substitute.value.hypotheses.map (·.name)).Sublist (s.hypotheses.map (·.name)) := by
  induction s using substitute.induct with
  | case1 s hn => rw [value_substitute_of_none hn]
  | case2 s h others hr ih =>
    rw [value_substitute_of_trivial hr]
    exact ih.trans ((sublist_of_findRemoval hr).map _)
  | case3 s h x t others hr ih =>
    rw [value_substitute_of_eliminate hr]
    refine ih.trans ?_
    rw [names_map (·.eliminate x t)]
    exact (sublist_of_findRemoval hr).map _

theorem DistinctNames.mapFormulas (hd : s.DistinctNames) (stage : String) (g : Formula → Noted Formula) :
    (s.mapFormulas stage g).value.DistinctNames := by
  rw [DistinctNames, value_mapFormulas, names_map fun f => (g f).value]
  exact hd

theorem DistinctNames.inject (hd : s.DistinctNames) (t : DecidabilityTable) :
    (s.inject t).value.DistinctNames := by
  obtain ⟨added, value, -, -, nodup, apart⟩ := exists_injectAll t s.facts s.splitCandidates s.hypotheses
  have hypotheses : (s.inject t).value.hypotheses = s.hypotheses ++ added := value
  rw [DistinctNames, hypotheses, List.map_append]
  refine List.nodup_append.2 ⟨hd, nodup, fun name hn name' hn' he => ?_⟩
  obtain ⟨h, hh, rfl⟩ := List.mem_map.1 hn'
  exact apart h hh (he ▸ hn)

end Sequent

/-! ## Terms that can be told from their texts -/

/-- The terms of the atom have names that can be read. -/
def Atom.Legible (a : Atom) : Prop := ∀ t ∈ a.args, t.wellNamed Token.isIdentifier = true

/-- All element terms of the atom satisfy `E`. -/
def Atom.Shows (E : Term → Prop) (a : Atom) : Prop := ∀ t ∈ a.elementTerms, E t

theorem Term.wellNamed_constructorElements {name : Token → Bool} {s t : Term} (hs : s.wellNamed name = true)
    (ht : t ∈ s.constructorElements) : t.wellNamed name = true := by
  induction s using constructorElements.induct with
  | case1 e => exact List.mem_singleton.1 ht ▸ hs
  | case2 e s ih | case3 e s ih =>
    rw [wellNamed, Bool.and_eq_true] at hs
    rcases List.mem_cons.1 ht with rfl | ht
    · exact hs.1
    · exact ih hs.2 ht
  | case4 s u ihs ihu | case5 s u ihs ihu | case6 s u ihs ihu =>
    rw [wellNamed, Bool.and_eq_true] at hs
    rcases List.mem_append.1 ht with ht | ht
    · exact ihs hs.1 ht
    · exact ihu hs.2 ht
  | _ => cases ht

/-- The names of the term can be read, or it is the variable `z`. -/
def Term.LegibleOr (z : String) (t : Term) : Prop := t.wellNamed Token.isIdentifier = true ∨ t = .var z

namespace Atom

variable {a : Atom} {E : Term → Prop}

theorem Legible.shows (h : a.Legible) : a.Shows fun t => t.wellNamed Token.isIdentifier = true := by
  have inside {s t : Term} (hs : s ∈ a.args) (ht : t ∈ s.constructorElements) :
      t.wellNamed Token.isIdentifier = true := Term.wellNamed_constructorElements (h s hs) ht
  intro t ht
  cases a with
  | eq l r => exact h t ht
  | mem e s =>
    rcases List.mem_cons.1 ht with rfl | ht
    · exact h t (.head _)
    · exact inside (.tail _ (.head _)) ht
  | isEmpty s => exact inside (.head _) ht
  | subset s u | setEq s u =>
    rcases List.mem_append.1 ht with ht | ht
    · exact inside (.head _) ht
    · exact inside (.tail _ (.head _)) ht
  | pred p args => cases ht

theorem legible_pair {l r : Term} (hl : l.wellNamed Token.isIdentifier = true)
    (hr : r.wellNamed Token.isIdentifier = true) : ∀ t ∈ [l, r], t.wellNamed Token.isIdentifier = true :=
  List.forall_mem_cons.2 ⟨hl, List.forall_mem_singleton.2 hr⟩

theorem legible_equation {l r : Term} (hl : l.wellNamed Token.isIdentifier = true)
    (hr : r.wellNamed Token.isIdentifier = true) : (Atom.eq l r).orient.Legible := by
  rw [orient]
  split
  · exact legible_pair hr hl
  · exact legible_pair hl hr

theorem every_legible_unfoldMember {e s : Term} (he : e.wellNamed Token.isIdentifier = true)
    (hs : s.wellNamed Token.isIdentifier = true) : (unfoldMember e s).Every Legible := by
  induction s using unfoldMember.induct with
  | case1 | case2 => exact legible_pair he hs
  | case3 => trivial
  | case4 a => exact legible_equation he hs
  | case5 a s ih | case6 a s ih =>
    rw [Term.wellNamed, Bool.and_eq_true] at hs
    exact ⟨legible_equation he hs.1, ih hs.2⟩
  | case7 s t ihs iht | case8 s t ihs iht | case9 s t ihs iht =>
    rw [Term.wellNamed, Bool.and_eq_true] at hs
    exact ⟨ihs hs.1, iht hs.2⟩

theorem Legible.unfold (h : a.Legible) : (Formula.atom a).unfold.Every Legible := by
  cases a with
  | mem e s => exact every_legible_unfoldMember (h e (.head _)) (h s (.tail _ (.head _)))
  | eq l r => exact legible_equation (h l (.head _)) (h r (.tail _ (.head _)))
  | isEmpty | subset | setEq | pred => exact h

theorem Legible.eliminate (h : a.Legible) {x : String} {r : Term}
    (hr : r.wellNamed Token.isIdentifier = true) : ((Formula.atom a).eliminate x r).Every Legible := by
  have replaced : (a.mapArgs (·.subst x r)).Legible := by
    intro t ht
    rw [args_mapArgs] at ht
    obtain ⟨u, hu, rfl⟩ := List.mem_map.1 ht
    exact Term.wellNamed_subst (h u hu) hr
  exact replaced.unfold

/-- Unfolding brings no element terms. -/
theorem Shows.unfold (h : a.Shows E) : (Formula.atom a).unfold.Every (Atom.Shows E) := by
  refine Formula.every_of_atoms (Formula.every_unfold_atom a) fun b hb t ht => ?_
  cases a with
  | mem e s =>
    rcases elementTerms_unfoldMember hb ht with rfl | ht
    · exact h t (.head _)
    · exact h t (.tail _ ht)
  | eq l r =>
    obtain rfl := List.mem_singleton.1 hb
    rcases elementTerms_equation ht with rfl | rfl
    · exact h t (.head _)
    · exact h t (.tail _ (.head _))
  | isEmpty | subset | setEq | pred =>
    obtain rfl := List.mem_singleton.1 hb
    exact h t ht

theorem Shows.of_instance (h : a.Shows E) {e : Term} (he : E e) {f : Formula}
    (hi : a.instanceAt? e = some f) : f.Every (Shows E) := by
  have member {s : Term} (hs : ∀ t ∈ s.constructorElements, t ∈ a.elementTerms) : (mem e s).Shows E := by
    intro t ht
    rcases List.mem_cons.1 ht with rfl | ht
    · exact he
    · exact h t (hs t ht)
  cases a with
  | isEmpty s =>
    cases hi
    exact member fun _ ht => ht
  | subset s u | setEq s u =>
    cases hi
    exact ⟨member fun _ ht => List.mem_append_left _ ht, member fun _ ht => List.mem_append_right _ ht⟩
  | eq | mem | pred => cases hi

end Atom

theorem Formula.legible_of_wellNamed {f : Formula} (h : f.wellNamed Token.isIdentifier = true) :
    ∀ a ∈ f.atoms, a.Legible := by
  induction f with
  | top | bot => exact fun _ ha => (List.not_mem_nil ha).elim
  | atom a => exact List.forall_mem_singleton.2 (Atom.listWellNamed_args h)
  | not f ih => exact ih h
  | connect c l r ihl ihr =>
    rw [wellNamed, Bool.and_eq_true] at h
    exact List.forall_mem_append.2 ⟨ihl h.1, ihr h.2⟩
  | all x f ih =>
    rw [wellNamed, Bool.and_eq_true] at h
    exact ih h.2

theorem Formula.atoms_conjuncts {P : Atom → Prop} {f : Formula} :
    (∀ a ∈ f.atoms, P a) ↔ ∀ g ∈ f.conjuncts, ∀ a ∈ g.atoms, P a := by
  induction f using conjuncts.induct with
  | case1 l r ihl ihr => simp only [conjuncts, atoms, List.forall_mem_append, ihl, ihr]
  | case2 f hf =>
    have whole : f.conjuncts = [f] := by rw [conjuncts]; exact hf
    simp [whole]

namespace Term

/-- Only the text of a variable ends in a digit. -/
theorem eq_var_of_text {t : Term} {stem : String} {i : Nat} (h : t.text = stem ++ toString i) :
    t = .var (stem ++ toString i) := by
  have ends (front : String) (back : Char) (hb : back.isDigit = false) :
      front ++ String.singleton back ≠ stem ++ toString i := by
    intro he
    have last := congrArg (·.toList.getLast?) he
    have digits : (toString i).toList ≠ [] := by simp
    rw [String.toList_append, String.toList_append, String.toList_singleton, List.getLast?_concat,
      List.getLast?_append_of_ne_nil _ digits] at last
    exact not_mem_toString hb i (List.mem_of_getLast? last.symm)
  cases t with
  | var x => exact congrArg Term.var h
  | empty => exact absurd h (ends "empt" 'y' (by decide))
  | app | singleton | add | remove | union | inter | diff => exact absurd h (ends _ ')' (by decide))

/-- Terms with readable names and one numbered variable are told apart by their texts. -/
theorem LegibleOr.eq_of_text {stem : String} {i : Nat} {t u : Term} (ht : t.LegibleOr (stem ++ toString i))
    (hu : u.LegibleOr (stem ++ toString i)) (h : t.text = u.text) : t = u := by
  rcases ht with ht | rfl
  · rcases hu with hu | rfl
    · exact eq_of_text_eq ht hu h
    · exact eq_var_of_text h
  · exact (eq_var_of_text h.symm).symm

end Term

namespace Sequent

variable {s : Sequent}

theorem legible_substitute (h : s.Every Atom.Legible) : s.substitute.value.Every Atom.Legible := by
  refine every_substitute (fun f x r hf hr a ha => ha.eliminate ?_) h
  obtain ⟨_, rfl | rfl | rfl | rfl⟩ := Formula.equation_of_eliminate hr
  · exact hf r (.head _)
  · exact hf r (.tail _ (.head _))
  · exact hf r (.head _)
  · exact hf r (.tail _ (.head _))

/-- The opened goal speaks of one element more. -/
theorem shows_openGoal (h : s.Every Atom.Legible) (stem : String) :
    (s.openGoal stem).value.Every (Atom.Shows (Term.LegibleOr (s.freshVariable stem))) := by
  have wider : s.Every (Atom.Shows (Term.LegibleOr (s.freshVariable stem))) :=
    h.imp fun _ ha t ht => .inl (ha.shows t ht)
  rcases openGoal_cases stem s with ⟨_, ho⟩ | ⟨a, g, ha, hi, ho⟩ <;> rw [ho]
  · exact wider
  · obtain ⟨hh, hg⟩ := every_iff.1 wider
    rw [ha] at hg
    exact every_iff.2 ⟨hh, Atom.Shows.of_instance hg (.inr rfl) hi⟩

/-! ## Instances -/

theorem names_newInstances (known : List Formula) (pairs : List (Hypothesis × Term)) :
    ((newInstances known pairs).value.map (·.name)).Sublist
      (pairs.map fun p => instanceName p.1.name p.2.text) := by
  induction pairs generalizing known with
  | nil => exact List.nil_sublist _
  | cons p rest ih =>
    obtain ⟨u, e⟩ := p
    rw [newInstances, List.map_cons]
    split
    · exact (ih known).cons _
    · split
      · exact (ih known).cons _
      · exact (ih _).cons_cons _

/-- No name has a bracket, as that of an instance has. -/
def PlainNames (s : Sequent) : Prop := ∀ h ∈ s.hypotheses, '[' ∉ h.name.toList

theorem PlainNames.of_sublist {s' : Sequent} (h : s.PlainNames)
    (hs : (s'.hypotheses.map (·.name)).Sublist (s.hypotheses.map (·.name))) : s'.PlainNames := by
  intro g' hg'
  obtain ⟨g, hg, he⟩ := List.mem_map.1 (hs.subset (List.mem_map_of_mem hg'))
  exact he ▸ h g hg

/-- The instances of a round have different names, if the terms in play have different texts. -/
theorem nodup_roundInstances {us : List Hypothesis} {done : List Term} (hd : (us.map (·.name)).Nodup)
    (plain : ∀ u ∈ us, '[' ∉ u.name.toList)
    (apart : ∀ t ∈ roundTerms us done s, ∀ t' ∈ roundTerms us done s, t.text = t'.text → t = t') :
    ((roundInstances us done s).map (·.name)).Nodup := by
  refine List.Nodup.sublist (names_newInstances _ _) ?_
  have terms : (roundTerms us done s).Nodup := (Search.nodup_eraseDups _).filter _
  rw [List.map_flatMap, List.nodup_flatMap]
  refine ⟨fun u hu => ?_, (List.pairwise_map.1 hd).imp_of_mem fun hu hu' hne name hn hn' => ?_⟩
  · rw [List.map_map]
    refine terms.map_on fun t ht t' ht' he => apart t ht t' ht' ?_
    exact (instanceName_inj (plain u hu) (plain u hu) he).2
  · simp only [List.mem_map, exists_exists_and_eq_and] at hn hn'
    obtain ⟨t, -, rfl⟩ := hn
    obtain ⟨t', -, he⟩ := hn'
    exact hne (instanceName_inj (plain _ hu') (plain _ hu) he).1.symm

theorem value_instantiate_cases (s : Sequent) (stem : String) (maxRounds : Int) :
    (s.instantiate stem maxRounds).value = (s.openGoal stem).value.ground ∨
      (s.instantiate stem maxRounds).value =
        (s.openGoal stem).value.ground.round (s.openGoal stem).value.universals := by
  by_cases h : 1 ≤ maxRounds
  · refine .inr ?_
    rw [instantiate_eq_one s stem h, value_instantiate]
    exact value_instanceRounds_one (isUnfolded_ground _)
  · refine .inl ?_
    have none : maxRounds.toNat = 0 := by omega
    rw [value_instantiate, none]
    rfl

/-- The terms of a round are the element terms of the sequent. -/
theorem shows_roundTerms {E : Term → Prop} (h : s.Every (Atom.Shows E)) {t : Term}
    (ht : t ∈ roundTerms s.universals [] s.ground) : E t := by
  obtain ⟨hh, hg⟩ := every_iff.1 h
  have ground : s.ground.Every (Atom.Shows E) := by
    refine every_mapFormulas (every_iff.2 ⟨fun g hm => hh g (List.mem_filter.1 hm).1, hg⟩) fun f hf => ?_
    exact Formula.every_unfold hf fun _ ha => ha.unfold
  obtain ⟨f, hf, a, ha, ht⟩ := mem_relevantElements.1 (List.mem_filter.1 ht).1
  have shown : f.Every (Atom.Shows E) := by
    rcases mem_formulas.1 hf with ⟨g, hm, rfl⟩ | rfl
    · rcases List.mem_append.1 hm with hm | hm
      · exact ground _ (mem_formulas.2 (.inl ⟨g, hm, rfl⟩))
      · exact hh g (List.mem_filter.1 hm).1
    · exact ground _ (mem_formulas.2 (.inr rfl))
  exact shown.of_mem_atoms ha t ht

theorem DistinctNames.instantiate (hd : s.DistinctNames) (plain : s.PlainNames)
    (legible : s.Every Atom.Legible) (stem : String) (maxRounds : Int) :
    (s.instantiate stem maxRounds).value.DistinctNames := by
  have shown := shows_openGoal legible stem
  obtain ⟨i, hi⟩ := exists_fresh (s.formulas.flatMap (·.vars)) stem
  rw [show s.freshVariable stem = _ from hi] at shown
  have outcome := value_instantiate_cases s stem maxRounds
  have same : (s.openGoal stem).value.hypotheses = s.hypotheses := by
    rcases openGoal_cases stem s with ⟨_, ho⟩ | ⟨a, g, _, _, ho⟩ <;> rw [ho]
  generalize (s.openGoal stem).value = opened at shown outcome same
  have names : opened.ground.hypotheses.map (·.name) =
      (s.hypotheses.filter (!·.formula.isSetRelation)).map (·.name) := by
    rw [hypotheses_ground, names_map, same]
  have ground : opened.ground.DistinctNames := by
    rw [DistinctNames, names]
    exact hd.filter _ s.goal
  rcases outcome with value | value <;> rw [value]
  · exact ground
  · have instances : ((roundInstances opened.universals [] opened.ground).map (·.name)).Nodup := by
      refine nodup_roundInstances ?_ ?_ fun t ht t' ht' => ?_
      · rw [universals, same]
        exact hd.filter _ s.goal
      · intro u hu
        exact plain u (same ▸ (List.mem_filter.1 hu).1)
      · exact (shows_roundTerms shown ht).eq_of_text (shows_roundTerms shown ht')
    rw [DistinctNames, round, List.map_append]
    refine List.nodup_append.2 ⟨ground, instances, fun name hn name' hn' he => ?_⟩
    -- Only the name of an instance has a bracket.
    rw [names] at hn
    obtain ⟨h, hh, rfl⟩ := List.mem_map.1 hn
    obtain ⟨h', hh', rfl⟩ := List.mem_map.1 hn'
    obtain ⟨u, -, e, -, f, -, rfl⟩ := eq_of_mem_roundInstances hh'
    refine plain h (List.mem_filter.1 hh).1 ?_
    rw [he]
    simp

/-! ## All stages -/

theorem plainNames_opened (h : s.PlainNames) : s.opened.PlainNames := by
  have digits (n : Nat) : '[' ∉ (toString n).toList := not_mem_toString (by decide) n
  have assumed (hs : List Hypothesis) (premise : Formula) :
      '[' ∉ (introduce.assume hs premise).name.toList := by
    obtain ⟨i, hi⟩ := exists_fresh (hs.map (·.name)) "I"
    rw [introduce.assume, hi, String.toList_append, List.mem_append]
    rintro (hc | hc)
    · revert hc
      decide
    · exact digits i hc
  have introduced : s.introduceGoal.value.Satisfies ('[' ∉ ·.name.toList) fun _ => True := by
    refine (satisfies_introduce (fun hs f _ => ?_) (fun hs f => ?_) ..).2 ⟨h, trivial⟩
    · exact ⟨fun _ => ⟨assumed hs f, trivial⟩, fun _ => trivial⟩
    · exact ⟨fun _ => ⟨assumed hs f, trivial⟩, fun _ => trivial⟩
  intro g hg hc
  obtain ⟨g', hg', hm⟩ := List.mem_flatMap.1 hg
  rcases Hypothesis.name_of_mem_split hm with hn | ⟨i, hn⟩
  · exact introduced.1 g' hg' (hn ▸ hc)
  · rw [hn, toList_partName, List.mem_append, List.mem_cons] at hc
    rcases hc with hc | hc | hc
    · exact introduced.1 g' hg' hc
    · cases hc
    · exact digits i hc

theorem atoms_opened {P : Atom → Prop} (h : ∀ f ∈ s.formulas, ∀ a ∈ f.atoms, P a) :
    ∀ f ∈ s.opened.formulas, ∀ a ∈ f.atoms, P a := by
  refine forall_formulas.2 ((satisfies_opened (fun hs premise goal => ?_) (fun hs premise => ?_)
    fun h => ?_).2 (forall_formulas.1 h))
  · simp [introduce.assume, Formula.atoms, or_imp, forall_and]
  · simp [introduce.assume, Formula.atoms]
  · exact h.forall_split (R := fun f => ∀ a ∈ f.atoms, P a) fun _ => Formula.atoms_conjuncts

theorem legible_classify {t : DecidabilityTable} (h : ∀ f ∈ s.formulas, ∀ a ∈ f.atoms, a.Legible) :
    (s.classify t).value.Every Atom.Legible := by
  intro f hf
  refine Formula.every_of_atoms (every_classify f hf) fun a ha => ?_
  rcases (mem_formulas_classify hf).2 with hf | rfl
  · exact atoms_opened h f hf a ha
  · cases ha

/-- The sequents that the stages hand on, from the one with its conjunctions split to the prepared one. -/
def stages (o : Options) (s : Sequent) : List Sequent :=
  let kept := (s.classify o.table).value
  let solved := kept.substitute.value
  let ground := (solved.instantiate o.freshStem o.maxRounds).value
  let normal := (ground.normalize o.table o.usePull).value
  [s.opened, kept, solved, ground, normal, normal.substitute.value, (s.prepare o).value]

/-- A label has no bracket. -/
theorem plainNames_of_read {text : String} (h : Problem.read text = .ok s) : s.PlainNames := by
  intro g hg hc
  have writable := (isWritable_iff.1 (Problem.isWritable_of_read h)).1 g hg
  have written := Problem.isWritten_of_isLabel (Hypothesis.isWritable_iff.1 writable).2.1 '[' hc
  revert written
  decide

theorem legible_of_read {text : String} (h : Problem.read text = .ok s) {g : Hypothesis}
    (hg : g ∈ s.hypotheses) : ∀ a ∈ g.formula.atoms, a.Legible := by
  have writable := (isWritable_iff.1 (Problem.isWritable_of_read h)).1 g hg
  exact Formula.legible_of_wellNamed (Hypothesis.isWritable_iff.1 writable).2.2.2

/-- All stages keep names apart that are apart once conjunctions are split. -/
theorem distinctNames_stages (hd : s.opened.DistinctNames) (plain : s.PlainNames)
    (legible : ∀ f ∈ s.formulas, ∀ a ∈ f.atoms, a.Legible) (o : Options) :
    ∀ r ∈ s.stages o, r.DistinctNames := by
  have kept : (s.classify o.table).value.DistinctNames := distinctNames_classify hd
  have keptPlain : (s.classify o.table).value.PlainNames := by
    rw [value_classify]
    exact fun h hh => plainNames_opened plain h (List.mem_filter.1 hh).1
  have solved := kept.of_sublist (names_substitute _)
  have ground := solved.instantiate (keptPlain.of_sublist (names_substitute _))
    (legible_substitute (legible_classify legible)) o.freshStem o.maxRounds
  have normal : (normalize o.table o.usePull _).value.DistinctNames := ground.mapFormulas _ _
  have again := normal.of_sublist (names_substitute _)
  simp only [stages, List.forall_mem_cons]
  exact ⟨hd, kept, solved, ground, normal, again, again.inject o.table, fun _ h => (List.not_mem_nil h).elim⟩

/-- **Names stay apart**, for hypotheses that have been read and have different names, any goal and all
options. Splitting conjunctions keeps them apart exactly if no hypothesis or premise has the name of a part of
another one. In that case, and if the terms of the goal can be read, all stages keep them apart, up to the
prepared sequent. -/
theorem prepare_distinctNames {text : String} (read : Problem.read text = .ok s) (distinct : s.DistinctNames)
    (goal : Formula) (o : Options) :
    let posed : Sequent := { s with goal := goal }
    (posed.opened.DistinctNames ↔ posed.introduceGoal.value.PartsApart) ∧
      (posed.introduceGoal.value.PartsApart → (∀ a ∈ goal.atoms, a.Legible) →
        ∀ r ∈ posed.stages o, r.DistinctNames) := by
  intro posed
  have split : posed.opened.DistinctNames ↔ posed.introduceGoal.value.PartsApart :=
    distinctNames_splitConjunctions_iff (distinctNames_introduce distinct)
  refine ⟨split, fun apart legible => ?_⟩
  have plain : posed.PlainNames := fun h hh => plainNames_of_read read h hh
  refine distinctNames_stages (split.2 apart) plain (fun f hf => ?_) o
  rcases mem_formulas.1 hf with ⟨g, hg, rfl⟩ | rfl
  · exact legible_of_read read hg
  · exact legible

/-- Conjunctions with two parts, one of them named like a part of the other, and a set relation that is named
like a third part. -/
def numbered : Sequent where
  hypotheses :=
    [⟨"H", .and (.atom (.mem (.var "x") (.var "s"))) (.atom (.mem (.var "y") (.var "s"))), false⟩,
      ⟨"H.0", .and (.atom (.mem (.var "x") (.var "t"))) (.atom (.mem (.var "y") (.var "t"))), false⟩,
      ⟨"H.2", .atom (.subset (.var "s") (.var "u")), false⟩]
  goal := .implies (.atom (.isEmpty (.var "t"))) (.atom (.subset (.var "u") (.var "t")))

theorem prepare_distinctNames_numbered :
    Problem.read numbered.text = .ok numbered ∧ numbered.DistinctNames ∧
      numbered.introduceGoal.value.PartsApart ∧ (∀ a ∈ numbered.goal.atoms, a.Legible) ∧
      (numbered.prepare {}).value.DistinctNames := by
  have read : Problem.read numbered.text = .ok numbered := Problem.read_text_of_isWritable (by decide)
  have distinct : numbered.DistinctNames := by decide
  have apart : numbered.introduceGoal.value.PartsApart := by decide
  have legible : ∀ a ∈ numbered.goal.atoms, a.Legible := Formula.legible_of_wellNamed (by decide)
  have names := (prepare_distinctNames read distinct numbered.goal {}).2 apart legible
  exact ⟨read, distinct, apart, legible, names _ (by simp [stages])⟩

/-- The second hypothesis has the name of a part of the first one. -/
def clashing : Sequent where
  hypotheses :=
    [⟨"H", .and (.atom (.mem (.var "x") (.var "s"))) (.atom (.mem (.var "y") (.var "s"))), false⟩,
      ⟨"H.0", .atom (.mem (.var "x") (.var "t")), false⟩]
  goal := .atom (.mem (.var "y") (.var "t"))

/-- The goal has a variable that is written like a term of a hypothesis. -/
def lookalike : Sequent where
  hypotheses :=
    [⟨"U", .atom (.subset (.var "s") (.var "t")), false⟩,
      ⟨"P", .atom (.mem (.app "f" [.var "x"]) (.var "s")), false⟩]
  goal := .atom (.mem (.var "f(x)") (.var "t"))

/-- A label like the name of a part, and a goal that cannot be read, let the stages give a name twice. -/
theorem prepare_repeats_names :
    (Problem.read clashing.text = .ok clashing ∧ clashing.DistinctNames ∧
      ¬(clashing.prepare {}).value.DistinctNames) ∧
    Problem.read { lookalike with goal := .top }.text = .ok { lookalike with goal := .top } ∧
      lookalike.DistinctNames ∧ lookalike.introduceGoal.value.PartsApart ∧
      ¬(lookalike.prepare {}).value.DistinctNames := by
  have parts : (clashing.prepare {}).value.hypotheses.map (·.name) = ["H.0", "H.1", "H.0", "D0"] := by
    cbv
  have instances : (lookalike.prepare {}).value.hypotheses.map (·.name) =
      ["P", "U[f(x)]", "U[f(x)]", "D0", "D1"] := by
    cbv
  refine ⟨⟨Problem.read_text_of_isWritable (by decide), by decide, ?_⟩,
    Problem.read_text_of_isWritable (by decide), by decide, by decide, ?_⟩
  · rw [DistinctNames, parts]
    decide
  · rw [DistinctNames, instances]
    decide

end Sequent

end SetSequent
