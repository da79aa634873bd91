import Mathlib
import SetSequent.Proofs.EveryAtom

/-!
# Values in a Heyting algebra

A formula is read constructively by its value in a Heyting algebra. The atoms that a table calls
decidable are those for which excluded middle holds there; about the others nothing is assumed.

* `Decided` — excluded middle holds for a value.
* `Valuation.value` — the value of a formula, from values for its atoms and its quantified parts.
* `Valuation.Respects` — the atoms that a table calls decidable are decided.
* `decided_of_isDecidable` — then so is every formula that the table calls decidable.
* `value_pushRule?`, `value_pullRule?` — each rule keeps the value by the guards that it tests.
* `value_normal_forms` — pushing, pulling and the normal form keep the value.
-/

namespace SetSequent

/-! ## Decided values -/

section Decided

variable {H : Type*} [HeytingAlgebra H] {a b : H}

/-- Excluded middle holds for the value. -/
def Decided (a : H) : Prop := a ⊔ aᶜ = ⊤

theorem Decided.compl_compl (ha : Decided a) : aᶜᶜ = a :=
  (compl_unique (by rw [inf_comm, inf_compl_self]) (by rw [sup_comm]; exact ha))

theorem Decided.himp_eq (ha : Decided a) (b : H) : a ⇨ b = aᶜ ⊔ b := by
  refine le_antisymm ?_ compl_sup_le_himp
  calc a ⇨ b = (a ⇨ b) ⊓ (a ⊔ aᶜ) := by rw [ha, inf_top_eq]
    _ = (b ⊓ a) ⊔ ((a ⇨ b) ⊓ aᶜ) := by rw [inf_sup_left, himp_inf_self]
    _ ≤ b ⊔ aᶜ := sup_le_sup inf_le_left inf_le_right
    _ = aᶜ ⊔ b := sup_comm ..

theorem Decided.compl_inf (ha : Decided a) (b : H) : (a ⊓ b)ᶜ = aᶜ ⊔ bᶜ := by
  rw [← himp_bot, ← himp_himp, himp_bot, ha.himp_eq]

theorem Decided.compl_himp (ha : Decided a) (b : H) : (a ⇨ b)ᶜ = a ⊓ bᶜ := by
  rw [ha.himp_eq, compl_sup, ha.compl_compl]

theorem Decided.compl (ha : Decided a) : Decided aᶜ := by
  rw [Decided, ha.compl_compl, sup_comm]
  exact ha

theorem Decided.inf (ha : Decided a) (hb : Decided b) : Decided (a ⊓ b) := by
  rw [Decided, ha.compl_inf, sup_inf_right, ← sup_assoc, ha, top_sup_eq, top_inf_eq, sup_left_comm,
    hb, sup_top_eq]

theorem Decided.sup (ha : Decided a) (hb : Decided b) : Decided (a ⊔ b) := by
  have := (ha.compl.inf hb.compl).compl
  rwa [ha.compl.compl_inf, ha.compl_compl, hb.compl_compl] at this

theorem Decided.himp (ha : Decided a) (hb : Decided b) : Decided (a ⇨ b) := by
  rw [ha.himp_eq]
  exact ha.compl.sup hb

theorem decided_top : Decided (⊤ : H) := top_sup_eq _

theorem decided_bot : Decided (⊥ : H) := by rw [Decided, compl_bot, sup_top_eq]

/-- Of two decided values the equivalence fails if one holds and the other does not. -/
theorem Decided.compl_bihimp (ha : Decided a) (hb : Decided b) :
    ((a ⇨ b) ⊓ (b ⇨ a))ᶜ = a ⊓ bᶜ ⊔ aᶜ ⊓ b := by
  rw [(ha.himp hb).compl_inf, ha.compl_himp, hb.compl_himp, inf_comm b]

/-- Two decided values are equivalent if both hold or none does. -/
theorem Decided.bihimp_eq (ha : Decided a) (hb : Decided b) :
    (a ⇨ b) ⊓ (b ⇨ a) = a ⊓ b ⊔ aᶜ ⊓ bᶜ := by
  rw [ha.himp_eq, hb.himp_eq, inf_sup_left, inf_sup_right, inf_sup_right, inf_compl_self,
    compl_inf_self, sup_bot_eq, bot_sup_eq, sup_comm, inf_comm b]

end Decided

namespace DecidabilityTable

/-- A connective has a reason only if both sides have one. -/
theorem isDecidable_of_connect {t : DecidabilityTable} {c : Connective} {l r : Formula}
    (h : t.isDecidable (.connect c l r) = true) : t.isDecidable l = true ∧ t.isDecidable r = true := by
  have some_of_speaks {o : Option String} (ho : speaks o = true) :
      o.isSome = true := by
    cases o with
    | none => cases ho
    | some reason => rfl
  unfold isDecidable reason at h
  split at h
  · rename_i hs
    rw [Bool.and_eq_true] at hs
    exact ⟨some_of_speaks hs.1, some_of_speaks hs.2⟩
  · cases h

end DecidabilityTable

/-! ## Values of formulas -/

/-- What a connective makes of two values. -/
def Connective.value {H : Type*} [HeytingAlgebra H] : Connective → H → H → H
  | .and, a, b => a ⊓ b
  | .or, a, b => a ⊔ b
  | .implies, a, b => a ⇨ b
  | .iff, a, b => (a ⇨ b) ⊓ (b ⇨ a)

/-- Values for the atoms, and for the quantified formulas, which are not looked into. -/
structure Valuation (H : Type*) where
  atom : Atom → H
  all : String → Formula → H

namespace Valuation

variable {H : Type*} [HeytingAlgebra H] (v : Valuation H) (t : DecidabilityTable)

def value : Formula → H
  | .top => ⊤
  | .bot => ⊥
  | .atom a => v.atom a
  | .not f => (value f)ᶜ
  | .connect c l r => c.value (value l) (value r)
  | .all x f => v.all x f

/-- Excluded middle holds for the atoms that the table calls decidable. -/
def Respects : Prop := ∀ a, t.isDecidable (.atom a) = true → v.atom a ⊔ (v.atom a)ᶜ = ⊤

variable {v t}

/-- What the table calls decidable is decided, compound formulas included. -/
theorem decided_of_isDecidable (hv : v.Respects t) {f : Formula} (h : t.isDecidable f = true) :
    Decided (v.value f) := by
  induction f with
  | top => exact decided_top
  | bot => exact decided_bot
  | atom a => exact hv a h
  | not f ih => exact (ih h).compl
  | connect c l r ihl ihr =>
    obtain ⟨hl, hr⟩ := DecidabilityTable.isDecidable_of_connect h
    have hl := ihl hl
    have hr := ihr hr
    cases c with
    | and => exact hl.inf hr
    | or => exact hl.sup hr
    | implies => exact hl.himp hr
    | iff => exact (hl.himp hr).inf (hr.himp hl)
  | all x f => cases h

/-! ## Negations -/

/-- Every rule for pushing is valid where its guards are decided. -/
theorem value_pushRule? {f : Formula} {r : NegationRule} (h : f.pushRule? = some r)
    (hg : ∀ g ∈ r.guards, Decided (v.value g)) : v.value r.result = v.value f := by
  unfold Formula.pushRule? at h
  split at h <;> cases h <;> simp only [List.mem_cons, List.not_mem_nil, or_false, forall_eq_or_imp,
    forall_eq] at hg
  · exact compl_top.symm
  · exact compl_bot.symm
  · exact hg.compl_compl.symm
  · exact compl_sup.symm
  · exact (hg.compl_inf _).symm
  · exact (hg.compl_himp _).symm
  · exact (hg.1.compl_bihimp hg.2).symm

/-- Every rule for pulling is valid where its guards are decided. -/
theorem value_pullRule? {f : Formula} {r : NegationRule} (h : f.pullRule? = some r)
    (hg : ∀ g ∈ r.guards, Decided (v.value g)) : v.value r.result = v.value f := by
  unfold Formula.pullRule? at h
  split at h <;> cases h <;> simp only [List.mem_cons, List.not_mem_nil, or_false, forall_eq] at hg
  · exact hg.compl_compl.symm
  · exact compl_sup
  · exact hg.compl_himp _
  · exact hg.compl_inf _
  · rename_i a b
    change v.value b ⇨ v.value a = (v.value a)ᶜ ⇨ (v.value b)ᶜ
    rw [himp_compl_comm, hg.compl_compl]

theorem value_of_fire (hv : v.Respects t) {whole g : Formula} {rule : Option NegationRule}
    (hr : ∀ r, rule = some r → (∀ g ∈ r.guards, Decided (v.value g)) →
      v.value r.result = v.value whole)
    (h : (NegationRule.fire? t whole rule).value = some g) : v.value g = v.value whole := by
  obtain ⟨r, hrule, hg, rfl⟩ := NegationRule.value_fire?.1 h
  exact hr r hrule fun g hm => decided_of_isDecidable hv (List.all_eq_true.1 hg g hm)

theorem value_pushStep (hv : v.Respects t) {f g : Formula} (h : (f.pushStep t).value = some g) :
    v.value g = v.value f :=
  value_of_fire hv (fun _ => value_pushRule?) h

theorem value_pullStep (hv : v.Respects t) {f g : Formula} (h : (f.pullStep t).value = some g) :
    v.value g = v.value f :=
  value_of_fire hv (fun _ => value_pullRule?) h

theorem value_push (hv : v.Respects t) (f : Formula) : v.value (f.push t).value = v.value f := by
  refine Formula.push_induction (R := fun f g => v.value g = v.value f) ?refl ?step ?not ?connect f
  case refl => exact fun _ => rfl
  case step =>
    intro f g h hs ih
    rw [ih, value_pushStep hv hs]
  case not =>
    intro f g ih
    rw [value, value, ih]
  case connect =>
    intro c l l' r r' ihl ihr
    rw [value, value, ihl, ihr]

theorem value_pull (hv : v.Respects t) (f : Formula) : v.value (f.pull t).value = v.value f := by
  refine Formula.pull_induction (R := fun f g => v.value g = v.value f)
    ?refl ?trans ?step ?not ?connect f
  case refl => exact fun _ => rfl
  case trans =>
    intro f g h h₁ h₂
    rw [h₂, h₁]
  case step => exact fun _ _ hs => value_pullStep hv hs
  case not =>
    intro f g ih
    rw [value, value, ih]
  case connect =>
    intro c l l' r r' ihl ihr
    rw [value, value, ihl, ihr]

theorem value_normalize (hv : v.Respects t) (usePull : Bool) (f : Formula) :
    v.value (f.normalize t usePull).value = v.value f := by
  rcases Formula.value_normalize (t := t) usePull f with h | h <;> rw [h]
  · exact value_push hv f
  · rw [value_pull hv, value_push hv]

/-- **The guards make the negation rules constructive.** Whatever the table is, pushing and pulling
negations and the normal form keep the value of a formula in every Heyting algebra in which excluded
middle holds for the atoms that the table calls decidable. -/
theorem value_normal_forms (t : DecidabilityTable) (v : Valuation H) (hv : v.Respects t)
    (f : Formula) :
    v.value (f.push t).value = v.value f ∧ v.value (f.pull t).value = v.value f ∧
      ∀ usePull, v.value (f.normalize t usePull).value = v.value f :=
  ⟨value_push hv f, value_pull hv f, fun usePull => value_normalize hv usePull f⟩

/-- `P` is declared, `Q` is not. -/
def declaresP : DecidabilityTable := ({} : DecidabilityTable).registerPredicate "P" none

/-- On the chain `0 < 1 < 2`, where excluded middle fails for `1`: `Q` lies in the middle and all other
atoms hold. -/
def middleQ : Valuation (Fin 3) where
  atom
    | .pred "Q" _ => 1
    | _ => ⊤
  all _ _ := 1

/-- `not (P and not not Q)`: the guard of the conjunction is met, that of the double negation is not. -/
def mixedNegations : Formula :=
  .not (.and (.atom (.pred "P" [])) (.not (.not (.atom (.pred "Q" [])))))

theorem value_normal_forms_chain :
    middleQ.Respects declaresP ∧ middleQ.value (.atom (.pred "Q" [])) ⊔
        (middleQ.value (.atom (.pred "Q" [])))ᶜ ≠ ⊤ ∧
      middleQ.value (mixedNegations.push declaresP).value = middleQ.value mixedNegations ∧
      middleQ.value (mixedNegations.pull declaresP).value = middleQ.value mixedNegations ∧
      ∀ usePull, middleQ.value (mixedNegations.normalize declaresP usePull).value =
        middleQ.value mixedNegations := by
  have respects : middleQ.Respects declaresP := by
    intro a ha
    have hp : ∃ args, a = .pred "P" args := by
      cases a with
      | pred p args =>
        refine ⟨args, ?_⟩
        by_cases hp : p = "P"
        · rw [hp]
        · have : (p == "P") = false := by simpa using hp
          simp [declaresP, DecidabilityTable.registerPredicate, DecidabilityTable.isDecidable,
            DecidabilityTable.reason, DecidabilityTable.atomReason, this] at ha
      | _ => cases ha
    obtain ⟨args, rfl⟩ := hp
    exact top_sup_eq _
  exact ⟨respects, by decide, value_normal_forms declaresP middleQ respects mixedNegations⟩

end Valuation

end SetSequent
