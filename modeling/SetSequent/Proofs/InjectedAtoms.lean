import SetSequent.Node
import SetSequent.Proofs.PreparedForm

/-!
# Where excluded middles are injected

The search splits on the atoms that occur negated, and the stage before it adds their excluded middles. It
finds these atoms by a recursion that carries a flag; here a negative position is described by where it
stands.

* `Formula.negatedParts`, `Atom.OccursNegated` — the parts of a formula that stand in negative position, and
  the atoms in them.
* `negatedAtoms_true`, `mem_negatedAtoms` — the recursion finds these atoms.
* `Sequent.inject_exact` — the hypotheses that the stage adds to a sequent.
-/

namespace SetSequent

/-! ## Negative positions -/

namespace Formula

/-- The immediate parts of a formula that stand in negative position: what is negated, a premise, and both
sides of an equivalence. -/
def negatedParts : Formula → List Formula
  | .not f => [f]
  | .implies l _ => [l]
  | .iff l r => [l, r]
  | _ => []

theorem mem_atoms_of_negatedParts {f g : Formula} (hg : g ∈ f.negatedParts) {a : Atom}
    (ha : a ∈ g.atoms) : a ∈ f.atoms := by
  cases f with
  | top | bot | atom | all => cases hg
  | not f => rwa [List.mem_singleton.1 hg] at ha
  | connect c l r =>
    cases c with
    | and | or => cases hg
    | implies =>
      rw [List.mem_singleton.1 hg] at ha
      exact List.mem_append_left _ ha
    | iff =>
      rcases List.mem_cons.1 hg with rfl | hg
      · exact List.mem_append_left _ ha
      · rw [List.mem_singleton.1 hg] at ha
        exact List.mem_append_right _ ha

theorem mem_atoms_of_subformulas {f g : Formula} (hg : g ∈ f.subformulas) {a : Atom}
    (ha : a ∈ g.atoms) : a ∈ f.atoms := by
  induction f with
  | top | bot | atom => rwa [List.mem_singleton.1 hg] at ha
  | not f ih | all x f ih =>
    rcases List.mem_cons.1 hg with rfl | hg
    · exact ha
    · exact ih hg
  | connect c l r ihl ihr =>
    rcases List.mem_cons.1 hg with rfl | hg
    · exact ha
    · rcases List.mem_append.1 hg with hg | hg
      · exact List.mem_append_left _ (ihl hg)
      · exact List.mem_append_right _ (ihr hg)

end Formula

/-- Somewhere in the formula the atom stands under a negation, in a premise or on a side of an equivalence. -/
def Atom.OccursNegated (a : Atom) (f : Formula) : Prop :=
  ∃ g ∈ f.subformulas, ∃ part ∈ g.negatedParts, a ∈ part.atoms

instance (a : Atom) (f : Formula) : Decidable (a.OccursNegated f) :=
  inferInstanceAs (Decidable (∃ g ∈ f.subformulas, ∃ part ∈ g.negatedParts, a ∈ part.atoms))

namespace Formula

variable {a : Atom} {f l r : Formula}

theorem mem_atoms_of_occursNegated (h : a.OccursNegated f) : a ∈ f.atoms := by
  obtain ⟨g, hg, part, hp, ha⟩ := h
  exact mem_atoms_of_subformulas hg (mem_atoms_of_negatedParts hp ha)

theorem occursNegated_not : a.OccursNegated (.not f) ↔ a ∈ f.atoms := by
  constructor
  · exact mem_atoms_of_occursNegated
  · exact fun h => ⟨.not f, .head _, f, .head _, h⟩

theorem occursNegated_all {x : String} : a.OccursNegated (.all x f) ↔ a.OccursNegated f := by
  simp [Atom.OccursNegated, subformulas, negatedParts]

/-- In a compound formula an atom is negated by the connective or inside of a side. -/
theorem occursNegated_connect {c : Connective} :
    a.OccursNegated (.connect c l r) ↔
      (∃ part ∈ (connect c l r).negatedParts, a ∈ part.atoms) ∨ a.OccursNegated l ∨ a.OccursNegated r := by
  simp only [Atom.OccursNegated, subformulas, List.cons_append, List.mem_cons, List.mem_append, or_and_right,
    exists_or, exists_eq_left]

/-- Under a negation every atom counts. -/
theorem negatedAtoms_true (f : Formula) : f.negatedAtoms true = f.atoms.map Atom.orient := by
  induction f with
  | top | bot | atom => rfl
  | not f ih | all x f ih => exact ih
  | connect c l r ihl ihr =>
    rw [atoms, List.map_append, ← ihl, ← ihr]
    cases c <;> rfl

/-- The recursion collects the atoms in negative position, each oriented. -/
theorem mem_negatedAtoms :
    a ∈ f.negatedAtoms false ↔ ∃ b : Atom, b.OccursNegated f ∧ b.orient = a := by
  induction f with
  | top | bot | atom => simp [negatedAtoms, Atom.OccursNegated, subformulas, negatedParts]
  | not f =>
    simp only [occursNegated_not]
    rw [negatedAtoms, negatedAtoms_true, List.mem_map]
  | connect c l r ihl ihr =>
    have left {b : Atom} (h : b.OccursNegated l) := mem_atoms_of_occursNegated h
    have right {b : Atom} (h : b.OccursNegated r) := mem_atoms_of_occursNegated h
    cases c with
    | and | or =>
      simp only [occursNegated_connect, negatedParts, List.not_mem_nil, false_and, exists_false, false_or,
        or_and_right, exists_or, ← ihl, ← ihr]
      exact List.mem_append
    | implies =>
      have sides (b : Atom) : b.OccursNegated (.implies l r) ↔ b ∈ l.atoms ∨ b.OccursNegated r := by
        rw [occursNegated_connect]
        simp only [negatedParts, List.mem_singleton, exists_eq_left]
        exact ⟨fun h => h.elim .inl (Or.imp_left left), Or.imp_right .inr⟩
      simp only [sides, or_and_right, exists_or, ← ihr, ← List.mem_map, ← negatedAtoms_true]
      exact List.mem_append
    | iff =>
      have sides (b : Atom) : b.OccursNegated (.iff l r) ↔ b ∈ l.atoms ∨ b ∈ r.atoms := by
        rw [occursNegated_connect]
        simp only [negatedParts, List.mem_cons, List.not_mem_nil, or_false, or_and_right, exists_or,
          exists_eq_left]
        exact ⟨fun h => h.elim id (Or.imp left right), .inl⟩
      simp only [sides, or_and_right, exists_or, ← List.mem_map, ← negatedAtoms_true]
      exact List.mem_append
  | all x f ih =>
    simp only [occursNegated_all]
    exact ih

end Formula

/-! ## Injection -/

namespace Sequent

variable {s : Sequent} {a : Atom}

theorem mem_splitCandidates :
    a ∈ s.splitCandidates ↔ ∃ b : Atom, (b ∈ s.goal.atoms ∨ ∃ f ∈ s.facts, b.OccursNegated f) ∧
      b.orient = a := by
  simp only [splitCandidates, List.mem_eraseDups, List.mem_append, List.mem_flatMap, List.mem_map,
    Formula.mem_negatedAtoms]
  constructor
  · rintro (⟨f, hf, b, hb, he⟩ | ⟨b, hb, he⟩)
    · exact ⟨b, .inr ⟨f, hf, hb⟩, he⟩
    · exact ⟨b, .inl hb, he⟩
  · rintro ⟨b, hb | ⟨f, hf, hb⟩, he⟩
    · exact .inr ⟨b, hb, he⟩
    · exact .inl ⟨f, hf, b, hb, he⟩

/-- In a sequent with oriented equations the candidates are the atoms as they occur. -/
theorem mem_splitCandidates_of_oriented (oriented : ∀ f ∈ s.formulas, ∀ a ∈ f.atoms, a.orient = a) :
    a ∈ s.splitCandidates ↔ a ∈ s.goal.atoms ∨ ∃ f ∈ s.facts, a.OccursNegated f := by
  have unchanged {b : Atom} (hb : b ∈ s.goal.atoms ∨ ∃ f ∈ s.facts, b.OccursNegated f) : b.orient = b := by
    rcases hb with hb | ⟨f, hf, hb⟩
    · exact oriented s.goal (List.mem_append_right _ (List.mem_singleton_self _)) b hb
    · exact oriented f (List.mem_append_left _ hf) b (Formula.mem_atoms_of_occursNegated hb)
  rw [mem_splitCandidates]
  constructor
  · rintro ⟨b, hb, rfl⟩
    rwa [unchanged hb]
  · exact fun h => ⟨a, h, unchanged h⟩

/-- **Excluded middles where they are needed.** In a sequent with oriented equations, injection keeps the goal
and the hypotheses and appends the excluded middles of some atoms, each marked as injected. The atoms are
oriented and differ from each other, and the names differ from each other and from those of the hypotheses.
An atom is among them exactly if it is decidable, occurs in the goal or in negative position in a hypothesis,
and neither it nor its negation is a hypothesis. -/
theorem inject_exact (t : DecidabilityTable) {s : Sequent}
    (oriented : ∀ f ∈ s.formulas, ∀ a ∈ f.atoms, a.orient = a) :
    ∃ (added : List Hypothesis) (atoms : List Atom),
      (s.inject t).value = ⟨s.hypotheses ++ added, s.goal⟩ ∧
      (∀ h ∈ added, h.injected = true) ∧
      added.map (·.formula) = atoms.map (fun a => .or (.atom a) (.not (.atom a))) ∧
      atoms.Nodup ∧ (∀ a ∈ atoms, a.orient = a) ∧
      (added.map (·.name)).Nodup ∧ (∀ h ∈ added, h.name ∉ s.hypotheses.map (·.name)) ∧
      ∀ a, a ∈ atoms ↔
        t.isDecidable (.atom a) = true ∧ (a ∈ s.goal.atoms ∨ ∃ f ∈ s.facts, a.OccursNegated f) ∧
          .atom a ∉ s.facts ∧ .not (.atom a) ∉ s.facts := by
  obtain ⟨added, value, injected, formulas, nodup, apart⟩ :=
    exists_injectAll t s.facts s.splitCandidates s.hypotheses
  refine ⟨added, s.splitCandidates.filter (isOpen t s.facts), ?_, injected, formulas, ?_, fun a ha => ?_, nodup,
    apart, fun a => ?_⟩
  · rw [← value]
    rfl
  · exact (Search.nodup_eraseDups _).filter _
  · obtain ⟨b, _, rfl⟩ := mem_splitCandidates.1 (List.mem_filter.1 ha).1
    exact b.orient_orient
  · rw [List.mem_filter, mem_splitCandidates_of_oriented oriented, isOpen_iff, and_left_comm]

/-- `D0` is the name of a hypothesis, `x = y` is denied by another, and `P` is not declared. -/
def partlySettled : Sequent where
  hypotheses :=
    [{ name := "D0"
       formula := .implies (.atom (.mem (.var "x") (.var "s"))) (.atom (.mem (.var "x") (.var "u"))) },
     { name := "H1", formula := .not (.atom (.eq (.var "x") (.var "y"))) },
     { name := "H2"
       formula := .iff (.atom (.pred "P" [.var "x"])) (.atom (.eq (.var "x") (.var "z"))) }]
  goal := .atom (.mem (.var "x") (.var "v"))

theorem inject_exact_partlySettled :
    (∀ f ∈ partlySettled.formulas, ∀ a ∈ f.atoms, a.orient = a) ∧
      ∃ (added : List Hypothesis) (atoms : List Atom),
        (partlySettled.inject .standard).value =
          ⟨partlySettled.hypotheses ++ added, partlySettled.goal⟩ ∧
        added.map (·.formula) = atoms.map (fun a => .or (.atom a) (.not (.atom a))) ∧
        "D0" ∉ added.map (·.name) ∧ .mem (.var "x") (.var "s") ∈ atoms ∧
        .mem (.var "x") (.var "u") ∉ atoms ∧ .eq (.var "x") (.var "y") ∉ atoms ∧
        .eq (.var "x") (.var "z") ∈ atoms := by
  have oriented : ∀ f ∈ partlySettled.formulas, ∀ a ∈ f.atoms, a.orient = a := by decide
  obtain ⟨added, atoms, value, _, formulas, _, _, _, apart, needed⟩ := inject_exact .standard oriented
  refine ⟨oriented, added, atoms, value, formulas, fun h => ?_, ?_, ?_, ?_, ?_⟩
  · obtain ⟨g, hg, he⟩ := List.mem_map.1 h
    exact apart g hg (by rw [he]; decide)
  · exact (needed _).2 (by decide)
  · exact fun h => absurd ((needed _).1 h) (by decide)
  · exact fun h => absurd ((needed _).1 h) (by decide)
  · exact (needed _).2 (by decide)

end Sequent

end SetSequent
