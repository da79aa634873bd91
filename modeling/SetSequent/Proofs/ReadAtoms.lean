import SetSequent.Proofs.ReadTerms

/-!
# Reading atoms

* `Atom.balanced_tokens`, `Atom.cutAt_tokens` — an atom is cut at its own symbol only.
* `Atom.readAtom_eq_ok`, `Atom.readPredicate_eq_ok` — what is read as an atom.
* `Atom.readAtom_tokens` — an atom is read from its tokens.
* `Atom.wellNamed_of_readAtom` — the names of an atom that is read are among the tokens.
-/

namespace SetSequent.Atom

variable {a : Atom} {f : Token} {name : Token → Bool}

theorem applyPredicate_args (h : a.head? = some f) (hn : a.wellNamed name = true) :
    applyPredicate f a.args = .ok a := by
  cases a with
  | pred p args =>
    cases args with
    | nil => cases h
    | cons t ts =>
      cases h
      simp only [wellNamed, List.isEmpty_cons, Bool.false_or, Bool.and_eq_true,
        Option.isNone_iff_eq_none] at hn
      have hl := hn.1.2
      unfold applyPredicate
      split
      all_goals try cases hl
      rw [hl]
      rfl
  | eq | mem => cases h
  | isEmpty | subset | setEq => cases h; rfl

theorem wellNamed_of_applyPredicate {args : List Term} (h : applyPredicate f args = .ok a)
    (hf : name f = true) (hc : Token.isCapitalised f = true)
    (ha : ∀ t ∈ args, t.wellNamed name = true) : a.wellNamed name = true := by
  have ha := Term.listWellNamed_iff.2 ha
  unfold applyPredicate at h
  split at h
  all_goals try (cases h; exact ha)
  split at h
  · cases h
  · rename_i hl
    cases h
    simp [wellNamed, hf, hc, hl, ha]

theorem isCapitalised_of_head? (h : a.head? = some f) (hn : a.wellNamed name = true) :
    Token.isCapitalised f = true := by
  cases a with
  | pred p args =>
    cases args with
    | nil => cases h
    | cons t ts =>
      cases h
      simp only [wellNamed, Bool.and_eq_true] at hn
      exact hn.1.1.2
  | _ => cases h <;> decide

/-- The token between the sides of an equation or a membership. -/
def symbol? : Atom → Option Token
  | .eq .. => some "="
  | .mem .. => some "in"
  | _ => none

theorem mem_of_symbol? {x : Token} (h : a.symbol? = some x) : x ∈ ["=", "in"] := by
  cases a <;> cases h <;> decide

/-- Outside parentheses an atom has names, and a symbol if it stands between two sides. -/
theorem balanced_tokens (h : a.wellNamed Token.isName = true) :
    Balanced (fun x => Token.isName x = true ∨ a.symbol? = some x) a.tokens := by
  have side (t : Term) (ht : t ∈ a.args) :
      Balanced (fun x => Token.isName x = true ∨ a.symbol? = some x) t.tokens :=
    (Term.balanced_tokens (listWellNamed_args h t ht)).imp fun _ hx => .inl hx
  have inside {f : Token} (hf : a.head? = some f) :
      Balanced (fun x => Token.isName x = true ∨ a.symbol? = some x) a.tokens := by
    have hname := name_of_head? (by decide) hf h
    rw [tokens_of_head? hf]
    exact balanced_applied hname (.inl hname) (Term.balanced_listTokens side)
  cases a with
  | eq l r =>
    have right := side r (.tail _ (.head _))
    exact (side l (.head _)).append (.token (.inr rfl) (by decide) (by decide) right)
  | mem e s =>
    have right := side s (.tail _ (.head _))
    exact (side e (.head _)).append (.token (.inr rfl) (by decide) (by decide) right)
  | pred p ts =>
    cases ts with
    | nil =>
      simp only [wellNamed, Bool.and_eq_true] at h
      have hp := h.1.1.1
      exact .token (.inl hp) (Token.ne_of_isName hp (by decide)) (Token.ne_of_isName hp (by decide)) .nil
    | cons => exact inside rfl
  | isEmpty | subset | setEq => exact inside rfl

/-- An atom is cut at its own symbol only. -/
theorem cutAt_tokens {word : Token} (h : a.wellNamed Token.isName = true)
    (hw : Token.isName word = false) (hl : word ≠ "(") (hs : a.symbol? ≠ some word) :
    cutAt word a.tokens = none := by
  refine cutAt_none_of_balanced (balanced_tokens h) hl fun x hx => ?_
  rcases hx with hx | hx
  · exact ⟨Token.ne_of_isName hx hw, Token.ne_of_isName hx (by decide)⟩
  · refine ⟨fun he => hs (he ▸ hx), fun he => ?_⟩
    rw [he] at hx
    exact absurd (mem_of_symbol? hx) (by decide)

theorem readPair_eq_ok {g : Term → Term → Atom} {l r : List Token} :
    (do return g (← readTerm l) (← readTerm r) : Except ReadError Atom) = .ok a ↔
      ∃ s t : Term, l = s.tokens ∧ r = t.tokens ∧ s.wellNamed Token.isName = true ∧
        t.wellNamed Token.isName = true ∧ a = g s t := by
  constructor
  · intro h
    obtain ⟨s, left, hrest⟩ := bind_eq_ok.1 h
    obtain ⟨t, right, hpure⟩ := bind_eq_ok.1 hrest
    cases hpure
    obtain ⟨hs, hl⟩ := Term.readTerm_iff.1 left
    obtain ⟨ht, hr⟩ := Term.readTerm_iff.1 right
    exact ⟨s, t, hl, hr, hs, ht, rfl⟩
  · rintro ⟨s, t, rfl, rfl, hs, ht, rfl⟩
    rw [Term.readTerm_tokens hs, Term.readTerm_tokens ht]
    rfl

/-- What is read after the name of a predicate: nothing, or terms in parentheses. -/
theorem readPredicate_eq_ok {rest : List Token} :
    readPredicate f rest = .ok a ↔
      (rest = [] ∧ a = .pred f []) ∨ ∃ args : List Term,
        f :: rest = applied f (Term.listTokens args) ∧
          (∀ t ∈ args, t.wellNamed Token.isName = true) ∧ applyPredicate f args = .ok a := by
  constructor
  · intro h
    unfold readPredicate at h
    split at h
    · cases h
      exact .inl ⟨rfl, rfl⟩
    · rename_i u rest
      split at h
      · rename_i hu
        subst hu
        obtain ⟨pieces, hp, hrest⟩ := bind_eq_ok.1 h
        obtain ⟨args, ha, happly⟩ := bind_eq_ok.1 hrest
        obtain ⟨named, rfl⟩ := Term.readTerms_iff.1 ha
        refine .inr ⟨args, ?_, named, happly⟩
        rw [Term.eq_of_readArguments hp, applied, Term.listTokens_eq]
      · cases h
  · rintro (⟨rfl, rfl⟩ | ⟨args, htokens, named, h⟩)
    · rfl
    · cases htokens
      have pieces : readArguments f (Term.listTokens args ++ [")"]) = .ok (args.map Term.tokens) :=
        Term.readArguments_listTokens named
      have terms : readTerms (args.map Term.tokens) = .ok args := Term.readTerms_iff.2 ⟨named, rfl⟩
      rw [readPredicate, if_pos rfl]
      exact bind_eq_ok.2 ⟨_, pieces, bind_eq_ok.2 ⟨_, terms, h⟩⟩

/-- What the reader of atoms accepts. An equation is tried before a membership, and both before a
predicate. -/
theorem readAtom_eq_ok {x : Token} {rest : List Token} :
    readAtom x rest = .ok a ↔
      (∃ l r : Term, cutAt "=" (x :: rest) = some (l.tokens, r.tokens) ∧
        l.wellNamed Token.isName = true ∧ r.wellNamed Token.isName = true ∧ a = .eq l r) ∨
      (cutAt "=" (x :: rest) = none ∧ ∃ l r : Term,
        cutAt "in" (x :: rest) = some (l.tokens, r.tokens) ∧
          l.wellNamed Token.isName = true ∧ r.wellNamed Token.isName = true ∧ a = .mem l r) ∨
      (cutAt "=" (x :: rest) = none ∧ cutAt "in" (x :: rest) = none ∧ x.isName = true ∧
        x.isCapitalised = true ∧ readPredicate x rest = .ok a) := by
  unfold readAtom
  cases heq : cutAt "=" (x :: rest) with
  | some p =>
    simp only [readPair_eq_ok]
    grind
  | none =>
    cases hin : cutAt "in" (x :: rest) with
    | some p =>
      simp only [readPair_eq_ok]
      grind
    | none => grind

/-- **An atom is read from its tokens.** -/
theorem readAtom_tokens {x : Token} {rest : List Token} (h : a.wellNamed Token.isName = true)
    (ht : a.tokens = x :: rest) : readAtom x rest = .ok a := by
  have named (t : Term) (hm : t ∈ a.args) := listWellNamed_args h t hm
  have noCut {word : Token} (hw : Token.isName word = false) (hl : word ≠ "(")
      (hs : a.symbol? ≠ some word) : cutAt word (x :: rest) = none :=
    ht ▸ cutAt_tokens h hw hl hs
  have cut {l : Term} {word : Token} {r : List Token} (hl : l.wellNamed Token.isName = true)
      (hw : Token.isName word = false) (hp : word ≠ "(") (hf : word ≠ "forall") :
      cutAt word (l.tokens ++ word :: r) = some (l.tokens, r) :=
    cutAt_of_balanced (Term.balanced_tokens hl) hp hf fun y hy =>
      ⟨Token.ne_of_isName hy hw, Token.ne_of_isName hy (by decide)⟩
  -- A predicate with arguments: no cut is made, and the name makes the atom of its arguments.
  have inside {f : Token} (hf : a.head? = some f) (hs : a.symbol? = none) :
      readAtom x rest = .ok a := by
    have tokens := tokens_of_head? hf
    obtain rfl : x = f := by
      rw [ht] at tokens
      exact (List.cons.inj tokens).1
    refine readAtom_eq_ok.2 (.inr (.inr ⟨noCut (by decide) (by decide) (by simp [hs]),
      noCut (by decide) (by decide) (by simp [hs]), name_of_head? (by decide) hf h,
      isCapitalised_of_head? hf h, ?_⟩))
    exact readPredicate_eq_ok.2 (.inr ⟨a.args, ht ▸ tokens, named, applyPredicate_args hf h⟩)
  cases a with
  | eq l r =>
    have hl := named l (.head _)
    have hcut : cutAt "=" (x :: rest) = some (l.tokens, r.tokens) :=
      ht ▸ cut hl (by decide) (by decide) (by decide)
    exact readAtom_eq_ok.2 (.inl ⟨l, r, hcut, hl, named r (.tail _ (.head _)), rfl⟩)
  | mem e s =>
    have he := named e (.head _)
    have hcut : cutAt "in" (x :: rest) = some (e.tokens, s.tokens) :=
      ht ▸ cut he (by decide) (by decide) (by decide)
    exact readAtom_eq_ok.2 (.inr (.inl ⟨noCut (by decide) (by decide) (by simp [symbol?]), e, s, hcut, he,
      named s (.tail _ (.head _)), rfl⟩))
  | pred p ts =>
    cases ts with
    | nil =>
      cases ht
      simp only [wellNamed, Bool.and_eq_true] at h
      exact readAtom_eq_ok.2 (.inr (.inr ⟨noCut (by decide) (by decide) (by simp [symbol?]),
        noCut (by decide) (by decide) (by simp [symbol?]), h.1.1.1, h.1.1.2, rfl⟩))
    | cons => exact inside rfl rfl
  | isEmpty | subset | setEq => exact inside rfl rfl

theorem isName_of_readAtom {x : Token} {rest : List Token} (h : readAtom x rest = .ok a) :
    x.isName = true := by
  have first {t : Term} {word : Token} {r : List Token} (ht : t.wellNamed Token.isName = true)
      (hc : cutAt word (x :: rest) = some (t.tokens, r)) : x.isName = true := by
    obtain ⟨y, -, hy⟩ := eq_of_cutBy hc
    -- The left side is a term, and the first token of a term is a name.
    obtain ⟨z, zs, htokens, hz⟩ := Term.exists_tokens ht
    rw [htokens] at hy
    cases hy
    exact hz
  rcases readAtom_eq_ok.1 h with ⟨l, r, hc, hl, -, -⟩ | ⟨-, l, r, hc, hl, -, -⟩ | ⟨-, -, hx, -, -⟩
  · exact first hl hc
  · exact first hl hc
  · exact hx

theorem wellNamed_of_readAtom {x : Token} {rest : List Token} (h : readAtom x rest = .ok a)
    (hn : ∀ y ∈ x :: rest, Token.isName y = true → name y = true) : a.wellNamed name = true := by
  have side {t : Term} (ht : t.wellNamed Token.isName = true) (hs : t.tokens ⊆ x :: rest) :
      t.wellNamed name = true :=
    Term.wellNamed_of_tokens ht fun y hy => hn y (hs hy)
  have both {l r : Term} {word : Token} (hl : l.wellNamed Token.isName = true)
      (hr : r.wellNamed Token.isName = true)
      (hc : cutAt word (x :: rest) = some (l.tokens, r.tokens)) :
      Term.listWellNamed name [l, r] = true := by
    obtain ⟨y, -, hy⟩ := eq_of_cutBy hc
    rw [hy] at side
    have left : l.wellNamed name = true := side hl (List.subset_append_left _ _)
    have right : r.wellNamed name = true :=
      side hr fun z hz => List.mem_append_right _ (.tail _ hz)
    simp [Term.listWellNamed, left, right]
  rcases readAtom_eq_ok.1 h with ⟨l, r, hc, hl, hr, rfl⟩ | ⟨-, l, r, hc, hl, hr, rfl⟩ |
    ⟨-, -, hx, hcap, hp⟩
  · exact both hl hr hc
  · exact both hl hr hc
  · rcases readPredicate_eq_ok.1 hp with ⟨rfl, rfl⟩ | ⟨args, ht, named, ha⟩
    · simp [wellNamed, hn x (.head _) hx, hcap, Term.listWellNamed]
    · refine wellNamed_of_applyPredicate ha (hn x (.head _) hx) hcap fun t hm => side (named t hm) ?_
      rw [ht]
      exact fun y hy => mem_applied (Term.tokens_subset_listTokens hm hy)

end SetSequent.Atom
