import SetSequent.Proofs.Cuts
import SetSequent.Proofs.WrittenTokens

/-!
# Reading terms

A list of tokens is read as a term exactly if it is the list of tokens of that term, so no two lists are
read as the same term.

* `Term.balanced_tokens` — outside parentheses a term has names only, so no cut is made inside a term.
* `Term.readTerm_iff`, `Term.readTerms_iff` — what is read, and from which tokens.
-/

namespace SetSequent

theorem Token.ne_of_isName {t u : Token} (h : t.isName = true) (hu : u.isName = false) : t ≠ u := by
  rintro rfl
  rw [h] at hu
  cases hu

theorem balanced_applied {f : Token} {P : Token → Prop} {inner : List Token} (hf : f.isName = true)
    (hp : P f) (hi : Balanced (fun _ => True) inner) : Balanced P (applied f inner) :=
  .token hp (Token.ne_of_isName hf (by decide)) (Token.ne_of_isName hf (by decide)) hi.parenthesised

/-- A reading that has a step before it succeeds if both do. -/
theorem bind_eq_ok {α β : Type} {x : Except ReadError α} {g : α → Except ReadError β} {b : β} :
    (x >>= g) = .ok b ↔ ∃ a, x = .ok a ∧ g a = .ok b := by
  cases x with
  | error e => simp [bind, Except.bind]
  | ok a => simp [bind, Except.bind]

namespace Term

variable {t : Term} {f : Token} {ts : List Term}

theorem applyName_of_isFunctionName (h : Token.isFunctionName f = true) (args : List Term) :
    applyName f args = .ok (.app f args) := by
  unfold applyName
  split
  all_goals try cases h
  rw [Token.isFunctionName, Bool.and_eq_true, Option.isNone_iff_eq_none] at h
  rw [h.2]

/-- A name makes of its arguments the term with this head. -/
theorem applyName_eq_ok {args : List Term} :
    applyName f args = .ok t ↔ t.head? = some f ∧ t.children = args ∧
      (t = .app f args → Token.isFunctionName f = true) := by
  constructor
  · intro h
    unfold applyName at h
    split at h
    all_goals try (cases h; exact ⟨rfl, rfl, fun h => by cases h⟩)
    · cases h
    · rename_i hempty _ _ _ _ _ _
      split at h
      · cases h
      · rename_i hl
        cases h
        refine ⟨rfl, rfl, fun _ => ?_⟩
        rw [Token.isFunctionName, hl]
        simpa using hempty
  · rintro ⟨hh, rfl, hf⟩
    cases t with
    | var | empty => cases hh
    | app g args =>
      cases hh
      exact applyName_of_isFunctionName (hf rfl) args
    | _ => cases hh; rfl

/-- What the reader of terms accepts: a name, or a name that is applied to terms. -/
theorem readTerm_eq_ok {tokens : List Token} :
    readTerm tokens = .ok t ↔
      (∃ x : Token, x.isName = true ∧ tokens = [x] ∧ t = if x = "empty" then .empty else .var x) ∨
        ∃ (f : Token) (rest : List Token) (pieces : List (List Token)) (args : List Term),
          f.isName = true ∧ tokens = f :: "(" :: rest ∧ readArguments f rest = .ok pieces ∧
            readTerms pieces = .ok args ∧ applyName f args = .ok t := by
  constructor
  · intro h
    rw [readTerm.eq_def] at h
    split at h
    · cases h
    · rename_i f tokens
      split at h
      · rename_i hf
        split at h
        · cases h
          exact .inl ⟨f, hf, rfl, rfl⟩
        · rename_i u rest
          split at h
          · rename_i hu
            subst hu
            split at h
            · cases h
            · rename_i pieces hp
              split at h
              · cases h
              · rename_i args ha
                exact .inr ⟨f, rest, pieces, args, hf, rfl, hp, ha, h⟩
          · cases h
      · cases h
  · rintro (⟨x, hx, rfl, rfl⟩ | ⟨f, rest, pieces, args, hf, rfl, hp, ha, h⟩)
    · rw [readTerm, if_pos hx]
    · rw [readTerm, if_pos hf, if_pos rfl]
      split
      · rename_i he
        rw [hp] at he
        cases he
      · rename_i ps hps
        rw [hp] at hps
        cases hps
        rw [ha]
        exact h

theorem readTerms_cons_eq_ok {p : List Token} {pieces : List (List Token)} :
    readTerms (p :: pieces) = .ok ts ↔
      ∃ t us, readTerm p = .ok t ∧ readTerms pieces = .ok us ∧ ts = t :: us := by
  rw [readTerms]
  constructor
  · intro h
    split at h
    · cases h
    · rename_i t ht
      split at h
      · cases h
      · rename_i us hus
        cases h
        exact ⟨t, us, ht, hus, rfl⟩
  · rintro ⟨t, us, ht, hus, rfl⟩
    rw [ht, hus]

theorem listTokens_eq (ts : List Term) : listTokens ts = [","].intercalate (ts.map tokens) := by
  induction ts with
  | nil => rfl
  | cons t ts ih =>
    cases ts with
    | nil => simp [listTokens]
    | cons u us =>
      change tokens t ++ "," :: listTokens (u :: us) = _
      rw [ih]
      simp

theorem tokens_ne_nil (t : Term) : t.tokens ≠ [] := by
  cases t <;> exact List.cons_ne_nil _ _

/-- The first token of a term is a name. -/
theorem exists_tokens (h : t.wellNamed Token.isName = true) :
    ∃ (x : Token) (rest : List Token), t.tokens = x :: rest ∧ x.isName = true := by
  cases t using head_induction with
  | var x =>
    rw [wellNamed, Bool.and_eq_true] at h
    exact ⟨x, [], rfl, h.1⟩
  | empty => exact ⟨"empty", [], rfl, by decide⟩
  | head t f hf => exact ⟨f, _, tokens_of_head? hf, name_of_head? (by decide) hf h⟩

theorem balanced_listTokens {P : Token → Prop} (h : ∀ t ∈ ts, Balanced P t.tokens) :
    Balanced (fun _ => True) (listTokens ts) := by
  induction ts with
  | nil => exact .nil
  | cons t ts ih =>
    obtain ⟨ht, hts⟩ := List.forall_mem_cons.1 h
    have ht := ht.imp fun _ _ => trivial
    cases ts with
    | nil => exact ht
    | cons u us => exact ht.append (.token trivial (by decide) (by decide) (ih hts))

/-- Outside parentheses a term has names only. -/
theorem balanced_tokens (h : t.wellNamed Token.isName = true) :
    Balanced (Token.isName · = true) t.tokens := by
  induction t using head_induction with
  | var x =>
    rw [wellNamed, Bool.and_eq_true] at h
    exact .token h.1 (Token.ne_of_isName h.1 (by decide)) (Token.ne_of_isName h.1 (by decide)) .nil
  | empty => exact .token (by decide) (by decide) (by decide) .nil
  | head t f hf ih =>
    have hname := name_of_head? (by decide) hf h
    have children := ((wellNamed_of_head? hf).1 h).1
    rw [tokens_of_head? hf]
    exact balanced_applied hname hname (balanced_listTokens fun c hc => ih c hc (children c hc))

theorem readArguments_listTokens (h : ∀ t ∈ ts, t.wellNamed Token.isName = true) :
    readArguments f (listTokens ts ++ [")"]) = .ok (ts.map tokens) := by
  have balanced (t : Term) (ht : t ∈ ts) := balanced_tokens (h t ht)
  rw [readArguments, cutGroup_of_balanced (balanced_listTokens balanced)]
  cases ts with
  | nil => rfl
  | cons t us =>
    have pieces : cutCommas (listTokens (t :: us)) = (t :: us).map tokens := by
      rw [listTokens_eq]
      refine cutCommas_of_balanced (List.cons_ne_nil _ _) (List.forall_mem_map.2 fun u hu => ?_)
      exact (balanced u hu).imp fun x hx => Token.ne_of_isName hx (by decide)
    have filled : ((t :: us).map tokens).any (·.isEmpty) = false := by
      simp [tokens_ne_nil]
    split
    · rename_i he; cases he
    · rename_i he; cases he
    · rename_i he
      have : listTokens (t :: us) = [] := by simpa using he
      rw [this] at pieces
      have := tokens_ne_nil t
      simp_all [cutCommas, cutCommasFrom]
    · rename_i he
      cases he
      dsimp only
      rw [pieces, filled]
      rfl

theorem eq_of_readArguments {rest : List Token} {pieces : List (List Token)}
    (h : readArguments f rest = .ok pieces) : rest = [","].intercalate pieces ++ [")"] := by
  unfold readArguments at h
  split at h
  · cases h
  · cases h
  · rename_i hg
    obtain ⟨t, ht, rfl⟩ := eq_of_cutBy hg
    cases h
    simpa using ht
  · rename_i inner _ hg
    obtain ⟨t, ht, rfl⟩ := eq_of_cutBy hg
    dsimp only at h
    split at h
    · cases h
    · cases h
      rw [intercalate_cutCommas]
      simpa using ht

theorem readTerms_map (h : ∀ t ∈ ts, readTerm t.tokens = .ok t) :
    readTerms (ts.map tokens) = .ok ts := by
  induction ts with
  | nil => rw [List.map_nil, readTerms]
  | cons t ts ih =>
    obtain ⟨ht, hts⟩ := List.forall_mem_cons.1 h
    exact readTerms_cons_eq_ok.2 ⟨t, ts, ht, ih hts, rfl⟩

theorem readTerm_tokens (h : t.wellNamed Token.isName = true) : readTerm t.tokens = .ok t := by
  induction t using head_induction with
  | var x =>
    rw [wellNamed, Bool.and_eq_true, bne_iff_ne] at h
    exact readTerm_eq_ok.2 (.inl ⟨x, h.1, rfl, (if_neg h.2).symm⟩)
  | empty => exact readTerm_eq_ok.2 (.inl ⟨"empty", by decide, rfl, rfl⟩)
  | head t f hf ih =>
    obtain ⟨children, app⟩ := (wellNamed_of_head? hf).1 h
    refine readTerm_eq_ok.2 (.inr ⟨f, _, _, t.children, name_of_head? (by decide) hf h, tokens_of_head? hf,
      readArguments_listTokens children, readTerms_map fun c hc => ih c hc (children c hc), ?_⟩)
    exact applyName_eq_ok.2 ⟨hf, rfl, fun ht => (app ht).2⟩

theorem tokens_of_readTerms {pieces : List (List Token)}
    (ih : ∀ p ∈ pieces, ∀ t, readTerm p = .ok t → t.wellNamed Token.isName = true ∧ p = t.tokens)
    (h : readTerms pieces = .ok ts) :
    (∀ t ∈ ts, t.wellNamed Token.isName = true) ∧ pieces = ts.map tokens := by
  induction pieces generalizing ts with
  | nil =>
    rw [readTerms] at h
    cases h
    exact ⟨fun _ h => (List.not_mem_nil h).elim, rfl⟩
  | cons p pieces ihp =>
    obtain ⟨hp, hps⟩ := List.forall_mem_cons.1 ih
    obtain ⟨t, us, ht, hus, rfl⟩ := readTerms_cons_eq_ok.1 h
    obtain ⟨named, rfl⟩ := hp t ht
    obtain ⟨all, rfl⟩ := ihp hps hus
    exact ⟨List.forall_mem_cons.2 ⟨named, all⟩, rfl⟩

theorem tokens_of_readTerm {tokens : List Token} (h : readTerm tokens = .ok t) :
    t.wellNamed Token.isName = true ∧ tokens = t.tokens := by
  -- By the number of tokens: the arguments are read from pieces of the list.
  induction hn : tokens.length using Nat.strongRecOn generalizing tokens t with
  | ind n ih =>
    subst hn
    rcases readTerm_eq_ok.1 h with ⟨x, hx, rfl, rfl⟩ | ⟨f, rest, pieces, args, hf, rfl, hp, ha, happ⟩
    · split
      · rename_i he
        exact ⟨rfl, by rw [he]; rfl⟩
      · rename_i he
        exact ⟨by simp [wellNamed, hx, he], rfl⟩
    · have shorter (p : List Token) (hmem : p ∈ pieces) : p.length < (f :: "(" :: rest).length := by
        have whole := length_readArguments hp
        have part := (List.sublist_flatten_of_mem hmem).length_le
        simp only [List.length_cons]
        omega
      obtain ⟨hargs, rfl⟩ := tokens_of_readTerms (fun p hmem t ht => ih _ (shorter p hmem) ht rfl) ha
      obtain ⟨hh, rfl, happ⟩ := applyName_eq_ok.1 happ
      refine ⟨(wellNamed_of_head? hh).2 ⟨hargs, fun ht => ⟨hf, happ ht⟩⟩, ?_⟩
      rw [tokens_of_head? hh, eq_of_readArguments hp, listTokens_eq]
      rfl

/-- **A term is read exactly from its tokens**, if names are where names are due. -/
theorem readTerm_iff {tokens : List Token} :
    readTerm tokens = .ok t ↔ t.wellNamed Token.isName = true ∧ tokens = t.tokens :=
  ⟨tokens_of_readTerm, fun ⟨h, ht⟩ => ht ▸ readTerm_tokens h⟩

theorem readTerms_iff {pieces : List (List Token)} :
    readTerms pieces = .ok ts ↔
      (∀ t ∈ ts, t.wellNamed Token.isName = true) ∧ pieces = ts.map tokens :=
  ⟨tokens_of_readTerms fun _ _ _ => tokens_of_readTerm,
    fun ⟨h, hp⟩ => hp ▸ readTerms_map fun t ht => readTerm_tokens (h t ht)⟩

end Term

end SetSequent
