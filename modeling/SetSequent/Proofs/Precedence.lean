import SetSequent.Proofs.Grammar

/-!
# The reader accepts the grammar

The reader has no grammar: it counts parentheses and cuts at the loosest connective it finds. A phrase is
cut where it was put together, because outside parentheses, and before a quantifier at its end, it has no
connective that is looser than its level. Conversely the level of what is left and right of a cut is
read off from the cuts that were not made.

* `Level.Admits`, `Phrase.exposes_tokens` — what stands outside parentheses in a phrase.
* `cutConnective_eq_some` — the cut is made at a connective if no looser one is found.
* `Phrase.reads_tokens` — the tokens of a phrase are read as its formula.
* `Derives.left_of_cut`, `Derives.right_of_cut`, `Derives.of_reads` — what is read is a phrase.
* `Phrase.eq_of_tokens` — no two phrases have the same tokens.
* `readFormula_iff_sentence` — the reader accepts the grammar, which is unambiguous, and nothing else.
-/

namespace SetSequent

/-! ## Levels -/

namespace Connective

/-- The place of a connective among the four, the loosest first. -/
def rank : Connective → Nat
  | .iff => 0
  | .implies => 1
  | .or => 2
  | .and => 3

theorem rank_inj {c d : Connective} (h : c.rank = d.rank) : c = d := by
  cases c <;> cases d <;> first | rfl | cases h

theorem word_inj {c d : Connective} (h : c.word = d.word) : c = d := by
  cases c <;> cases d <;> first | rfl | exact absurd h (by decide)

theorem word_ne (c : Connective) : c.word ≠ "(" ∧ c.word ≠ ")" ∧ c.word ≠ "forall" := by
  cases c <;> decide

end Connective

namespace Level

/-- The number of connectives that are looser than the level. -/
def rank : Level → Nat
  | .of c => c.rank
  | .unary => 4

theorem rank_tighter (c : Connective) : c.tighter.rank = c.rank + 1 := by
  cases c <;> rfl

theorem rank_lt_tighter (c : Connective) : c.rank < c.tighter.rank := by
  rw [rank_tighter]
  omega

theorem rank_le_unary (k : Level) : k.rank ≤ Level.unary.rank := by
  cases k with
  | of c => cases c <;> decide
  | unary => exact Nat.le_refl _

theorem rank_inj {j k : Level} (h : j.rank = k.rank) : j = k := by
  have below (c : Connective) : c.rank ≠ 4 := by cases c <;> decide
  cases j with
  | unary =>
    cases k with
    | unary => rfl
    | of d => exact absurd h.symm (below d)
  | of c =>
    cases k with
    | unary => exact absurd h (below c)
    | of d => exact congrArg Level.of (Connective.rank_inj h)

/-- The token is no quantifier and no connective that is looser than the level. -/
def Admits (k : Level) (t : Token) : Prop :=
  t ≠ "forall" ∧ ∀ c : Connective, c.rank < k.rank → t ≠ c.word

variable {j k : Level} {t : Token}

theorem admits_of_isInner (h : t.IsInner) : k.Admits t := ⟨h.1, fun c _ => h.2 c⟩

theorem Admits.loosen (h : k.Admits t) (hj : j.rank ≤ k.rank) : j.Admits t := by
  refine ⟨h.1, fun c hc => h.2 c ?_⟩
  omega

theorem Admits.of_tighter {c : Connective} (h : c.tighter.Admits t) : (Level.of c).Admits t :=
  h.loosen (Nat.le_of_lt (rank_lt_tighter c))

theorem Admits.ne_word {c : Connective} (h : k.Admits t) (hc : c.rank < k.rank) :
    t ≠ c.word ∧ t ≠ "forall" :=
  ⟨h.2 c hc, h.1⟩

end Level

/-! ## What stands outside parentheses -/

/-- The tokens outside parentheses satisfy `P`, up to the quantifier if there is one at the end. -/
def Exposes (P : Token → Prop) : Ending → List Token → Prop
  | .closed, ts => Balanced P ts
  | .quantified, ts => ∃ front back, ts = front ++ "forall" :: back ∧ Balanced P front

section

variable {P Q : Token → Prop} {e : Ending} {ts l r : List Token} {word : Token}

theorem Exposes.imp (h : Exposes P e ts) (hq : ∀ t, P t → Q t) : Exposes Q e ts := by
  cases e with
  | closed => exact Balanced.imp h hq
  | quantified =>
    obtain ⟨front, back, rfl, hf⟩ := h
    exact ⟨front, back, rfl, hf.imp hq⟩

theorem Exposes.prepend (hl : Balanced P l) (hr : Exposes P e r) : Exposes P e (l ++ r) := by
  cases e with
  | closed => exact hl.append hr
  | quantified =>
    obtain ⟨front, back, rfl, hf⟩ := hr
    refine ⟨l ++ front, back, ?_, hl.append hf⟩
    rw [List.append_assoc]

/-- No word is found behind a quantifier. -/
theorem cutAt_quantified {front back : List Token} (hf : Balanced P front) (hw : word ≠ "(")
    (hp : ∀ t, P t → t ≠ word ∧ t ≠ "forall") : cutAt word (front ++ "forall" :: back) = none := by
  have visible (t : Token) (ht : P t ∨ t = "(") :
      decide (t = "forall") = false ∧ decide (t = word) = false := by
    rcases ht with ht | rfl
    · simpa using (hp t ht).symm
    · simpa using hw.symm
  have pass : cutAt word (front ++ "forall" :: back) =
      (cutAt word ("forall" :: back)).map fun p => (front ++ p.1, p.2) :=
    cutBy_balanced hf 0 fun _ => visible
  rw [pass]
  simp [cutAt, cutBy]

theorem cutAt_of_exposes (h : Exposes P e ts) (hw : word ≠ "(")
    (hp : ∀ t, P t → t ≠ word ∧ t ≠ "forall") : cutAt word ts = none := by
  cases e with
  | closed => exact cutAt_none_of_balanced h hw hp
  | quantified =>
    obtain ⟨front, back, rfl, hf⟩ := h
    exact cutAt_quantified hf hw hp

end

namespace Binders

/-- The tokens of names that are read before a dot. -/
def ofBoundNames {tokens : List Token} (nonempty : boundNames tokens ≠ [])
    (names : ∀ x ∈ boundNames tokens, x.isName = true) : Binders where
  tokens := tokens
  each := fun t ht => by
    by_cases hc : t = ","
    · exact .inl hc
    · exact .inr (names t (List.mem_filter.2 ⟨ht, decide_eq_true hc⟩))
  named := by
    obtain ⟨x, hx⟩ := List.exists_mem_of_ne_nil _ nonempty
    exact ⟨x, (List.mem_filter.1 hx).1, names x hx⟩

variable (b : Binders)

theorem boundNames_ne_nil : boundNames b.tokens ≠ [] := by
  obtain ⟨x, hx, hn⟩ := b.named
  refine List.ne_nil_of_mem (List.mem_filter.2 ⟨hx, decide_eq_true ?_⟩)
  exact Token.ne_of_isName hn (by decide)

theorem isName_of_mem : ∀ x ∈ boundNames b.tokens, x.isName = true := by
  intro x hx
  obtain ⟨hx, hc⟩ := List.mem_filter.1 hx
  exact (b.each x hx).resolve_left (of_decide_eq_true hc)

theorem balanced : Balanced (fun _ => True) b.tokens := by
  have plain (ts : List Token) (h : ∀ t ∈ ts, t = "," ∨ t.isName = true) :
      Balanced (fun _ => True) ts := by
    induction ts with
    | nil => exact .nil
    | cons t ts ih =>
      obtain ⟨ht, hts⟩ := List.forall_mem_cons.1 h
      rcases ht with rfl | ht
      · exact .token trivial (by decide) (by decide) (ih hts)
      · exact .token trivial (Token.ne_of_isName ht (by decide)) (Token.ne_of_isName ht (by decide))
          (ih hts)
  exact plain b.tokens b.each

/-- The first dot is the one after the names. -/
theorem cutDot_tokens (body : List Token) :
    cutDot (b.tokens ++ "." :: body) = some (b.tokens, body) := by
  have skip : ∀ t ∈ b.tokens, decide (t ≠ ".") = true := by
    intro t ht
    apply decide_eq_true
    rcases b.each t ht with rfl | hn
    · decide
    · exact Token.ne_of_isName hn (by decide)
  rw [cutDot, List.dropWhile_append_of_pos skip, List.takeWhile_append_of_pos skip]
  simp

end Binders

namespace Phrase

variable {k : Level} {e : Ending}

theorem balanced (p : Phrase k e) : Balanced (fun _ => True) p.tokens := by
  induction p with
  | top | bot => exact .token trivial (by decide) (by decide) .nil
  | atom derives => exact (Atom.balanced_of_derives derives).imp fun _ _ => trivial
  | group p ih => exact ih.parenthesised
  | not p ih => exact .token trivial (by decide) (by decide) ih
  | all b p ih =>
    refine .token trivial (by decide) (by decide) (b.balanced.append ?_)
    exact .token trivial (by decide) (by decide) ih
  | tight p ih => exact ih
  | @connect c e l r ihl ihr => exact balanced_between c ihl ihr

/-- **Outside parentheses, and before a quantifier at its end, a phrase has no quantifier and no
connective that is looser than its level.** -/
theorem exposes_tokens (p : Phrase k e) : Exposes k.Admits e p.tokens := by
  have plain {t : Token} (ht : t ∈ ["true", "false", "not", "=", "in"]) : Level.unary.Admits t :=
    Level.admits_of_isInner (Token.isInner_of_mem ht)
  induction p with
  | top | bot => exact .token (plain (by decide)) (by decide) (by decide) .nil
  | atom derives =>
    refine (Atom.balanced_of_derives derives).imp fun t ht => ?_
    rcases ht with ht | ht
    · exact Level.admits_of_isInner (Token.isInner_of_isName ht)
    · exact plain (List.mem_append_right ["true", "false", "not"] ht)
  | group p => exact p.balanced.parenthesised
  | not p ih =>
    have word : Balanced Level.unary.Admits ["not"] :=
      .token (plain (by decide)) (by decide) (by decide) .nil
    exact Exposes.prepend word ih
  | all b p => exact ⟨[], b.tokens ++ "." :: p.tokens, rfl, .nil⟩
  | tight p ih => exact ih.imp fun _ ht => ht.of_tighter
  | @connect c e l r ihl ihr =>
    have left : Balanced (Level.of c).Admits l.tokens := Balanced.imp ihl fun _ ht => ht.of_tighter
    have word : Balanced (Level.of c).Admits [c.word] := by
      refine .token ⟨c.word_ne.2.2, fun d hd hw => ?_⟩ c.word_ne.1 c.word_ne.2.1 .nil
      rw [Connective.word_inj hw] at hd
      exact Nat.lt_irrefl _ hd
    exact Exposes.prepend left (Exposes.prepend word ihr)

end Phrase

/-! ## Cuts at the loosest connective -/

section

variable {ts l r : List Token} {c : Connective}

theorem cutConnective_eq_none : cutConnective ts = none ↔ ∀ c : Connective, cutAt c.word ts = none := by
  rw [cutConnective, List.findSome?_eq_none_iff]
  constructor
  · intro h c
    have hc := h c (by cases c <;> decide)
    rwa [Option.map_eq_none_iff] at hc
  · intro h c _
    rw [h c]
    rfl

theorem cutAt_of_cutConnective (h : cutConnective ts = some (c, l, r)) :
    cutAt c.word ts = some (l, r) ∧ ∀ d : Connective, d.rank < c.rank → cutAt d.word ts = none := by
  obtain ⟨looser, d, tighter, hl, hd, hn⟩ := List.findSome?_eq_some_iff.1 h
  obtain ⟨p, hp, he⟩ := Option.map_eq_some_iff.1 hd
  cases he
  refine ⟨hp, fun d hd => ?_⟩
  -- The connectives are tried in the order of their ranks.
  have sorted : (looser ++ c :: tighter).Pairwise (·.rank < ·.rank) := by
    rw [← hl]
    decide
  have hm : d ∈ looser ++ c :: tighter := by
    rw [← hl]
    cases d <;> decide
  rcases List.mem_append.1 hm with hm | hm
  · simpa using hn d hm
  · have after := (List.pairwise_cons.1 (List.pairwise_append.1 sorted).2.1).1
    rcases List.mem_cons.1 hm with rfl | hm
    · omega
    · have := after d hm
      omega

/-- **The cut is made at a connective if no looser one is found.** -/
theorem cutConnective_eq_some :
    cutConnective ts = some (c, l, r) ↔
      cutAt c.word ts = some (l, r) ∧ ∀ d : Connective, d.rank < c.rank → cutAt d.word ts = none := by
  refine ⟨cutAt_of_cutConnective, fun ⟨hc, hn⟩ => ?_⟩
  cases h : cutConnective ts with
  | none =>
    rw [cutConnective_eq_none.1 h c] at hc
    cases hc
  | some cut =>
    obtain ⟨d, l', r'⟩ := cut
    obtain ⟨hd, hn'⟩ := cutAt_of_cutConnective h
    rcases Nat.lt_trichotomy c.rank d.rank with hlt | heq | hlt
    · rw [hn' c hlt] at hc
      cases hc
    · obtain rfl := Connective.rank_inj heq
      rw [hc] at hd
      cases hd
      rfl
    · rw [hn d hlt] at hd
      cases hd

end

/-! ## The tokens of a phrase are read -/

namespace Phrase

variable {k : Level} {e : Ending} {c : Connective}

theorem cutAt_tokens (p : Phrase k e) (h : c.rank < k.rank) : cutAt c.word p.tokens = none :=
  cutAt_of_exposes p.exposes_tokens c.word_ne.1 fun _ ht => ht.ne_word h

/-- The left operand of a connective ends where the connective is found. -/
theorem cutAt_left (l : Phrase k .closed) (h : c.rank < k.rank) (r : List Token) :
    cutAt c.word (l.tokens ++ c.word :: r) = some (l.tokens, r) :=
  cutAt_of_balanced l.exposes_tokens c.word_ne.1 c.word_ne.2.2 fun _ ht => ht.ne_word h

theorem cutConnective_unary (p : Phrase .unary e) : cutConnective p.tokens = none :=
  cutConnective_eq_none.2 fun c => p.cutAt_tokens (by cases c <;> decide)

theorem cutConnective_connect (l : Phrase c.tighter .closed) (r : Phrase (.of c) e) :
    cutConnective (connect l r).tokens = some (c, l.tokens, r.tokens) :=
  cutConnective_eq_some.2 ⟨l.cutAt_left (Level.rank_lt_tighter c) r.tokens,
    fun _ hd => (connect l r).cutAt_tokens hd⟩

theorem first_ne_forall (p : Phrase k .closed) {x : Token} {rest : List Token}
    (h : p.tokens = x :: rest) : x ≠ "forall" := by
  have hb : Balanced k.Admits (x :: rest) := h ▸ p.exposes_tokens
  cases hb with
  | token admits => exact admits.1
  | group => decide

/-- **The tokens of a phrase are read as its formula.** -/
theorem reads_tokens (p : Phrase k e) : Reads p.tokens p.formula := by
  induction p with
  | top => exact .top
  | bot => exact .bot
  | atom derives =>
    have no_cut := (atom derives).cutConnective_unary
    obtain ⟨x, rest, rfl, -⟩ := Atom.exists_name_of_derives derives
    exact .atom no_cut (Atom.derives_iff.1 derives)
  | group p ih => exact .parenthesised p.balanced ih
  | not p ih => exact .not (not p).cutConnective_unary ih
  | all b p ih => exact .all (b.cutDot_tokens _) b.boundNames_ne_nil b.isName_of_mem ih
  | tight p ih => exact ih
  | @connect c e l r ihl ihr =>
    have cut := cutConnective_connect l r
    obtain ⟨x, rest, hx⟩ := List.exists_cons_of_ne_nil ihl.ne_nil
    have first := l.first_ne_forall hx
    rw [tokens, hx, List.cons_append] at cut ⊢
    refine .connect first cut ?_ ihr
    rwa [← hx]

end Phrase

/-! ## What is read is a phrase -/

/-- The tokens are those of a phrase that means the formula. -/
def Derives (k : Level) (e : Ending) (ts : List Token) (f : Formula) : Prop :=
  ∃ p : Phrase k e, p.tokens = ts ∧ p.formula = f

namespace Derives

variable {j k : Level} {e : Ending} {ts l r : List Token} {f g : Formula} {c : Connective}

theorem tight (h : Derives c.tighter e ts f) : Derives (.of c) e ts f := by
  obtain ⟨p, rfl, rfl⟩ := h
  exact ⟨p.tight, rfl, rfl⟩

theorem connect (hl : Derives c.tighter .closed l f) (hr : Derives (.of c) e r g) :
    Derives (.of c) e (l ++ c.word :: r) (.connect c f g) := by
  obtain ⟨p, rfl, rfl⟩ := hl
  obtain ⟨q, rfl, rfl⟩ := hr
  exact ⟨.connect p q, rfl, rfl⟩

/-- A phrase may stand where a looser one may. -/
theorem loosen (h : Derives k e ts f) (hj : j.rank ≤ k.rank) : Derives j e ts f := by
  -- By the number of levels between the two, one `tight` for each.
  induction hn : k.rank - j.rank generalizing j with
  | zero =>
    obtain rfl : j = k := Level.rank_inj (by omega)
    exact h
  | succ n ih =>
    cases j with
    | unary =>
      have := k.rank_le_unary
      omega
    | of c =>
      have next := Level.rank_tighter c
      have here : (Level.of c).rank = c.rank := rfl
      apply tight
      apply ih
      · omega
      · omega

/-- A phrase is unary, or it has a connective that is not looser than its level. -/
theorem unary_or_connect (h : Derives k e ts f) :
    Derives .unary e ts f ∨ ∃ (c : Connective) (l r : List Token) (f₁ f₂ : Formula),
      k.rank ≤ c.rank ∧ Derives c.tighter .closed l f₁ ∧ Derives (.of c) e r f₂ ∧
        ts = l ++ c.word :: r ∧ f = .connect c f₁ f₂ := by
  obtain ⟨p, rfl, rfl⟩ := h
  induction p with
  | top | bot | atom | group | not | all => exact .inl ⟨_, rfl, rfl⟩
  | @tight c e p ih =>
    refine ih.imp_right ?_
    rintro ⟨d, l, r, f₁, f₂, hd, h⟩
    have := Level.rank_lt_tighter c
    exact ⟨d, l, r, f₁, f₂, by show c.rank ≤ d.rank; omega, h⟩
  | @connect c e l r =>
    exact .inr ⟨c, l.tokens, r.tokens, l.formula, r.formula, Nat.le_refl _, ⟨l, rfl, rfl⟩,
      ⟨r, rfl, rfl⟩, rfl, rfl⟩

theorem exposes_tokens (h : Derives k e ts f) : Exposes k.Admits e ts := by
  obtain ⟨p, rfl, -⟩ := h
  exact p.exposes_tokens

/-- Outside parentheses a phrase that is not quantified has no word of a looser connective. -/
theorem balanced_ne_word (h : Derives k .closed ts f) (hc : c.rank < k.rank) :
    Balanced (fun t => t ≠ c.word ∧ t ≠ "forall") ts :=
  Balanced.imp h.exposes_tokens fun _ ht => ht.ne_word hc

/-- **What is left of a cut binds tighter and does not end with a quantifier.** -/
theorem left_of_cut (h : Derives k e l f) (hc : cutAt c.word (l ++ c.word :: r) = some (l, r))
    (hn : ∀ d : Connective, d.rank < c.rank → cutAt d.word (l ++ c.word :: r) = none) :
    Derives c.tighter .closed l f := by
  have tighter : Derives c.tighter e l f := by
    rcases h.unary_or_connect with h | ⟨d, l₁, r₁, f₁, f₂, -, h₁, h₂, rfl, rfl⟩
    · exact h.loosen (Level.rank_le_unary _)
    · have inside := cutAt_of_balanced (b := r₁ ++ c.word :: r)
        (h₁.balanced_ne_word (Level.rank_lt_tighter d)) d.word_ne.1 d.word_ne.2.2 fun _ ht => ht
      have whole : l₁ ++ d.word :: (r₁ ++ c.word :: r) = (l₁ ++ d.word :: r₁) ++ c.word :: r := by
        simp
      rw [whole] at inside
      rcases Nat.lt_trichotomy d.rank c.rank with hlt | heq | hlt
      · rw [hn d hlt] at inside
        cases inside
      · -- The cut would be made at the connective inside, which comes first.
        obtain rfl := Connective.rank_inj heq
        rw [hc] at inside
        have := congrArg List.length (Prod.mk.inj (Option.some.inj inside)).1
        simp at this
      · refine (h₁.connect h₂).loosen ?_
        rw [Level.rank_tighter]
        exact hlt
  cases e with
  | closed => exact tighter
  | quantified =>
    obtain ⟨front, back, rfl, hf⟩ := tighter.exposes_tokens
    have blocked : cutAt c.word (front ++ "forall" :: (back ++ c.word :: r)) = none :=
      cutAt_quantified hf c.word_ne.1 fun _ ht => ht.ne_word (Level.rank_lt_tighter c)
    rw [List.append_assoc, List.cons_append, blocked] at hc
    cases hc

/-- **What is right of a cut binds no looser.** -/
theorem right_of_cut (hl : Derives c.tighter .closed l f) (h : Derives k e r g)
    (hn : ∀ d : Connective, d.rank < c.rank → cutAt d.word (l ++ c.word :: r) = none) :
    Derives (.of c) e r g := by
  rcases h.unary_or_connect with h | ⟨d, l₁, r₁, f₁, f₂, -, h₁, h₂, rfl, rfl⟩
  · exact h.loosen (Level.rank_le_unary _)
  · by_cases hd : c.rank ≤ d.rank
    · exact (h₁.connect h₂).loosen hd
    · -- A looser connective on the right would be found, past the one of the cut.
      have hd : d.rank < c.rank := Nat.lt_of_not_le hd
      have word : c.word ≠ d.word := by
        intro he
        rw [Connective.word_inj he] at hd
        exact Nat.lt_irrefl _ hd
      have left := hl.balanced_ne_word (Nat.lt_trans hd (Level.rank_lt_tighter c))
      have right := h₁.balanced_ne_word (Level.rank_lt_tighter d)
      have found := cutAt_of_balanced (b := r₁)
        (left.append (.token ⟨word, c.word_ne.2.2⟩ c.word_ne.1 c.word_ne.2.1 right))
        d.word_ne.1 d.word_ne.2.2 fun _ ht => ht
      rw [List.append_assoc, List.cons_append, hn d hd] at found
      cases found

/-- A negation without a cut is one of a unary phrase. -/
theorem unary_of_not (h : Derives k e ts f) (hn : cutConnective ("not" :: ts) = none) :
    Derives .unary e ts f := by
  rcases h.unary_or_connect with h | ⟨c, l, r, f₁, f₂, -, h₁, -, rfl, -⟩
  · exact h
  · have negation : "not" ≠ c.word ∧ "not" ≠ "forall" := by cases c <;> decide
    have left := h₁.balanced_ne_word (Level.rank_lt_tighter c)
    have found := cutAt_of_balanced (b := r) (.token negation (by decide) (by decide) left)
      c.word_ne.1 c.word_ne.2.2 fun _ ht => ht
    rw [List.cons_append, cutConnective_eq_none.1 hn c] at found
    cases found

/-- **What is read is derived.** -/
theorem of_reads (h : Reads ts f) : ∃ e, Derives (.of .iff) e ts f := by
  have alone {e : Ending} {ts : List Token} {f : Formula} (h : Derives .unary e ts f) :
      ∃ e, Derives (.of .iff) e ts f :=
    ⟨e, h.loosen (Level.rank_le_unary _)⟩
  induction h with
  | all dot some_name names scope ih =>
    obtain ⟨e, p, rfl, rfl⟩ := ih
    obtain rfl := eq_of_cutDot dot
    exact alone ⟨.all (.ofBoundNames some_name names) p, rfl, rfl⟩
  | connect not_all cut left right ihl ihr =>
    obtain ⟨hc, hn⟩ := cutConnective_eq_some.1 cut
    obtain ⟨e₁, h₁⟩ := ihl
    obtain ⟨e₂, h₂⟩ := ihr
    have whole := eq_of_cutAt hc
    rw [whole] at hc hn ⊢
    have hl := h₁.left_of_cut hc hn
    have hr := hl.right_of_cut h₂ hn
    exact ⟨e₂, (hl.connect hr).loosen (Nat.zero_le _)⟩
  | not no_cut body ih =>
    obtain ⟨e, h⟩ := ih
    obtain ⟨p, rfl, rfl⟩ := h.unary_of_not no_cut
    exact alone ⟨.not p, rfl, rfl⟩
  | top => exact alone ⟨.top, rfl, rfl⟩
  | bot => exact alone ⟨.bot, rfl, rfl⟩
  | group no_cut close inside ih =>
    obtain ⟨e, p, rfl, rfl⟩ := ih
    obtain ⟨t, ht, rfl⟩ := eq_of_cutBy close
    rw [of_decide_eq_true ht]
    exact alone ⟨.group p, rfl, rfl⟩
  | atom no_cut read => exact alone ⟨.atom (Atom.derives_iff.2 read), rfl, rfl⟩

end Derives

/-! ## No two phrases have the same tokens -/

namespace Phrase

variable {k : Level} {e e' : Ending}

/-- The token that a unary phrase starts with, unless it is a name. -/
def opener : Phrase .unary e → Option Token
  | top => some "true"
  | bot => some "false"
  | atom _ => none
  | group _ => some "("
  | not _ => some "not"
  | all .. => some "forall"

theorem opener_eq (p : Phrase .unary e) : p.opener = p.tokens.head?.filter (!·.isName) := by
  cases p with
  | atom derives =>
    obtain ⟨x, rest, rfl, hx⟩ := Atom.exists_name_of_derives derives
    simp [opener, tokens, Option.filter, hx]
  | top | bot => decide
  | group | not | all => rfl

/-- **A phrase is given by its level and its tokens.** -/
theorem eq_of_tokens (p : Phrase k e) (q : Phrase k e') (h : p.tokens = q.tokens) :
    (⟨e, p⟩ : (e : Ending) × Phrase k e) = ⟨e', q⟩ := by
  have openers {e e' : Ending} {p : Phrase .unary e} {q : Phrase .unary e'}
      (h : p.tokens = q.tokens) : p.opener = q.opener := by
    rw [opener_eq, opener_eq, h]
  -- A connective is found in the tokens of what it connects, and not in those of a tighter phrase.
  have apart {c : Connective} {e e' : Ending} {p : Phrase c.tighter e} {l : Phrase c.tighter .closed}
      {r : Phrase (.of c) e'} (h : p.tokens = (connect l r).tokens) : False := by
    have found := l.cutAt_left (Level.rank_lt_tighter c) r.tokens
    have missed := p.cutAt_tokens (Level.rank_lt_tighter c)
    rw [h, tokens, found] at missed
    cases missed
  induction p generalizing e' with
  | top =>
    have ho := openers h
    cases q with
    | top => rfl
    | bot | atom | group | not | all => simp [opener] at ho
  | bot =>
    have ho := openers h
    cases q with
    | bot => rfl
    | top | atom | group | not | all => simp [opener] at ho
  | atom derives =>
    have ho := openers h
    cases q with
    | atom derives' =>
      obtain rfl := h
      obtain ⟨x, rest, rfl, -⟩ := Atom.exists_name_of_derives derives
      have same := (Atom.derives_iff.1 derives).symm.trans (Atom.derives_iff.1 derives')
      cases same
      rfl
    | top | bot | group | not | all => simp [opener] at ho
  | group p ih =>
    have ho := openers h
    cases q with
    | group q =>
      have inner : p.tokens = q.tokens := by simpa [tokens] using h
      cases ih q inner
      rfl
    | top | bot | atom | not | all => simp [opener] at ho
  | not p ih =>
    have ho := openers h
    cases q with
    | not q =>
      cases ih q (List.cons.inj h).2
      rfl
    | top | bot | atom | group | all => simp [opener] at ho
  | all b p ih =>
    have ho := openers h
    cases q with
    | all b' q =>
      have dot := b.cutDot_tokens p.tokens
      rw [(List.cons.inj h).2, b'.cutDot_tokens] at dot
      obtain ⟨hb, hp⟩ := Prod.mk.inj (Option.some.inj dot)
      cases b
      cases b'
      cases hb
      cases ih q hp.symm
      rfl
    | top | bot | atom | group | not => simp [opener] at ho
  | tight p ih =>
    cases q with
    | tight q =>
      cases ih q h
      rfl
    | connect l r => exact (apart h).elim
  | @connect c e l r ihl ihr =>
    cases q with
    | tight q => exact (apart h.symm).elim
    | connect l' r' =>
      have cut := l.cutAt_left (Level.rank_lt_tighter c) r.tokens
      have same : l.tokens ++ c.word :: r.tokens = l'.tokens ++ c.word :: r'.tokens := h
      rw [same, l'.cutAt_left (Level.rank_lt_tighter c)] at cut
      obtain ⟨hl, hr⟩ := Prod.mk.inj (Option.some.inj cut)
      cases ihl l' hl.symm
      cases ihr r' hr.symm
      rfl

end Phrase

/-! ## Reading sentences -/

theorem readFormula_eq_ok_iff {ts : List Token} {f : Formula} :
    readFormula ts = .ok f ↔ ∃ p : Sentence, p.tokens = ts ∧ p.formula = f := by
  rw [readFormula_eq_ok]
  constructor
  · intro h
    obtain ⟨e, p, ht, hf⟩ := Derives.of_reads h
    exact ⟨⟨e, p⟩, ht, hf⟩
  · rintro ⟨p, rfl, rfl⟩
    exact p.phrase.reads_tokens

/-- **The reader accepts an unambiguous grammar.** A list of tokens is read as a formula exactly if it is
the list of a sentence that means the formula; no two sentences have the same tokens; and on every list
that is no sentence the reader fails with an error of its own. -/
theorem readFormula_iff_sentence (ts : List Token) :
    (∀ f, readFormula ts = .ok f ↔ ∃ p : Sentence, p.tokens = ts ∧ p.formula = f) ∧
      (∀ p q : Sentence, p.tokens = ts → q.tokens = ts → p = q) ∧
      ((∃ e, readFormula ts = .error e) ↔ ∀ p : Sentence, p.tokens ≠ ts) := by
  refine ⟨fun f => readFormula_eq_ok_iff, ?unique, ?rejected, ?error⟩
  case unique =>
    rintro ⟨e, p⟩ ⟨e', q⟩ hp hq
    cases p.eq_of_tokens q (hp.trans hq.symm)
    rfl
  case rejected =>
    rintro ⟨e, he⟩ p hp
    have accepted : readFormula ts = .ok p.formula := readFormula_eq_ok_iff.2 ⟨p, hp, rfl⟩
    rw [he] at accepted
    cases accepted
  case error =>
    intro h
    cases hr : readFormula ts with
    | error e => exact ⟨e, rfl⟩
    | ok f =>
      obtain ⟨p, hp, -⟩ := readFormula_eq_ok_iff.1 hr
      exact absurd hp (h p)

/-- `A or not forall x, y. B iff C`: the quantifier ends the negation and takes the equivalence. -/
example :
    (readFormula ["A", "or", "not", "forall", "x", ",", "y", ".", "B", "iff", "C"]).toOption =
      some (.or (.atom (.pred "A" []))
        (.not (.all "x" (.all "y" (.iff (.atom (.pred "B" [])) (.atom (.pred "C" []))))))) := by
  decide +kernel

end SetSequent
