import SetSequent.Proofs.RoundTrip

/-!
# The grammar of formulas

What may be written, said without a reader: the productions for terms and atoms, and the phrases that
connectives, negations and quantifiers make of atoms.

* `DerivesTerm`, `DerivesArgs`, `DerivesAtom` — the tokens of terms, of arguments and of atoms.
* `Level`, `Ending` — how tightly a phrase binds, and whether something may follow it.
* `Phrase` — the syntax trees, with their `tokens` and the `formula` they mean.
* `Sentence` — a phrase that stands alone.
* `Term.tokens_of_derives`, `Atom.derives_iff` — terms and atoms are read exactly where they are derived.
-/

namespace SetSequent

/-! ## Terms and atoms -/

mutual

/-- A term is a name, or a name with terms in parentheses after it. The name `empty` stands alone, and a
constructor of sets has its number of arguments. -/
inductive DerivesTerm : List Token → Term → Prop where
  | var {x : Token} (name : x.isName = true) (nonempty : x ≠ "empty") : DerivesTerm [x] (.var x)
  | empty : DerivesTerm ["empty"] .empty
  | app {f : Token} {inner : List Token} {args : List Term} (name : f.isName = true)
      (free : f.isFunctionName = true) (derives : DerivesArgs inner args) :
      DerivesTerm (applied f inner) (.app f args)
  | singleton {inner : List Token} {e : Term} (derives : DerivesArgs inner [e]) :
      DerivesTerm (applied "singleton" inner) (.singleton e)
  | add {inner : List Token} {e s : Term} (derives : DerivesArgs inner [e, s]) :
      DerivesTerm (applied "add" inner) (.add e s)
  | remove {inner : List Token} {e s : Term} (derives : DerivesArgs inner [e, s]) :
      DerivesTerm (applied "remove" inner) (.remove e s)
  | union {inner : List Token} {s t : Term} (derives : DerivesArgs inner [s, t]) :
      DerivesTerm (applied "union" inner) (.union s t)
  | inter {inner : List Token} {s t : Term} (derives : DerivesArgs inner [s, t]) :
      DerivesTerm (applied "inter" inner) (.inter s t)
  | diff {inner : List Token} {s t : Term} (derives : DerivesArgs inner [s, t]) :
      DerivesTerm (applied "diff" inner) (.diff s t)

/-- Terms with one comma between neighbours. -/
inductive DerivesArgs : List Token → List Term → Prop where
  | nil : DerivesArgs [] []
  | one {ts : List Token} {t : Term} (derives : DerivesTerm ts t) : DerivesArgs ts [t]
  | cons {ts us : List Token} {t u : Term} {args : List Term} (derives : DerivesTerm ts t)
      (rest : DerivesArgs us (u :: args)) : DerivesArgs (ts ++ "," :: us) (t :: u :: args)

end

/-- An atom is an equation, a membership, a capitalised name, or a capitalised name with terms in
parentheses after it. A reserved name has its number of arguments there. -/
inductive DerivesAtom : List Token → Atom → Prop where
  | eq {l r : List Token} {s t : Term} (left : DerivesTerm l s) (right : DerivesTerm r t) :
      DerivesAtom (l ++ "=" :: r) (.eq s t)
  | mem {l r : List Token} {s t : Term} (left : DerivesTerm l s) (right : DerivesTerm r t) :
      DerivesAtom (l ++ "in" :: r) (.mem s t)
  | bare {p : Token} (name : p.isName = true) (capital : p.isCapitalised = true) :
      DerivesAtom [p] (.pred p [])
  | pred {p : Token} {inner : List Token} {args : List Term} (name : p.isName = true)
      (capital : p.isCapitalised = true) (free : reservedPredicates.lookup p = none)
      (derives : DerivesArgs inner args) : DerivesAtom (applied p inner) (.pred p args)
  | eqApplied {inner : List Token} {s t : Term} (derives : DerivesArgs inner [s, t]) :
      DerivesAtom (applied "Eq" inner) (.eq s t)
  | memApplied {inner : List Token} {s t : Term} (derives : DerivesArgs inner [s, t]) :
      DerivesAtom (applied "In" inner) (.mem s t)
  | isEmpty {inner : List Token} {s : Term} (derives : DerivesArgs inner [s]) :
      DerivesAtom (applied "Empty" inner) (.isEmpty s)
  | subset {inner : List Token} {s t : Term} (derives : DerivesArgs inner [s, t]) :
      DerivesAtom (applied "Subset" inner) (.subset s t)
  | setEq {inner : List Token} {s t : Term} (derives : DerivesArgs inner [s, t]) :
      DerivesAtom (applied "Equal" inner) (.setEq s t)

/-! ## Phrases -/

/-- How tightly a phrase binds: as the connective `c`, or tighter than all of them. -/
inductive Level where
  | of (c : Connective)
  | unary
  deriving DecidableEq

/-- The level after that of `c`. From loosest to tightest the connectives are `iff`, `implies`, `or` and
`and`. -/
def Connective.tighter : Connective → Level
  | .iff => .of .implies
  | .implies => .of .or
  | .or => .of .and
  | .and => .unary

/-- Whether a phrase ends with the scope of a quantifier, which takes everything to its right. -/
inductive Ending where
  | closed
  | quantified
  deriving DecidableEq

/-- What stands between `forall` and the dot: names, at least one, and any number of commas. -/
structure Binders where
  tokens : List Token
  each : ∀ t ∈ tokens, t = "," ∨ t.isName = true
  named : ∃ t ∈ tokens, t.isName = true

/-- The syntax trees. A connective groups to the right: its left operand binds tighter and does not end
with a quantifier, its right operand binds no looser and may end with one. -/
inductive Phrase : Level → Ending → Type where
  | top : Phrase .unary .closed
  | bot : Phrase .unary .closed
  | atom {ts : List Token} {a : Atom} (derives : DerivesAtom ts a) : Phrase .unary .closed
  | group {e : Ending} (inner : Phrase (.of .iff) e) : Phrase .unary .closed
  | not {e : Ending} (body : Phrase .unary e) : Phrase .unary e
  | all {e : Ending} (binders : Binders) (body : Phrase (.of .iff) e) : Phrase .unary .quantified
  | tight {c : Connective} {e : Ending} (phrase : Phrase c.tighter e) : Phrase (.of c) e
  | connect {c : Connective} {e : Ending} (left : Phrase c.tighter .closed)
      (right : Phrase (.of c) e) : Phrase (.of c) e

namespace Phrase

def tokens {k : Level} {e : Ending} : Phrase k e → List Token
  | top => ["true"]
  | bot => ["false"]
  | @atom ts _ _ => ts
  | group p => "(" :: (p.tokens ++ [")"])
  | not p => "not" :: p.tokens
  | all b p => "forall" :: (b.tokens ++ "." :: p.tokens)
  | tight p => p.tokens
  | @connect c _ l r => l.tokens ++ c.word :: r.tokens

def formula {k : Level} {e : Ending} : Phrase k e → Formula
  | top => .top
  | bot => .bot
  | @atom _ a _ => .atom a
  | group p => p.formula
  | not p => .not p.formula
  | all b p => (boundNames b.tokens).foldr .all p.formula
  | tight p => p.formula
  | @connect c _ l r => .connect c l.formula r.formula

end Phrase

/-- A phrase that stands alone: it may bind as loosely as any and end with a quantifier. -/
structure Sentence where
  ending : Ending
  phrase : Phrase (.of .iff) ending

namespace Sentence

def tokens (p : Sentence) : List Token := p.phrase.tokens

def formula (p : Sentence) : Formula := p.phrase.formula

end Sentence

/-! ## Terms are read where they are derived -/

namespace Term

variable {t : Term} {ts : List Term}

mutual

/-- The tokens that derive a term are those of its written form. -/
theorem tokens_of_derives : {ts : List Token} → {t : Term} → DerivesTerm ts t →
    t.wellNamed Token.isName = true ∧ ts = t.tokens
  | _, _, .var name nonempty => ⟨by simp [wellNamed, name, nonempty], rfl⟩
  | _, _, .empty => ⟨rfl, rfl⟩
  | _, _, .app name free derives => by
    obtain ⟨named, rfl⟩ := tokens_of_derivesArgs derives
    exact ⟨by simp [wellNamed, name, free, listWellNamed_iff.2 named], rfl⟩
  | _, _, .singleton derives | _, _, .add derives | _, _, .remove derives | _, _, .union derives
  | _, _, .inter derives | _, _, .diff derives => by
    obtain ⟨named, rfl⟩ := tokens_of_derivesArgs derives
    exact ⟨(wellNamed_of_head? rfl).2 ⟨named, fun he => by cases he⟩, rfl⟩

theorem tokens_of_derivesArgs : {ts : List Token} → {args : List Term} → DerivesArgs ts args →
    (∀ t ∈ args, t.wellNamed Token.isName = true) ∧ ts = listTokens args
  | _, _, .nil => ⟨fun _ h => (List.not_mem_nil h).elim, rfl⟩
  | _, _, .one derives => by
    obtain ⟨named, rfl⟩ := tokens_of_derives derives
    exact ⟨List.forall_mem_singleton.2 named, rfl⟩
  | _, _, .cons derives rest => by
    obtain ⟨named, rfl⟩ := tokens_of_derives derives
    obtain ⟨others, rfl⟩ := tokens_of_derivesArgs rest
    exact ⟨List.forall_mem_cons.2 ⟨named, others⟩, rfl⟩

end

theorem derivesArgs_listTokens (h : ∀ t ∈ ts, DerivesTerm t.tokens t) :
    DerivesArgs (listTokens ts) ts := by
  induction ts with
  | nil => exact .nil
  | cons t ts ih =>
    obtain ⟨ht, hts⟩ := List.forall_mem_cons.1 h
    cases ts with
    | nil => exact .one ht
    | cons u us => exact .cons ht (ih hts)

theorem derives_tokens (h : t.wellNamed Token.isName = true) : DerivesTerm t.tokens t := by
  induction t using head_induction with
  | var x =>
    rw [wellNamed, Bool.and_eq_true, bne_iff_ne] at h
    exact .var h.1 h.2
  | empty => exact .empty
  | head t f hf ih =>
    obtain ⟨children, app⟩ := (wellNamed_of_head? hf).1 h
    have args := derivesArgs_listTokens fun c hc => ih c hc (children c hc)
    rw [tokens_of_head? hf]
    cases t with
    | var | empty => cases hf
    | app =>
      cases hf
      obtain ⟨name, free⟩ := app rfl
      exact .app name free args
    | singleton => cases hf; exact .singleton args
    | add => cases hf; exact .add args
    | remove => cases hf; exact .remove args
    | union => cases hf; exact .union args
    | inter => cases hf; exact .inter args
    | diff => cases hf; exact .diff args

end Term

/-! ## Atoms are read where they are derived -/

namespace Atom

variable {a : Atom} {p x : Token} {rest ts inner : List Token} {args : List Term}

/-- What a name makes of its arguments is derived from the name and the arguments. -/
theorem derives_applied (name : p.isName = true) (capital : p.isCapitalised = true)
    (derives : DerivesArgs inner args) (h : applyPredicate p args = .ok a) :
    DerivesAtom (applied p inner) a := by
  unfold applyPredicate at h
  split at h
  · cases h; exact .eqApplied derives
  · cases h; exact .memApplied derives
  · cases h; exact .isEmpty derives
  · cases h; exact .subset derives
  · cases h; exact .setEq derives
  · split at h
    · cases h
    · rename_i free
      cases h
      exact .pred name capital free derives

theorem derives_of_readAtom (h : readAtom x rest = .ok a) : DerivesAtom (x :: rest) a := by
  rcases readAtom_eq_ok.1 h with ⟨l, r, hc, hl, hr, rfl⟩ | ⟨-, l, r, hc, hl, hr, rfl⟩ |
    ⟨-, -, name, capital, hp⟩
  · rw [eq_of_cutAt hc]
    exact .eq (Term.derives_tokens hl) (Term.derives_tokens hr)
  · rw [eq_of_cutAt hc]
    exact .mem (Term.derives_tokens hl) (Term.derives_tokens hr)
  · rcases readPredicate_eq_ok.1 hp with ⟨rfl, rfl⟩ | ⟨args, ht, named, ha⟩
    · exact .bare name capital
    · rw [ht]
      exact derives_applied name capital
        (Term.derivesArgs_listTokens fun t hm => Term.derives_tokens (named t hm)) ha

/-- A name with arguments is read as what the name makes of them: nothing in it is cut at. -/
theorem readAtom_applied (name : p.isName = true) (capital : p.isCapitalised = true)
    (derives : DerivesArgs inner args) (h : applyPredicate p args = .ok a)
    (ht : applied p inner = x :: rest) : readAtom x rest = .ok a := by
  obtain ⟨named, rfl⟩ := Term.tokens_of_derivesArgs derives
  cases ht
  have balanced := Term.balanced_listTokens fun t hm => Term.balanced_tokens (named t hm)
  have noCut {word : Token} (hw : Token.isName word = false) (hl : word ≠ "(") :
      cutAt word (applied p (Term.listTokens args)) = none :=
    cutAt_none_of_balanced (balanced_applied (P := (Token.isName · = true)) name name balanced) hl
      fun y hy => ⟨Token.ne_of_isName hy hw, Token.ne_of_isName hy (by decide)⟩
  exact readAtom_eq_ok.2 (.inr (.inr ⟨noCut (by decide) (by decide), noCut (by decide) (by decide),
    name, capital, readPredicate_eq_ok.2 (.inr ⟨args, rfl, named, h⟩)⟩))

theorem readAtom_of_derives (h : DerivesAtom ts a) (ht : ts = x :: rest) : readAtom x rest = .ok a := by
  cases h with
  | eq left right | mem left right =>
    obtain ⟨hl, rfl⟩ := Term.tokens_of_derives left
    obtain ⟨hr, rfl⟩ := Term.tokens_of_derives right
    exact readAtom_tokens (by simp [wellNamed, Atom.args, Term.listWellNamed, hl, hr]) ht
  | bare name capital =>
    exact readAtom_tokens (by simp [wellNamed, name, capital, Term.listWellNamed]) ht
  | pred name capital free derives =>
    refine readAtom_applied name capital derives ?_ ht
    unfold applyPredicate
    split
    all_goals try cases free
    rw [free]
  | eqApplied derives | memApplied derives | isEmpty derives | subset derives | setEq derives =>
    exact readAtom_applied (by decide) (by decide) derives rfl ht

/-- **An atom is read exactly from the tokens that derive it.** -/
theorem derives_iff : DerivesAtom (x :: rest) a ↔ readAtom x rest = .ok a :=
  ⟨fun h => readAtom_of_derives h rfl, derives_of_readAtom⟩

theorem exists_name_of_derives (h : DerivesAtom ts a) :
    ∃ x rest, ts = x :: rest ∧ x.isName = true := by
  have nonempty : ts ≠ [] := by
    cases h <;> simp [applied]
  obtain ⟨x, rest, rfl⟩ := List.exists_cons_of_ne_nil nonempty
  exact ⟨x, rest, rfl, isName_of_readAtom (derives_iff.1 h)⟩

/-- Outside parentheses an atom has names and the symbols of equations and memberships. -/
theorem balanced_of_derives (h : DerivesAtom ts a) :
    Balanced (fun x => Token.isName x = true ∨ x ∈ ["=", "in"]) ts := by
  have side {ts : List Token} {t : Term} (derives : DerivesTerm ts t) :
      Balanced (fun x => Token.isName x = true ∨ x ∈ ["=", "in"]) ts := by
    obtain ⟨named, rfl⟩ := Term.tokens_of_derives derives
    exact (Term.balanced_tokens named).imp fun _ hx => .inl hx
  have inside {p : Token} {inner : List Token} {args : List Term} (name : p.isName = true)
      (derives : DerivesArgs inner args) :
      Balanced (fun x => Token.isName x = true ∨ x ∈ ["=", "in"]) (applied p inner) := by
    obtain ⟨named, rfl⟩ := Term.tokens_of_derivesArgs derives
    exact balanced_applied name (.inl name)
      (Term.balanced_listTokens fun t hm => Term.balanced_tokens (named t hm))
  cases h with
  | eq left right | mem left right =>
    exact (side left).append (.token (.inr (by decide)) (by decide) (by decide) (side right))
  | bare name capital =>
    exact .token (.inl name) (Token.ne_of_isName name (by decide))
      (Token.ne_of_isName name (by decide)) .nil
  | pred name capital free derives => exact inside name derives
  | eqApplied derives | memApplied derives | isEmpty derives | subset derives | setEq derives =>
    exact inside (by decide) derives

end Atom

end SetSequent
