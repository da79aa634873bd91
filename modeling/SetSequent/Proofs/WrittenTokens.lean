import SetSequent.Proofs.Scanning
import SetSequent.Reader

/-!
# The tokens of written formulas

What is written by `Term.text` and `Formula.text` is a list of tokens with blanks in between, as long as
every name in it is a token.

* `Term.wellNamed`, `Formula.wellNamed` — the names are accepted by a test, and none of them is taken for
  something else where it stands.
* `Term.head?` — a term is a variable, the empty set, or a head with arguments.
* `Term.tokens`, `Formula.tokens` — the tokens of the written form.
* `Term.wellNamed_of_tokens` — a test that holds of the tokens holds of the names.
* `Term.ofText_text`, `Formula.ofText_text` — the written form has these tokens.
-/

namespace SetSequent

/-! ## Names -/

/-- The name of a function: neither the empty set nor a constructor of sets. -/
def Token.isFunctionName (f : Token) : Bool := f != "empty" && (setConstructors.lookup f).isNone

mutual

/-- The test accepts all names; no variable is called `empty`, and no function is called like a
constructor of sets. -/
def Term.wellNamed (name : Token → Bool) : Term → Bool
  | .var x => name x && x != "empty"
  | .app f args => name f && Token.isFunctionName f && Term.listWellNamed name args
  | .empty => true
  | .singleton e => Term.wellNamed name e
  | .add a b | .remove a b | .union a b | .inter a b | .diff a b =>
      Term.wellNamed name a && Term.wellNamed name b

def Term.listWellNamed (name : Token → Bool) : List Term → Bool
  | [] => true
  | t :: ts => Term.wellNamed name t && Term.listWellNamed name ts

end

/-- A predicate is capitalised, and one with arguments is not called like a reserved one. -/
def Atom.wellNamed (name : Token → Bool) : Atom → Bool
  | .pred p args =>
      name p && Token.isCapitalised p && (args.isEmpty || (reservedPredicates.lookup p).isNone) &&
        Term.listWellNamed name args
  | a => Term.listWellNamed name a.args

/-- The test accepts all names of the formula, binders included; the names of variables, functions and
predicates are none of those that stand for something else. -/
def Formula.wellNamed (name : Token → Bool) : Formula → Bool
  | .top | .bot => true
  | .atom a => a.wellNamed name
  | .not f => f.wellNamed name
  | .connect _ l r => l.wellNamed name && r.wellNamed name
  | .all x f => name x && f.wellNamed name

/-! ## Terms by their heads -/

namespace Term

/-- The head of a term with arguments. -/
def head? : Term → Option Token
  | .var _ | .empty => none
  | .app f _ => some f
  | .singleton _ => some "singleton"
  | .add .. => some "add"
  | .remove .. => some "remove"
  | .union .. => some "union"
  | .inter .. => some "inter"
  | .diff .. => some "diff"

variable {R : Term → Prop}

mutual

/-- A term is a variable, the empty set, or has a head and arguments. -/
theorem head_induction (var : ∀ x, R (.var x)) (empty : R .empty)
    (head : ∀ t f, t.head? = some f → (∀ c ∈ t.children, R c) → R t) : (t : Term) → R t
  | .var x => var x
  | .app f args => head _ f rfl (head_induction_all var empty head args)
  | .empty => empty
  | .singleton e => head _ _ rfl (List.forall_mem_singleton.2 (head_induction var empty head e))
  | .add a b | .remove a b | .union a b | .inter a b | .diff a b =>
    head _ _ rfl (List.forall_mem_cons.2 ⟨head_induction var empty head a,
      List.forall_mem_singleton.2 (head_induction var empty head b)⟩)

theorem head_induction_all (var : ∀ x, R (.var x)) (empty : R .empty)
    (head : ∀ t f, t.head? = some f → (∀ c ∈ t.children, R c) → R t) : (ts : List Term) → ∀ c ∈ ts, R c
  | [] => fun _ h => (List.not_mem_nil h).elim
  | t :: ts => List.forall_mem_cons.2
      ⟨head_induction var empty head t, head_induction_all var empty head ts⟩

end

variable {name : Token → Bool} {t : Term} {f : Token}

theorem listWellNamed_iff {ts : List Term} :
    listWellNamed name ts = true ↔ ∀ t ∈ ts, t.wellNamed name = true := by
  induction ts with
  | nil => simp [listWellNamed]
  | cons t ts ih => simp [listWellNamed, ih]

/-- What it means for the head that the term is well named. -/
theorem wellNamed_of_head? (h : t.head? = some f) :
    t.wellNamed name = true ↔ (∀ c ∈ t.children, c.wellNamed name = true) ∧
      (t = .app f t.children → name f = true ∧ f.isFunctionName = true) := by
  cases t <;> cases h <;>
    simp [wellNamed, children, listWellNamed_iff, and_comm]

/-- The head of a term passes the test of its names, if all constructors do. -/
theorem name_of_head? (constructors : ∀ c ∈ setConstructors.map Prod.fst, name c = true)
    (h : t.head? = some f) (hn : t.wellNamed name = true) : name f = true := by
  cases t with
  | app g args =>
    cases h
    exact (((wellNamed_of_head? rfl).1 hn).2 rfl).1
  | _ => cases h <;> exact constructors _ (by decide)

/-! ## Tokens of terms -/

end Term

/-- The tokens of a head with arguments. -/
def applied (head : Token) (args : List Token) : List Token := head :: "(" :: (args ++ [")"])

theorem mem_applied {f x : Token} {inner : List Token} (h : x ∈ inner) : x ∈ applied f inner :=
  .tail _ (.tail _ (List.mem_append_left _ h))

namespace Term

mutual

def tokens : Term → List Token
  | .var x => [x]
  | .app f args => applied f (listTokens args)
  | .empty => ["empty"]
  | .singleton e => applied "singleton" (tokens e)
  | .add e s => applied "add" (tokens e ++ "," :: tokens s)
  | .remove e s => applied "remove" (tokens e ++ "," :: tokens s)
  | .union s t => applied "union" (tokens s ++ "," :: tokens t)
  | .inter s t => applied "inter" (tokens s ++ "," :: tokens t)
  | .diff s t => applied "diff" (tokens s ++ "," :: tokens t)

/-- The tokens of the terms with a comma between neighbours. -/
def listTokens : List Term → List Token
  | [] => []
  | [t] => tokens t
  | t :: ts => tokens t ++ "," :: listTokens ts

end

variable {t : Term} {f : Token}

theorem tokens_of_head? (h : t.head? = some f) : t.tokens = applied f (listTokens t.children) := by
  cases t <;> cases h <;> rfl

theorem tokens_subset_listTokens {ts : List Term} (h : t ∈ ts) : t.tokens ⊆ listTokens ts := by
  induction ts with
  | nil => cases h
  | cons u us ih =>
    intro x hx
    cases us with
    | nil =>
      obtain rfl := List.mem_singleton.1 h
      exact hx
    | cons w ws =>
      change x ∈ u.tokens ++ "," :: listTokens (w :: ws)
      rcases List.mem_cons.1 h with rfl | h
      · exact List.mem_append_left _ hx
      · exact List.mem_append_right _ (.tail _ (ih h hx))

/-- The names of a term are among its tokens. -/
theorem wellNamed_of_tokens {p q : Token → Bool} (h : t.wellNamed p = true)
    (hpq : ∀ x ∈ t.tokens, p x = true → q x = true) : t.wellNamed q = true := by
  induction t using head_induction with
  | var x =>
    rw [wellNamed, Bool.and_eq_true] at h ⊢
    exact ⟨hpq x (.head _) h.1, h.2⟩
  | empty => rfl
  | head t f hf ih =>
    obtain ⟨children, app⟩ := (wellNamed_of_head? hf).1 h
    rw [tokens_of_head? hf] at hpq
    refine (wellNamed_of_head? hf).2 ⟨fun c hc => ih c hc (children c hc) fun x hx => hpq x ?_, ?_⟩
    · exact mem_applied (tokens_subset_listTokens hc hx)
    · exact fun ht => ⟨hpq f (.head _) (app ht).1, (app ht).2⟩

theorem text_of_head? (h : t.head? = some f) : t.text = f ++ "(" ++ listText t.children ++ ")" := by
  cases t with
  | var | empty => cases h
  | app g args => cases h; rfl
  | singleton e =>
    cases h
    simp [text, children, listText]
  | add a b | remove a b | union a b | inter a b | diff a b =>
    cases h
    simp [text, children, listText, ← String.toList_inj]

end Term

namespace Token

theorem ofText_applied {f : Token} (h : f.isIdentifier = true) (s : String) :
    ofText (f ++ "(" ++ s ++ ")") = applied f (ofText s) := by
  have opening : ofText "(" = ["("] := by decide +kernel
  have closing : ofText ")" = [")"] := by decide +kernel
  rw [ofText_append_of_starts (by decide : startsApart ")" = true),
    ofText_append_of_ends (endsApart_append (by decide : endsApart "(" = true)),
    ofText_append_of_starts (by decide : startsApart "(" = true), ofText_of_isIdentifier h, opening,
    closing]
  rfl

/-- A separator keeps its sides apart. -/
theorem ofText_separated {sep : String} (hs : startsApart sep = true) (he : endsApart sep = true)
    (s t : String) : ofText (s ++ sep ++ t) = ofText s ++ ofText sep ++ ofText t := by
  rw [ofText_append_of_ends (endsApart_append he), ofText_append_of_starts hs]

end Token

namespace Term

variable {t : Term}

theorem ofText_listText {ts : List Term} (h : ∀ t ∈ ts, Token.ofText t.text = t.tokens) :
    Token.ofText (listText ts) = listTokens ts := by
  have comma : Token.ofText ", " = [","] := by decide +kernel
  induction ts with
  | nil => decide +kernel
  | cons t ts ih =>
    obtain ⟨ht, hts⟩ := List.forall_mem_cons.1 h
    cases ts with
    | nil => exact ht
    | cons u us =>
      change Token.ofText (t.text ++ ", " ++ listText (u :: us)) = t.tokens ++ "," :: listTokens (u :: us)
      rw [Token.ofText_separated (by decide) (by decide), ht, ih hts, comma, List.append_assoc,
        List.singleton_append]

/-- **The written form of a term has its tokens.** -/
theorem ofText_text (h : t.wellNamed Token.isIdentifier = true) : Token.ofText t.text = t.tokens := by
  induction t using head_induction with
  | var x =>
    rw [wellNamed, Bool.and_eq_true] at h
    exact Token.ofText_of_isIdentifier h.1
  | empty => decide +kernel
  | head t f hf ih =>
    have children := ((wellNamed_of_head? hf).1 h).1
    rw [text_of_head? hf, tokens_of_head? hf, Token.ofText_applied (name_of_head? (by decide) hf h),
      ofText_listText fun c hc => ih c hc (children c hc)]

end Term

/-! ## Tokens of formulas -/

namespace Atom

/-- The head of an atom with arguments in parentheses. -/
def head? : Atom → Option Token
  | .eq .. | .mem .. | .pred _ [] => none
  | .isEmpty _ => some "Empty"
  | .subset .. => some "Subset"
  | .setEq .. => some "Equal"
  | .pred p (_ :: _) => some p

def tokens : Atom → List Token
  | .eq l r => l.tokens ++ "=" :: r.tokens
  | .mem e s => e.tokens ++ "in" :: s.tokens
  | .isEmpty s => applied "Empty" s.tokens
  | .subset s t => applied "Subset" (s.tokens ++ "," :: t.tokens)
  | .setEq s t => applied "Equal" (s.tokens ++ "," :: t.tokens)
  | .pred p [] => [p]
  | .pred p args => applied p (Term.listTokens args)

variable {a : Atom} {f : Token} {name : Token → Bool}

theorem tokens_of_head? (h : a.head? = some f) :
    a.tokens = applied f (Term.listTokens a.args) := by
  cases a with
  | pred p args =>
    cases args with
    | nil => cases h
    | cons => cases h; rfl
  | _ => cases h <;> rfl

theorem tokens_ne_nil (a : Atom) : a.tokens ≠ [] := by
  cases a with
  | pred p args => cases args <;> exact List.cons_ne_nil _ _
  | _ => simp [tokens, applied]

theorem text_of_head? (h : a.head? = some f) : a.text = f ++ "(" ++ Term.listText a.args ++ ")" := by
  cases a with
  | pred p args =>
    cases args with
    | nil => cases h
    | cons => cases h; rfl
  | _ => cases h <;> simp [text, args, Term.listText, ← String.toList_inj]

theorem listWellNamed_args (h : a.wellNamed name = true) :
    ∀ t ∈ a.args, t.wellNamed name = true := by
  refine Term.listWellNamed_iff.1 ?_
  cases a with
  | pred p args =>
    rw [wellNamed, Bool.and_eq_true] at h
    exact h.2
  | _ => exact h

/-- A weaker test accepts the names too. -/
theorem wellNamed_imp {p q : Token → Bool} (h : a.wellNamed p = true)
    (hpq : ∀ x, p x = true → q x = true) : a.wellNamed q = true := by
  have args : Term.listWellNamed q a.args = true :=
    Term.listWellNamed_iff.2 fun t ht =>
      Term.wellNamed_of_tokens (listWellNamed_args h t ht) fun x _ => hpq x
  cases a with
  | pred f ts =>
    simp only [wellNamed, Bool.and_eq_true] at h ⊢
    exact ⟨⟨⟨hpq f h.1.1.1, h.1.1.2⟩, h.1.2⟩, args⟩
  | _ => exact args

/-- The head of an atom passes the test of its names, if all reserved predicates do. -/
theorem name_of_head? (reserved : ∀ p ∈ reservedPredicates.map Prod.fst, name p = true)
    (h : a.head? = some f) (hn : a.wellNamed name = true) : name f = true := by
  cases a with
  | pred p args =>
    cases args <;> cases h
    simp only [wellNamed, Bool.and_eq_true] at hn
    exact hn.1.1.1
  | _ => cases h <;> exact reserved _ (by decide)

/-- **The written form of an atom has its tokens.** -/
theorem ofText_text (h : a.wellNamed Token.isIdentifier = true) : Token.ofText a.text = a.tokens := by
  have args (t : Term) (ht : t ∈ a.args) : Token.ofText t.text = t.tokens :=
    Term.ofText_text (listWellNamed_args h t ht)
  have inside {f : Token} (hf : a.head? = some f) : Token.ofText a.text = a.tokens := by
    rw [text_of_head? hf, tokens_of_head? hf, Token.ofText_applied (name_of_head? (by decide) hf h),
      Term.ofText_listText args]
  have between {l r : Term} {word : String} (hl : l ∈ a.args) (hr : r ∈ a.args)
      (hs : Token.startsApart word = true) (he : Token.endsApart word = true) :
      Token.ofText (l.text ++ word ++ r.text) = l.tokens ++ Token.ofText word ++ r.tokens := by
    rw [Token.ofText_separated hs he, args l hl, args r hr]
  have equals : Token.ofText " = " = ["="] := by decide +kernel
  have isIn : Token.ofText " in " = ["in"] := by decide +kernel
  cases a with
  | eq l r =>
    rw [text, between (.head _) (.tail _ (.head _)) (by decide) (by decide), equals, tokens,
      List.append_assoc, List.singleton_append]
  | mem e s =>
    rw [text, between (.head _) (.tail _ (.head _)) (by decide) (by decide), isIn, tokens,
      List.append_assoc, List.singleton_append]
  | pred p ts =>
    cases ts with
    | nil =>
      simp only [wellNamed, Bool.and_eq_true] at h
      exact Token.ofText_of_isIdentifier h.1.1.1
    | cons => exact inside rfl
  | isEmpty | subset | setEq => exact inside rfl

end Atom

namespace Formula

def tokens : Formula → List Token
  | .top => ["true"]
  | .bot => ["false"]
  | .atom a => a.tokens
  | .not f => "not" :: f.tokens
  | .connect c l r => "(" :: (l.tokens ++ c.word :: r.tokens ++ [")"])
  | .all x f => "(" :: ("forall" :: x :: "." :: f.tokens ++ [")"])

variable {f : Formula}

theorem wellNamed_imp {p q : Token → Bool} (h : f.wellNamed p = true)
    (hpq : ∀ x, p x = true → q x = true) : f.wellNamed q = true := by
  induction f with
  | top | bot => rfl
  | atom a => exact Atom.wellNamed_imp h hpq
  | not f ih => exact ih h
  | connect c l r ihl ihr =>
    rw [wellNamed, Bool.and_eq_true] at h ⊢
    exact ⟨ihl h.1, ihr h.2⟩
  | all x f ih =>
    rw [wellNamed, Bool.and_eq_true] at h ⊢
    exact ⟨hpq x h.1, ih h.2⟩

/-- **The written form of a formula has its tokens.** -/
theorem ofText_text (h : f.wellNamed Token.isIdentifier = true) :
    Token.ofText f.text = f.tokens := by
  have closing : Token.ofText ")" = [")"] := by decide +kernel
  induction f with
  | top | bot => decide +kernel
  | atom a => exact Atom.ofText_text h
  | not f ih =>
    have negation : Token.ofText "not " = ["not"] := by decide +kernel
    rw [text, Token.ofText_append_of_ends (by decide), ih h, negation]
    rfl
  | connect c l r ihl ihr =>
    rw [wellNamed, Bool.and_eq_true] at h
    have opening : Token.ofText "(" = ["("] := by decide +kernel
    have blank : Token.ofText " " = [] := by decide +kernel
    have word : Token.ofText c.word = [c.word] := by cases c <;> decide +kernel
    rw [text, Token.ofText_append_of_starts (by decide),
      Token.ofText_separated (by decide) (by decide), Token.ofText_separated (by decide) (by decide),
      Token.ofText_append_of_ends (by decide), ihl h.1, ihr h.2, opening, blank, word, closing, tokens]
    simp
  | all x f ih =>
    rw [wellNamed, Bool.and_eq_true] at h
    have opening : Token.ofText "(forall " = ["(", "forall"] := by decide +kernel
    have dot : Token.ofText ". " = ["."] := by decide +kernel
    rw [text, Token.ofText_append_of_starts (by decide),
      Token.ofText_separated (by decide) (by decide), Token.ofText_append_of_ends (by decide),
      Token.ofText_of_isIdentifier h.1, ih h.2, opening, dot, closing, tokens]
    simp

end Formula

end SetSequent
