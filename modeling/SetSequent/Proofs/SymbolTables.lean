import SetSequent.Solver.Encoding

/-!
# Encoding by one table of declarations

The encoder declares a symbol where it first meets it, and a formula that fails leaves its declarations to
the next ones. Whatever the order, the outcome is that of a translation by one fixed table, which gives each
use of a name its declaration.

* `Usage` — a name as a variable, or as a function or a predicate of some number of arguments.
* `Declaration` — a constant, function or predicate of the solver: its name and its sorts.
* `renderTerm`, `renderAtom`, `renderFormula` — the expression in which each use of a name has become its
  declaration.
* `Follows` — an encoder does what a translation does by each table that its declarations belong to.
* `encodeAll_by_table` — the encoder of a list of formulas is a translation by a table.
* `Usage.Merges`, `Declarations.table_eq_iff` — the two cases in which different uses have one declaration.
-/

namespace SetSequent.Solver

/-! ## Translation by a table -/

/-- A use of a name. -/
inductive Usage where
  | var (name : String)
  | function (name : String) (arity : Nat)
  | predicate (name : String) (arity : Nat)
  deriving DecidableEq

def Usage.name : Usage → String
  | .var x | .function x _ | .predicate x _ => x

def Usage.arity : Usage → Nat
  | .var _ => 0
  | .function _ n | .predicate _ n => n

/-- A constant, function or predicate of the solver, which tells two of them apart by these three. -/
structure Declaration where
  name : String
  args : List Domain
  result : Domain
  deriving DecidableEq

/-- The declaration of each use of a name. -/
abbrev Table := Usage → Declaration

/-- The expression, if a condition on the sorts holds. -/
def fits (condition : Bool) (e : Expr) : Option Expr := if condition then some e else none

/-- What is declared, applied to arguments of the right sorts. -/
def Declaration.apply (d : Declaration) (args : List Expr) : Option Expr :=
  fits (args.map Expr.domain = d.args) (.symbol d.name d.result args)

/-- A use without arguments: a quantifier may bind the name. -/
def renderConstant (τ : Table) (scope : List String) (name : String) (u : Usage) : Option Expr :=
  match scope.idxOf? name with
  | some k => some (.bound k)
  | none => (τ u).apply []

def renderStore (s e : Expr) (present : Bool) : Option Expr :=
  fits (s.domain = .set && e.domain = .elem) (.store s e present)

def renderSets (op : Expr → Expr → Expr) (s t : Expr) : Option Expr :=
  fits (s.domain = .set && t.domain = .set) (op s t)

def renderEqual (a b : Expr) : Option Expr := fits (a.domain = b.domain) (.equal a b)

def renderConnect (c : Connective) (a b : Expr) : Option Expr :=
  match c with
  | .iff => if b.isQuantifier && !a.isQuantifier then renderEqual b a else renderEqual a b
  | .and => fits (a.domain = .bool && b.domain = .bool) (.and a b)
  | .or => fits (a.domain = .bool && b.domain = .bool) (.or a b)
  | .implies => fits (a.domain = .bool && b.domain = .bool) (.implies a b)

mutual

/-- The expression of a term by a table, in the scope of quantifiers. -/
def renderTerm (scope : List String) : Term → Table → Option Expr
  | .var x, τ => renderConstant τ scope x (.var x)
  | .app f [], τ => renderConstant τ scope f (.function f 0)
  | .app f args, τ => do
    let es ← renderTerms scope args τ
    (τ (.function f args.length)).apply es
  | .empty, _ => some .emptySet
  | .singleton e, τ => do
    let e ← renderTerm scope e τ
    renderStore .emptySet e true
  | .add e s, τ => do
    let s ← renderTerm scope s τ
    let e ← renderTerm scope e τ
    renderStore s e true
  | .remove e s, τ => do
    let s ← renderTerm scope s τ
    let e ← renderTerm scope e τ
    renderStore s e false
  | .union s t, τ => do
    let s ← renderTerm scope s τ
    let t ← renderTerm scope t τ
    renderSets .union s t
  | .inter s t, τ => do
    let s ← renderTerm scope s τ
    let t ← renderTerm scope t τ
    renderSets .inter s t
  | .diff s t, τ => do
    let s ← renderTerm scope s τ
    let t ← renderTerm scope t τ
    renderSets .diff s t

def renderTerms (scope : List String) : List Term → Table → Option (List Expr)
  | [], _ => some []
  | t :: ts, τ => do
    let e ← renderTerm scope t τ
    let es ← renderTerms scope ts τ
    return e :: es

end

def renderAtom (scope : List String) (a : Atom) (τ : Table) : Option Expr :=
  match a with
  | .eq l r | .setEq l r => do
    let a ← renderTerm scope l τ
    let b ← renderTerm scope r τ
    renderEqual a b
  | .mem e s => do
    let e ← renderTerm scope e τ
    let s ← renderTerm scope s τ
    fits (s.domain = .set && e.domain = .elem) (.select s e)
  | .isEmpty s => do
    let s ← renderTerm scope s τ
    renderEqual s .emptySet
  | .subset s t => do
    let s ← renderTerm scope s τ
    let t ← renderTerm scope t τ
    renderSets .subset s t
  | .pred p args => do
    let es ← renderTerms scope args τ
    (τ (.predicate p args.length)).apply es

/-- The expression of a formula by a table; none if the sorts do not fit. -/
def renderFormula : List String → Formula → Table → Option Expr
  | _, .top, _ => some (.truth true)
  | _, .bot, _ => some (.truth false)
  | scope, .atom a, τ => renderAtom scope a τ
  | scope, .not f, τ => do
    let e ← renderFormula scope f τ
    fits (e.domain = .bool) (.not e)
  | scope, .connect c l r, τ => do
    let a ← renderFormula scope l τ
    let b ← renderFormula scope r τ
    renderConnect c a b
  | scope, .all x f, τ => do
    let body ← renderFormula (x :: scope) f τ
    fits (body.domain = .bool) (.all x body)

theorem length_renderTerms {scope : List String} {ts : List Term} {τ : Table} {es : List Expr}
    (h : renderTerms scope ts τ = some es) : es.length = ts.length := by
  induction ts generalizing es with
  | nil => cases h; rfl
  | cons t ts ih =>
    simp only [renderTerms, Option.bind_eq_bind, Option.bind_eq_some_iff, Option.pure_def,
      Option.some.injEq] at h
    obtain ⟨e, _, es', hes, rfl⟩ := h
    simp [ih hes]

/-! ## The table of declarations -/

namespace Declarations

/-- A constant is no truth value, and a function has as many sorts as arguments. -/
structure Sound (d : Declarations) : Prop where
  constants : ∀ x s, d.constants.lookup x = some s → s ≠ .bool
  functions : ∀ f n a, d.functions.lookup (f, n) = some a → a.args.length = n

/-- What `d` declares is declared in `D` with the same sorts. -/
structure Within (d D : Declarations) : Prop where
  constants : ∀ x s, d.constants.lookup x = some s → D.constants.lookup x = some s
  functions : ∀ k a, d.functions.lookup k = some a → D.functions.lookup k = some a

theorem Within.refl (d : Declarations) : d.Within d := ⟨fun _ _ h => h, fun _ _ h => h⟩

theorem Within.trans {d₁ d₂ d₃ : Declarations} (h : d₁.Within d₂) (h' : d₂.Within d₃) : d₁.Within d₃ :=
  ⟨fun x s hx => h'.constants x s (h.constants x s hx), fun k a hk => h'.functions k a (h.functions k a hk)⟩

/-- What stands in front of a table hides no other entry. -/
theorem lookup_cons_of_lookup {κ ν : Type} [BEq κ] [LawfulBEq κ] {k k' : κ} {a a' : ν} {table : List (κ × ν)}
    (h : table.lookup k = none) (h' : table.lookup k' = some a') :
    ((k, a) :: table).lookup k' = some a' := by
  have hne : k' ≠ k := fun e => by simp [e, h] at h'
  rwa [List.lookup_cons, beq_false_of_ne hne]

/-- Declaring a constant. -/
theorem Within.constant {d : Declarations} {x : String} (h : d.constants.lookup x = none) (s : Domain) :
    d.Within { d with constants := (x, s) :: d.constants } :=
  ⟨fun _ _ hy => lookup_cons_of_lookup h hy, fun _ _ hk => hk⟩

/-- Declaring a function. -/
theorem Within.function {d : Declarations} {k : String × Nat} (h : d.functions.lookup k = none) (a : Arrow) :
    d.Within { d with functions := (k, a) :: d.functions } :=
  ⟨fun _ _ hy => hy, fun _ _ hk => lookup_cons_of_lookup h hk⟩

theorem forall_lookup_cons {κ ν : Type} [BEq κ] [LawfulBEq κ] {k : κ} {a : ν} {table : List (κ × ν)}
    {P : κ → ν → Prop} (hk : P k a) (h : ∀ k' a', table.lookup k' = some a' → P k' a') {k' : κ} {a' : ν}
    (ha : ((k, a) :: table).lookup k' = some a') : P k' a' := by
  rw [List.lookup_cons] at ha
  split at ha
  · rename_i hk'
    cases ha
    exact eq_of_beq hk' ▸ hk
  · exact h k' a' ha

theorem Sound.constant {d : Declarations} (hd : d.Sound) {x : String} {s : Domain} (hs : s ≠ .bool) :
    Sound { d with constants := (x, s) :: d.constants } :=
  ⟨fun _ _ h => forall_lookup_cons (P := fun _ s => s ≠ .bool) hs hd.constants h, hd.functions⟩

theorem Sound.function {d : Declarations} (hd : d.Sound) (f : String) (a : Arrow) :
    Sound { d with functions := ((f, a.args.length), a) :: d.functions } :=
  ⟨hd.constants, fun _ _ _ h =>
    forall_lookup_cons (P := fun k a => a.args.length = k.2) rfl (fun k a => hd.functions k.1 k.2 a) h⟩

/-- The sort of a constant; one that is not declared counts as an element. -/
def constantDomain (d : Declarations) (x : String) : Domain := (d.constants.lookup x).getD .elem

/-- The sorts of a function; one that is not declared counts as a function of elements. -/
def arrowOf (d : Declarations) (f : String) (n : Nat) : Arrow :=
  (d.functions.lookup (f, n)).getD ⟨List.replicate n .elem, .elem⟩

/-- The table that the declarations amount to. -/
def table (d : Declarations) : Table
  | .var x | .function x 0 => ⟨x, [], d.constantDomain x⟩
  | .predicate p 0 => ⟨p, [], .bool⟩
  | .function f (n + 1) | .predicate f (n + 1) =>
    ⟨f, (d.arrowOf f (n + 1)).args, (d.arrowOf f (n + 1)).result⟩

end Declarations

/-! ## Encoders that follow a translation -/

/-- A run from the declarations `d` that keeps them, keeps them sound, and gives what the translation gives
by each table that the declarations after it belong to. -/
structure FollowsFrom {α : Type} (d : Declarations) (run : Except SortMismatch α × Declarations)
    (x : Table → Option α) : Prop where
  sound : d.Sound → run.2.Sound
  grows : d.Within run.2
  result : ∀ D : Declarations, run.2.Within D → run.1.toOption = x D.table

/-- An encoder that does what a translation does, whatever is declared before it. -/
def Follows {α : Type} (m : Encoder α) (x : Table → Option α) : Prop :=
  ∀ d : Declarations, FollowsFrom d (m.run.run d) x

namespace Follows

variable {α β : Type} {m : Encoder α} {k : α → Encoder β} {x : Table → Option α}
  {y : α → Table → Option β}

protected theorem pure (a : α) : Follows (pure a : Encoder α) fun _ => some a :=
  fun d => ⟨fun h => h, .refl d, fun _ _ => rfl⟩

theorem run_bind (m : Encoder α) (k : α → Encoder β) (d : Declarations) :
    (m >>= k).run.run d =
      match m.run.run d with
      | (.ok a, d') => (k a).run.run d'
      | (.error e, d') => (.error e, d') := by
  rw [ExceptT.run_bind, StateT.run_bind]
  cases hr : m.run.run d with
  | mk r d' => cases r <;> rfl

/-- The second encoder has to follow its translation only for results that the first translation gives. -/
protected theorem bind (hm : Follows m x) (hk : ∀ a, (∃ τ, x τ = some a) → Follows (k a) (y a)) :
    Follows (m >>= k) fun τ => (x τ).bind fun a => y a τ := by
  intro d
  have first := hm d
  rw [run_bind]
  generalize m.run.run d = run at first
  obtain ⟨r, d'⟩ := run
  cases r with
  | error e =>
    refine ⟨first.sound, first.grows, fun D hD => ?_⟩
    rw [← first.result D hD]
    rfl
  | ok a =>
    have later := hk a ⟨_, (first.result d' (.refl d')).symm⟩ d'
    refine ⟨fun hd => later.sound (first.sound hd), first.grows.trans later.grows, fun D hD => ?_⟩
    -- What is declared after both runs was not changed since the first one.
    rw [← first.result D (later.grows.trans hD)]
    exact later.result D hD

/-- Only the tables of declarations matter. -/
theorem congr {y : Table → Option α} (h : Follows m x) (e : ∀ D : Declarations, x D.table = y D.table) :
    Follows m y :=
  fun d => ⟨(h d).sound, (h d).grows, fun D hD => by rw [(h d).result D hD, e]⟩

/-- A result that is given only if a condition holds. -/
theorem ensure (c : Bool) (e : Expr) :
    Follows (do Solver.ensure c; return e : Encoder Expr) fun _ => fits c e := by
  cases c with
  | true => exact .pure e
  | false => exact fun d => ⟨fun h => h, .refl d, fun _ _ => rfl⟩

/-! ### Symbols -/

theorem run_get (f : Declarations → Encoder α) (d : Declarations) : (get >>= f).run.run d = (f d).run.run d :=
  rfl

/-- A constant that is declared, or is declared here as an element or a set. -/
theorem constant {scope : List String} {x : String} {s : Domain} {u : Usage} (hs : s ≠ .bool)
    (hu : ∀ D : Declarations, D.table u = ⟨x, [], D.constantDomain x⟩) :
    Follows (Solver.constant scope x s) fun τ => renderConstant τ scope x u := by
  intro d
  unfold Solver.constant renderConstant
  cases scope.idxOf? x with
  | some k => exact Follows.pure _ d
  | none =>
    have symbol (D : Declarations) (s' : Domain) (h : D.constants.lookup x = some s') :
        some (.symbol x s' []) = (D.table u).apply [] := by
      rw [hu, Declarations.constantDomain, h]
      rfl
    dsimp only
    rw [run_get]
    -- A constant that is new here keeps its sort from now on, so later tables have it too.
    cases hx : d.constants.lookup x with
    | some s' => exact ⟨fun hd => hd, .refl d, fun D hD => symbol D s' (hD.constants x s' hx)⟩
    | none =>
      exact ⟨fun hd => hd.constant hs, .constant hx s,
        fun D hD => symbol D s (hD.constants x s List.lookup_cons_self)⟩

/-- The sorts that are declared for a function, or those it is declared with here. -/
theorem arrow {f : String} {args : List Domain} {s : Domain} {y : Table → Option Arrow}
    (hy : ∀ D : Declarations, y D.table = some (D.arrowOf f args.length)) :
    Follows (Solver.arrow f args s) y := by
  intro d
  have declared (D : Declarations) (a : Arrow) (h : D.functions.lookup (f, args.length) = some a) :
      some a = y D.table := by
    rw [hy, Declarations.arrowOf, h]
    rfl
  unfold Solver.arrow
  rw [run_get]
  cases hf : d.functions.lookup (f, args.length) with
  | some a => exact ⟨fun hd => hd, .refl d, fun D hD => declared D a (hD.functions _ a hf)⟩
  | none =>
    exact ⟨fun hd => hd.function f ⟨args, s⟩, .function hf ⟨args, s⟩,
      fun D hD => declared D _ (hD.functions _ _ List.lookup_cons_self)⟩

/-- A function or predicate that is declared, or is declared here, for arguments of the right sorts. -/
theorem apply {f : String} {es : List Expr} {s : Domain} {u : Usage}
    (hu : ∀ D : Declarations,
      D.table u = ⟨f, (D.arrowOf f es.length).args, (D.arrowOf f es.length).result⟩) :
    Follows (Solver.apply f es s) fun τ => (τ u).apply es := by
  have sorts : Follows (Solver.arrow f (es.map Expr.domain) s) fun τ => some ⟨(τ u).args, (τ u).result⟩ :=
    arrow fun D => by rw [hu, List.length_map]
  have applied := sorts.bind fun a _ => ensure (es.map Expr.domain = a.args) (.symbol f a.result es)
  refine applied.congr fun D => ?_
  rw [hu]
  rfl

end Follows

/-! ## Terms and formulas -/

theorem Vocabulary.variableDomain_ne (v : Vocabulary) (x : String) : v.variableDomain x ≠ .bool := by
  unfold variableDomain
  split <;> simp

theorem Vocabulary.functionDomain_ne (v : Vocabulary) (f : String) : v.functionDomain f ≠ .bool := by
  unfold functionDomain
  split <;> simp

section

variable (v : Vocabulary) (scope : List String)

mutual

theorem follows_encodeTerm : (t : Term) → Follows (encodeTerm v scope t) (renderTerm scope t)
  | .var x => .constant (v.variableDomain_ne x) fun _ => rfl
  | .app f [] => .constant (v.functionDomain_ne f) fun _ => rfl
  | .app f (t :: ts) => by
    refine .bind (follows_encodeTerms (t :: ts)) fun es ⟨τ, hes⟩ => .apply fun D => ?_
    rw [length_renderTerms hes]
    rfl
  | .empty => .pure _
  | .singleton e => .bind (follows_encodeTerm e) fun _ _ => .ensure _ _
  | .add e s | .remove e s =>
    .bind (follows_encodeTerm s) fun _ _ => .bind (follows_encodeTerm e) fun _ _ => .ensure _ _
  | .union s t | .inter s t | .diff s t =>
    .bind (follows_encodeTerm s) fun _ _ => .bind (follows_encodeTerm t) fun _ _ => .ensure _ _

theorem follows_encodeTerms : (ts : List Term) → Follows (encodeTerms v scope ts) (renderTerms scope ts)
  | [] => .pure _
  | t :: ts =>
    .bind (follows_encodeTerm t) fun _ _ => .bind (follows_encodeTerms ts) fun _ _ => .pure _

end

theorem follows_encodeAtom (a : Atom) : Follows (encodeAtom v scope a) (renderAtom scope a) := by
  cases a with
  | eq l r | setEq l r =>
    exact .bind (follows_encodeTerm v scope l) fun _ _ =>
      .bind (follows_encodeTerm v scope r) fun _ _ => .ensure _ _
  | mem e s | subset e s =>
    exact .bind (follows_encodeTerm v scope e) fun _ _ =>
      .bind (follows_encodeTerm v scope s) fun _ _ => .ensure _ _
  | isEmpty s => exact .bind (follows_encodeTerm v scope s) fun _ _ => .ensure _ _
  | pred p args =>
    cases args with
    | nil => exact .congr (.pure _) fun D => rfl
    | cons t ts =>
      refine .bind (follows_encodeTerms v scope (t :: ts)) fun es ⟨τ, hes⟩ => .apply fun D => ?_
      rw [length_renderTerms hes]
      rfl

end

theorem follows_connect (c : Connective) (a b : Expr) :
    Follows (connect c a b) fun _ => renderConnect c a b := by
  cases c with
  | iff =>
    unfold connect renderConnect
    dsimp only
    split
    · exact .ensure _ _
    · exact .ensure _ _
  | and | or | implies => exact .ensure _ _

theorem follows_encodeFormula (v : Vocabulary) (scope : List String) (f : Formula) :
    Follows (encodeFormula v scope f) (renderFormula scope f) := by
  induction f generalizing scope with
  | top | bot => exact .pure _
  | atom a => exact follows_encodeAtom v scope a
  | not f ih => exact .bind (ih scope) fun _ _ => .ensure _ _
  | connect c l r ihl ihr =>
    exact .bind (ihl scope) fun _ _ => .bind (ihr scope) fun _ _ => follows_connect _ _ _
  | all x f ih => exact .bind (ih (x :: scope)) fun _ _ => .ensure _ _

/-- The formulas of a list are translated by the table of all declarations, also those that come later. -/
theorem encodeAll_by_table (v : Vocabulary) (fs : List Formula) (d D : Declarations) :
    let run := (encodeAll v fs).run d
    (d.Sound → run.2.Sound) ∧ d.Within run.2 ∧
      (run.2.Within D → run.1.map Except.toOption = fs.map fun f => renderFormula [] f D.table) := by
  induction fs generalizing d with
  | nil => exact ⟨fun h => h, .refl d, fun _ => rfl⟩
  | cons f fs ih =>
    obtain ⟨sound, grows, results⟩ := ih ((encodeFormula v [] f).run.run d).2
    have first := follows_encodeFormula v [] f d
    refine ⟨fun h => sound (first.sound h), first.grows.trans grows, fun hD => ?_⟩
    exact List.cons_eq_cons.2 ⟨first.result D (grows.trans hD), results hD⟩

/-! ## Uses with one declaration -/

/-- Different uses that the encoder does not tell apart: a variable and a function without arguments of one
name; a function and a predicate of one name and number of arguments, if they have any. -/
inductive Usage.Merges : Usage → Usage → Prop where
  | constant (x : String) : Merges (.var x) (.function x 0)
  | applied (f : String) (n : Nat) : Merges (.function f (n + 1)) (.predicate f (n + 1))

namespace Declarations

variable {d : Declarations}

theorem name_table (d : Declarations) (u : Usage) : (d.table u).name = u.name := by
  rcases u with x | ⟨f, _ | n⟩ | ⟨p, _ | n⟩ <;> rfl

theorem length_args_arrowOf (hd : d.Sound) (f : String) (n : Nat) : (d.arrowOf f n).args.length = n := by
  unfold arrowOf
  cases hf : d.functions.lookup (f, n) with
  | none => exact List.length_replicate
  | some a => exact hd.functions f n a hf

theorem length_args_table (hd : d.Sound) (u : Usage) : (d.table u).args.length = u.arity := by
  rcases u with x | ⟨f, _ | n⟩ | ⟨p, _ | n⟩
  · rfl
  · rfl
  · exact length_args_arrowOf hd f (n + 1)
  · rfl
  · exact length_args_arrowOf hd p (n + 1)

theorem constantDomain_ne (hd : d.Sound) (x : String) : d.constantDomain x ≠ .bool := by
  unfold constantDomain
  cases hx : d.constants.lookup x with
  | none => simp
  | some s => exact hd.constants x s hx

theorem table_eq_of_merges {u u' : Usage} (h : u.Merges u') : d.table u = d.table u' := by
  cases h <;> rfl

/-- Two uses have one declaration exactly if they merge. -/
theorem table_eq_iff (hd : d.Sound) (u u' : Usage) :
    d.table u = d.table u' ↔ u = u' ∨ u.Merges u' ∨ u'.Merges u := by
  constructor
  · intro h
    have names : u.name = u'.name := by rw [← name_table d u, h, name_table]
    have arities : u.arity = u'.arity := by rw [← length_args_table hd u, h, length_args_table hd]
    -- A predicate without arguments is a truth value, which no constant is.
    have apart (x : String) : d.table (.var x) ≠ d.table (.predicate x 0) := fun e =>
      constantDomain_ne hd x (congrArg Declaration.result e)
    cases u with
    | var x =>
      cases u' with
      | var y => exact .inl (congrArg Usage.var names)
      | function y n =>
        obtain ⟨rfl, rfl⟩ : x = y ∧ 0 = n := ⟨names, arities⟩
        exact .inr (.inl (.constant x))
      | predicate y n =>
        obtain ⟨rfl, rfl⟩ : x = y ∧ 0 = n := ⟨names, arities⟩
        exact absurd h (apart x)
    | function f m =>
      cases u' with
      | var y =>
        obtain ⟨rfl, rfl⟩ : f = y ∧ m = 0 := ⟨names, arities⟩
        exact .inr (.inr (.constant f))
      | function y n => exact .inl (congr (congrArg Usage.function names) arities)
      | predicate y n =>
        obtain ⟨rfl, rfl⟩ : f = y ∧ m = n := ⟨names, arities⟩
        cases m with
        | zero => exact absurd h (apart f)
        | succ m => exact .inr (.inl (.applied f m))
    | predicate p m =>
      cases u' with
      | var y =>
        obtain ⟨rfl, rfl⟩ : p = y ∧ m = 0 := ⟨names, arities⟩
        exact absurd h.symm (apart p)
      | function y n =>
        obtain ⟨rfl, rfl⟩ : p = y ∧ m = n := ⟨names, arities⟩
        cases m with
        | zero => exact absurd h.symm (apart p)
        | succ m => exact .inr (.inr (.applied p m))
      | predicate y n => exact .inl (congr (congrArg Usage.predicate names) arities)
  · rintro (rfl | h | h)
    · rfl
    · exact table_eq_of_merges h
    · exact (table_eq_of_merges h).symm

end Declarations

end SetSequent.Solver
