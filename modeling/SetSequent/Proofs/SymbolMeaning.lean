import SetSequent.Proofs.SymbolTables

/-!
# Symbols that stay apart keep their meanings

A structure gives a meaning to each declaration of the solver, of the sort of its result. Where no two uses of
names merge, meanings that are chosen for the uses, each on its own, are those of some structure, in which an
encoded formula means what the formula means. So the solver proves nothing for the reason only that two
symbols became one.

* `Entity` — an element, a set or a truth value.
* `Expr.denote`, `denoteFormula` — the meaning of an expression in a structure, and of a formula whose uses of
  names have meanings of their own.
* `denote_renderTerm`, `denote_renderFormula` — a translation by a table keeps the meaning.
* `encode_keeps_symbols` — the encoder as a translation by a table, with the uses that it does not keep apart.
-/

namespace SetSequent.Solver

/-! ## Meanings -/

/-- What a sort stands for over the elements of `E`. -/
def Domain.Carrier (E : Type) : Domain → Type
  | .elem => E
  | .set => E → Prop
  | .bool => Prop

structure Entity (E : Type) where
  sort : Domain
  val : sort.Carrier E

namespace Entity

variable {E : Type}

def element (a : E) : Entity E := ⟨.elem, a⟩

def ofSet (s : E → Prop) : Entity E := ⟨.set, s⟩

def truth (p : Prop) : Entity E := ⟨.bool, p⟩

/-- Membership in what is a set. -/
def Has : Entity E → E → Prop
  | ⟨.set, s⟩, a => s a
  | _, _ => False

/-- What is a truth value and true. -/
def Holds : Entity E → Prop
  | ⟨.bool, p⟩ => p
  | _ => False

/-- A set with an element put in or taken out. -/
def store (s e : Entity E) : Bool → Entity E
  | true => ofSet fun a => element a = e ∨ s.Has a
  | false => ofSet fun a => element a ≠ e ∧ s.Has a

def union (s t : Entity E) : Entity E := ofSet fun a => s.Has a ∨ t.Has a

def inter (s t : Entity E) : Entity E := ofSet fun a => s.Has a ∧ t.Has a

def diff (s t : Entity E) : Entity E := ofSet fun a => s.Has a ∧ ¬t.Has a

def select (s e : Entity E) : Entity E := truth (∃ a, e = element a ∧ s.Has a)

def subset (s t : Entity E) : Entity E := truth (∀ a, s.Has a → t.Has a)

def equal (a b : Entity E) : Entity E := truth (a = b)

def connect (a : Entity E) (c : Connective) (b : Entity E) : Entity E :=
  match c with
  | .and => truth (a.Holds ∧ b.Holds)
  | .or => truth (a.Holds ∨ b.Holds)
  | .implies => truth (a.Holds → b.Holds)
  | .iff => equal a b

end Entity

/-- A meaning of each declaration. -/
abbrev Structure (E : Type) := (d : Declaration) → List (Entity E) → d.result.Carrier E

/-- A meaning of each use of a name, of the sort that the table gives it. -/
abbrev Table.Structure (τ : Table) (E : Type) :=
  (u : Usage) → List (Entity E) → (τ u).result.Carrier E

variable {E : Type}

mutual

/-- The meaning of an expression; `bound` lists the elements of its quantifiers, the innermost first. -/
def Expr.denote (J : Structure E) (bound : List E) : Expr → Entity E
  | .symbol name s args => ⟨s, J ⟨name, args.map Expr.domain, s⟩ (Expr.denoteAll J bound args)⟩
  | .bound k => (bound[k]?).elim (.truth False) .element
  | .all _ body => .truth (∀ a, (body.denote J (a :: bound)).Holds)
  | .truth b => .truth (b = true)
  | .emptySet => .ofSet fun _ => False
  | .store s e present => (s.denote J bound).store (e.denote J bound) present
  | .union s t => (s.denote J bound).union (t.denote J bound)
  | .inter s t => (s.denote J bound).inter (t.denote J bound)
  | .diff s t => (s.denote J bound).diff (t.denote J bound)
  | .select s e => (s.denote J bound).select (e.denote J bound)
  | .subset s t => (s.denote J bound).subset (t.denote J bound)
  | .equal a b => (a.denote J bound).equal (b.denote J bound)
  | .not a => .truth ¬(a.denote J bound).Holds
  | .and a b => (a.denote J bound).connect .and (b.denote J bound)
  | .or a b => (a.denote J bound).connect .or (b.denote J bound)
  | .implies a b => (a.denote J bound).connect .implies (b.denote J bound)

def Expr.denoteAll (J : Structure E) (bound : List E) : List Expr → List (Entity E)
  | [] => []
  | e :: es => e.denote J bound :: Expr.denoteAll J bound es

end

variable {τ : Table}

mutual

/-- The meaning of a term; `env` gives elements to the names that quantifiers bind, the innermost first. -/
def denoteTerm (I : τ.Structure E) (env : List (String × E)) : Term → Entity E
  | .var x => (env.lookup x).elim ⟨_, I (.var x) []⟩ .element
  | .app f args => ⟨_, I (.function f args.length) (denoteTerms I env args)⟩
  | .empty => .ofSet fun _ => False
  | .singleton e => (Entity.ofSet fun _ => False).store (denoteTerm I env e) true
  | .add e s => (denoteTerm I env s).store (denoteTerm I env e) true
  | .remove e s => (denoteTerm I env s).store (denoteTerm I env e) false
  | .union s t => (denoteTerm I env s).union (denoteTerm I env t)
  | .inter s t => (denoteTerm I env s).inter (denoteTerm I env t)
  | .diff s t => (denoteTerm I env s).diff (denoteTerm I env t)

def denoteTerms (I : τ.Structure E) (env : List (String × E)) : List Term → List (Entity E)
  | [] => []
  | t :: ts => denoteTerm I env t :: denoteTerms I env ts

end

def denoteAtom (I : τ.Structure E) (env : List (String × E)) : Atom → Entity E
  | .eq l r | .setEq l r => (denoteTerm I env l).equal (denoteTerm I env r)
  | .mem e s => (denoteTerm I env s).select (denoteTerm I env e)
  | .isEmpty s => (denoteTerm I env s).equal (.ofSet fun _ => False)
  | .subset s t => (denoteTerm I env s).subset (denoteTerm I env t)
  | .pred p args => ⟨_, I (.predicate p args.length) (denoteTerms I env args)⟩

def denoteFormula (I : τ.Structure E) : List (String × E) → Formula → Entity E
  | _, .top => .truth True
  | _, .bot => .truth False
  | env, .atom a => denoteAtom I env a
  | env, .not f => .truth ¬(denoteFormula I env f).Holds
  | env, .connect c l r => (denoteFormula I env l).connect c (denoteFormula I env r)
  | env, .all x f => .truth (∀ a, (denoteFormula I ((x, a) :: env) f).Holds)

/-! ## The uses of names in a formula -/

mutual

def termUses : Term → List Usage
  | .var x => [.var x]
  | .app f args => .function f args.length :: listUses args
  | .empty => []
  | .singleton e => termUses e
  | .add a b | .remove a b | .union a b | .inter a b | .diff a b => termUses a ++ termUses b

def listUses : List Term → List Usage
  | [] => []
  | t :: ts => termUses t ++ listUses ts

end

def atomUses : Atom → List Usage
  | .pred p args => .predicate p args.length :: listUses args
  | a => listUses a.args

/-- The uses of names in a formula; a quantifier uses its name as a variable. -/
def formulaUses : Formula → List Usage
  | .top | .bot => []
  | .atom a => atomUses a
  | .not f => formulaUses f
  | .connect _ l r => formulaUses l ++ formulaUses r
  | .all x f => .var x :: formulaUses f

/-! ## Translations keep meanings -/

/-- The structure gives the uses their meanings. No name of a function without arguments is also that of a
variable, and no quantifier around binds it. -/
structure Reflects (J : Structure E) (I : τ.Structure E) (scope : List String) (uses : List Usage) :
    Prop where
  agrees : ∀ u ∈ uses, J (τ u) = I u
  free : ∀ f, .function f 0 ∈ uses → f ∉ scope
  apart : ∀ f, .function f 0 ∈ uses → .var f ∉ uses

namespace Reflects

variable {J : Structure E} {I : τ.Structure E} {scope : List String} {us us' : List Usage}

theorem of_subset (h : Reflects J I scope us') (hs : us ⊆ us') : Reflects J I scope us :=
  ⟨fun u hu => h.agrees u (hs hu), fun f hf => h.free f (hs hf), fun f hf hv => h.apart f (hs hf) (hs hv)⟩

theorem left (h : Reflects J I scope (us ++ us')) : Reflects J I scope us :=
  h.of_subset (List.subset_append_left us us')

theorem right (h : Reflects J I scope (us ++ us')) : Reflects J I scope us' :=
  h.of_subset (List.subset_append_right us us')

theorem tail {u : Usage} (h : Reflects J I scope (u :: us)) : Reflects J I scope us :=
  h.of_subset (List.subset_cons_self u us)

/-- Inside a quantifier. -/
theorem body {x : String} (h : Reflects J I scope (.var x :: us)) : Reflects J I (x :: scope) us := by
  refine ⟨h.tail.agrees, fun f hf hs => ?_, h.tail.apart⟩
  rcases List.mem_cons.1 hs with rfl | hs
  · exact h.apart f (.tail _ hf) (.head _)
  · exact h.tail.free f hf hs

end Reflects

theorem eq_of_fits {c : Bool} {e e' : Expr} (h : fits c e = some e') : c = true ∧ e = e' := by
  cases c with
  | true => exact ⟨rfl, Option.some.inj h⟩
  | false => cases h

theorem denote_apply {J : Structure E} {bound : List E} {d : Declaration} {es : List Expr} {e : Expr}
    (h : d.apply es = some e) : e.denote J bound = ⟨d.result, J d (Expr.denoteAll J bound es)⟩ := by
  obtain ⟨sorts, rfl⟩ := eq_of_fits h
  rw [Expr.denote, of_decide_eq_true sorts]

/-- The element that a quantifier binds to a name is the one at the position of the name. -/
theorem getElem?_idxOf? (env : List (String × E)) (x : String) :
    ((env.map Prod.fst).idxOf? x).map (fun k => (env.map Prod.snd)[k]?) = (env.lookup x).map some := by
  induction env with
  | nil => rfl
  | cons entry env ih =>
    obtain ⟨y, a⟩ := entry
    rw [List.map_cons, List.map_cons, List.idxOf?_cons, List.lookup_cons]
    by_cases h : x = y
    · simp [h]
    · have h' : y ≠ x := fun e => h e.symm
      simp only [beq_false_of_ne h, beq_false_of_ne h', ← ih]
      cases (env.map Prod.fst).idxOf? x <;> rfl

variable {J : Structure E} {I : τ.Structure E} {env : List (String × E)}

theorem denote_renderConstant {x : String} {u : Usage} {e : Expr}
    (h : renderConstant τ (env.map Prod.fst) x u = some e) (agrees : J (τ u) = I u) :
    e.denote J (env.map Prod.snd) = (env.lookup x).elim ⟨_, I u []⟩ .element := by
  have found := getElem?_idxOf? env x
  unfold renderConstant at h
  cases hx : (env.map Prod.fst).idxOf? x with
  | some k =>
    rw [hx, Option.map_some] at found
    rw [hx] at h
    cases h
    obtain ⟨a, ha, hk⟩ := Option.map_eq_some_iff.1 found.symm
    rw [Expr.denote, ← hk, ha]
    rfl
  | none =>
    rw [hx] at h found
    rw [denote_apply h, agrees, Option.map_eq_none_iff.1 found.symm]
    rfl

mutual

theorem denote_renderTerm : (t : Term) → {e : Expr} → renderTerm (env.map Prod.fst) t τ = some e →
    Reflects J I (env.map Prod.fst) (termUses t) → e.denote J (env.map Prod.snd) = denoteTerm I env t
  | .var x, e, h, hr => denote_renderConstant h (hr.agrees _ (List.mem_singleton.2 rfl))
  | .app f [], e, h, hr => by
    -- A quantifier over the name would bind the constant as well.
    have free : env.lookup f = none := by
      refine List.lookup_eq_none_iff.2 fun entry hentry => ?_
      have hne : f ≠ entry.1 := fun he =>
        hr.free f (List.mem_singleton.2 rfl) (he ▸ List.mem_map_of_mem hentry)
      exact bne_iff_ne.2 hne
    rw [denote_renderConstant h (hr.agrees _ (List.mem_singleton.2 rfl)), free]
    rfl
  | .app f (t :: ts), e, h, hr => by
    obtain ⟨es, hes, h⟩ := Option.bind_eq_some_iff.1 h
    rw [denote_apply h, hr.agrees _ (List.mem_cons_self ..), denote_renderTerms (t :: ts) hes hr.tail,
      denoteTerm]
  | .empty, e, h, hr => by
    cases h
    rfl
  | .singleton t, e, h, hr => by
    obtain ⟨t', ht, h⟩ := Option.bind_eq_some_iff.1 h
    obtain ⟨-, rfl⟩ := eq_of_fits h
    rw [Expr.denote, denoteTerm, denote_renderTerm t ht hr, Expr.denote]
  | .add a b, e, h, hr | .remove a b, e, h, hr => by
    obtain ⟨b', hb, h⟩ := Option.bind_eq_some_iff.1 h
    obtain ⟨a', ha, h⟩ := Option.bind_eq_some_iff.1 h
    obtain ⟨-, rfl⟩ := eq_of_fits h
    rw [Expr.denote, denoteTerm, denote_renderTerm a ha hr.left, denote_renderTerm b hb hr.right]
  | .union a b, e, h, hr | .inter a b, e, h, hr | .diff a b, e, h, hr => by
    obtain ⟨a', ha, h⟩ := Option.bind_eq_some_iff.1 h
    obtain ⟨b', hb, h⟩ := Option.bind_eq_some_iff.1 h
    obtain ⟨-, rfl⟩ := eq_of_fits h
    rw [Expr.denote, denoteTerm, denote_renderTerm a ha hr.left, denote_renderTerm b hb hr.right]

theorem denote_renderTerms : (ts : List Term) → {es : List Expr} →
    renderTerms (env.map Prod.fst) ts τ = some es → Reflects J I (env.map Prod.fst) (listUses ts) →
    Expr.denoteAll J (env.map Prod.snd) es = denoteTerms I env ts
  | [], es, h, hr => by
    cases h
    rfl
  | t :: ts, es, h, hr => by
    obtain ⟨e, he, h⟩ := Option.bind_eq_some_iff.1 h
    obtain ⟨es', hes, h⟩ := Option.bind_eq_some_iff.1 h
    cases h
    rw [Expr.denoteAll, denoteTerms, denote_renderTerm t he hr.left, denote_renderTerms ts hes hr.right]

end

theorem denote_renderAtom {a : Atom} {e : Expr} (h : renderAtom (env.map Prod.fst) a τ = some e)
    (hr : Reflects J I (env.map Prod.fst) (atomUses a)) :
    e.denote J (env.map Prod.snd) = denoteAtom I env a := by
  cases a with
  | pred p args =>
    obtain ⟨es, hes, h⟩ := Option.bind_eq_some_iff.1 h
    rw [denote_apply h, hr.agrees _ (List.mem_cons_self ..), denote_renderTerms args hes hr.tail, denoteAtom]
  | isEmpty s =>
    obtain ⟨s', hs, h⟩ := Option.bind_eq_some_iff.1 h
    obtain ⟨-, rfl⟩ := eq_of_fits h
    rw [Expr.denote, denoteAtom, denote_renderTerm s hs hr.left, Expr.denote]
  | eq a b | setEq a b | mem a b | subset a b =>
    obtain ⟨a', ha, h⟩ := Option.bind_eq_some_iff.1 h
    obtain ⟨b', hb, h⟩ := Option.bind_eq_some_iff.1 h
    obtain ⟨-, rfl⟩ := eq_of_fits h
    rw [Expr.denote, denoteAtom, denote_renderTerm a ha hr.left, denote_renderTerm b hb hr.right.left]

theorem denote_renderConnect {c : Connective} {a b e : Expr} {bound : List E}
    (h : renderConnect c a b = some e) :
    e.denote J bound = (a.denote J bound).connect c (b.denote J bound) := by
  cases c with
  | iff =>
    unfold renderConnect at h
    dsimp only at h
    split at h
    · obtain ⟨-, rfl⟩ := eq_of_fits h
      rw [Expr.denote]
      exact congrArg Entity.truth (propext eq_comm)
    · obtain ⟨-, rfl⟩ := eq_of_fits h
      rw [Expr.denote]
      rfl
  | and | or | implies =>
    obtain ⟨-, rfl⟩ := eq_of_fits h
    rw [Expr.denote]

theorem denote_renderFormula (env : List (String × E)) {f : Formula} {e : Expr}
    (h : renderFormula (env.map Prod.fst) f τ = some e)
    (hr : Reflects J I (env.map Prod.fst) (formulaUses f)) :
    e.denote J (env.map Prod.snd) = denoteFormula I env f := by
  induction f generalizing env e with
  | top | bot =>
    cases h
    simp [Expr.denote, denoteFormula]
  | atom a => exact denote_renderAtom h hr
  | not f ih =>
    obtain ⟨e', he, h⟩ := Option.bind_eq_some_iff.1 h
    obtain ⟨-, rfl⟩ := eq_of_fits h
    rw [Expr.denote, denoteFormula, ih env he hr]
  | connect c l r ihl ihr =>
    obtain ⟨a, ha, h⟩ := Option.bind_eq_some_iff.1 h
    obtain ⟨b, hb, h⟩ := Option.bind_eq_some_iff.1 h
    rw [denote_renderConnect h, ihl env ha hr.left, ihr env hb hr.right, denoteFormula]
  | all x f ih =>
    obtain ⟨body, hb, h⟩ := Option.bind_eq_some_iff.1 h
    obtain ⟨-, rfl⟩ := eq_of_fits h
    have values (a : E) : body.denote J (a :: env.map Prod.snd) = denoteFormula I ((x, a) :: env) f :=
      ih ((x, a) :: env) hb hr.body
    rw [Expr.denote, denoteFormula]
    simp only [values]

/-! ## Structures for separate uses -/

theorem nonempty_carrier [Nonempty E] (s : Domain) : Nonempty (s.Carrier E) := by
  cases s with
  | elem => exact ‹Nonempty E›
  | set => exact ⟨fun _ => False⟩
  | bool => exact ⟨False⟩

/-- Uses with different declarations can have any meanings. -/
theorem exists_structure [Nonempty E] {us : List Usage} (apart : ∀ u ∈ us, ∀ u' ∈ us, τ u = τ u' → u = u')
    (I : τ.Structure E) : ∃ J : Structure E, ∀ u ∈ us, J (τ u) = I u := by
  -- A declaration takes its meaning from the only use that has it, if there is one.
  have each (d : Declaration) :
      ∃ m : List (Entity E) → d.result.Carrier E, ∀ u ∈ us, τ u = d → HEq m (I u) := by
    by_cases h : ∃ u ∈ us, τ u = d
    · obtain ⟨u, hu, rfl⟩ := h
      refine ⟨I u, fun u' hu' he => ?_⟩
      rw [apart u' hu' u hu he]
    · have ⟨default⟩ := nonempty_carrier (E := E) d.result
      exact ⟨fun _ => default, fun u hu he => absurd ⟨u, hu, he⟩ h⟩
  exact ⟨fun d => (each d).choose, fun u hu => eq_of_heq ((each (τ u)).choose_spec u hu rfl)⟩

/-! ## The encoder -/

/-- The uses of names in a list of formulas. -/
def uses (fs : List Formula) : List Usage := fs.flatMap formulaUses

/-- **The encoder translates by one table**, whatever formulas it meets in whatever order. The table gives two
uses of names the same declaration in two cases only: a variable and a function without arguments of one name,
and a function and a predicate of one name that take the same number of arguments and at least one. Formulas
without such a pair of uses keep every meaning: whatever the uses are made to mean, each on its own, some
structure of the solver gives each encoded formula the meaning of the formula. -/
theorem encode_keeps_symbols (v : Vocabulary) (fs : List Formula) :
    ∃ τ : Table, (∀ u u' : Usage, τ u = τ u' ↔ u = u' ∨ u.Merges u' ∨ u'.Merges u) ∧
      ((encodeAll v fs).run {}).1.map Except.toOption = fs.map (renderFormula [] · τ) ∧
      ((∀ u ∈ uses fs, ∀ u' ∈ uses fs, ¬u.Merges u') → ∀ (E : Type) [Nonempty E] (I : τ.Structure E),
        ∃ J : Structure E, ∀ f ∈ fs, ∀ e, renderFormula [] f τ = some e →
          e.denote J [] = denoteFormula I [] f) := by
  have empty : Declarations.Sound {} := ⟨fun _ _ h => (by cases h), fun _ _ _ h => (by cases h)⟩
  obtain ⟨sound, -, results⟩ := encodeAll_by_table v fs {} ((encodeAll v fs).run {}).2
  have same := Declarations.table_eq_iff (sound empty)
  refine ⟨_, same, results (.refl _), fun apart E _ I => ?_⟩
  have distinct : ∀ u ∈ uses fs, ∀ u' ∈ uses fs, _ = _ → u = u' := fun u hu u' hu' he => by
    rcases (same u u').1 he with h | h | h
    · exact h
    · exact absurd h (apart u hu u' hu')
    · exact absurd h (apart u' hu' u hu)
  obtain ⟨J, hJ⟩ := exists_structure distinct I
  refine ⟨J, fun f hf e he => ?_⟩
  have reflects : Reflects J I [] (uses fs) :=
    ⟨hJ, fun _ _ h => (by cases h), fun f hf hv => apart _ hv _ hf (.constant f)⟩
  exact denote_renderFormula [] he (reflects.of_subset fun u hu => List.mem_flatMap.2 ⟨f, hf, hu⟩)

/-- The equation of a variable with a function without arguments, both named `x`. -/
def merged : Formula := .atom (.eq (.var "x") (.app "x" []))

/-- The equation `merged` becomes that of a constant with itself, which holds in every structure, although the
two sides can differ. An equation of functions and an equivalence of predicates become the same expression. -/
theorem encode_merges_symbols :
    (∃ e, encode [merged] = [.ok e] ∧ ∀ (E : Type) (J : Structure E), (e.denote J []).Holds) ∧
      (∃ (τ : Table) (I : τ.Structure Bool), ¬(denoteFormula I [] merged).Holds) ∧
      ∃ e, encode [.atom (.eq (.app "P" [.var "x"]) (.app "Q" [.var "x"])),
        .iff (.atom (.pred "P" [.var "x"])) (.atom (.pred "Q" [.var "x"]))] = [.ok e, .ok e] := by
  refine ⟨⟨_, rfl, fun E J => ?_⟩,
    ⟨fun u => ⟨u.name, [], .elem⟩, fun u _ => decide (u = .var "x"), ?_⟩, _, rfl⟩
  · rw [Expr.denote]
    exact rfl
  · intro same
    have sides : (Entity.element true) = .element false := same
    exact Bool.noConfusion (eq_of_heq (Entity.mk.inj sides).2)

end SetSequent.Solver
