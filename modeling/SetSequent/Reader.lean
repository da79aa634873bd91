import SetSequent.Formula
import SetSequent.Token

/-!
# Reading formulas and terms

A formula is read from its tokens by cutting at the loosest connective. From loosest to tightest the
connectives are `iff`, `implies`, `or`, `and`, and all of them group to the right. A quantifier takes
everything to its right.

* `readTerm`, `readFormula` — from tokens.
* `Term.ofText`, `Formula.ofText` — from a text.
* `ReadError` — why a text cannot be read.
-/

namespace SetSequent

inductive ReadError where
  | missingTerm
  | unreadableTerm (tokens : List Token)
  | unclosed
  | trailing (name : Token)
  | missingArgument (name : Token)
  | wrongArity (name : Token) (expected got : Nat)
  | emptyApplied
  | emptyFormula
  | missingDot
  | missingVariable
  | missingBody
  | missingOperand (c : Connective)
  | missingNegand
  | emptyGroup
  | unreadable (tokens : List Token)
  | unreadableFrom (token : Token)
  deriving DecidableEq

def ReadError.message : ReadError → String
  | .missingTerm => "Missing term."
  | .unreadableTerm ts => "Unable to parse term: " ++ " ".intercalate ts
  | .unclosed => "Missing ')'."
  | .trailing name => "Unexpected tokens after " ++ name ++ "(...)."
  | .missingArgument name => "Missing argument of " ++ name ++ "."
  | .wrongArity name expected got =>
      name ++ " expects " ++ toString expected ++ " argument(s), got " ++ toString got ++ "."
  | .emptyApplied => "empty takes no arguments."
  | .emptyFormula => "Empty formula."
  | .missingDot => "Missing '.' in forall quantifier."
  | .missingVariable => "Missing variable in forall quantifier."
  | .missingBody => "Missing formula in forall quantifier."
  | .missingOperand c => "Missing formula in " ++ c.word.toUpper ++ " connective."
  | .missingNegand => "Missing formula in NOT connective."
  | .emptyGroup => "Missing formula in parenthetical group."
  | .unreadable ts => "Unable to parse: " ++ " ".intercalate ts
  | .unreadableFrom t => "Unable to parse: " ++ t ++ "..."

/-! ## Cutting token lists -/

/-- What a token adds to the depth of parentheses. -/
def nesting (t : Token) : Int := if t = "(" then 1 else if t = ")" then -1 else 0

/-- Cuts at the first token at depth zero that `cut` accepts, unless one that `stop` accepts comes
first. -/
def cutBy (stop cut : Token → Bool) (depth : Int) : List Token → Option (List Token × List Token)
  | [] => none
  | t :: ts =>
    if depth = 0 && stop t then none
    else if depth = 0 && cut t then some ([], ts)
    else (cutBy stop cut (depth + nesting t) ts).map fun (l, r) => (t :: l, r)

/-- Cuts at the first `word` outside parentheses. A quantifier outside parentheses hides everything
to its right. -/
def cutAt (word : Token) (tokens : List Token) : Option (List Token × List Token) :=
  cutBy (· = "forall") (· = word) 0 tokens

/-- Cuts the tokens after an opening parenthesis at the one that closes it. -/
def cutGroup (tokens : List Token) : Option (List Token × List Token) :=
  cutBy (fun _ => false) (· = ")") 0 tokens

/-- Cuts at the commas outside parentheses; `piece` holds the tokens of the open piece, last
first. -/
def cutCommasFrom (depth : Int) (piece : List Token) : List Token → List (List Token)
  | [] => [piece.reverse]
  | t :: ts =>
    if depth = 0 ∧ t = "," then piece.reverse :: cutCommasFrom depth [] ts
    else cutCommasFrom (depth + nesting t) (t :: piece) ts

def cutCommas (tokens : List Token) : List (List Token) := cutCommasFrom 0 [] tokens

theorem length_cutBy {stop cut : Token → Bool} {depth : Int} {ts l r : List Token}
    (h : cutBy stop cut depth ts = some (l, r)) : l.length + r.length + 1 = ts.length := by
  induction ts generalizing depth l r with
  | nil => simp [cutBy] at h
  | cons t ts ih =>
    rw [cutBy] at h
    split at h
    · cases h
    · split at h
      · cases h; simp
      · obtain ⟨⟨l', r'⟩, h', he⟩ := Option.map_eq_some_iff.1 h
        simp only [Prod.mk.injEq] at he
        obtain ⟨rfl, rfl⟩ := he
        have := ih h'
        simp; omega

/-- Every comma that is cut at separates two pieces. -/
theorem length_cutCommasFrom (depth : Int) (piece ts : List Token) :
    (cutCommasFrom depth piece ts).flatten.length + (cutCommasFrom depth piece ts).length
      = piece.length + ts.length + 1 := by
  induction ts generalizing depth piece with
  | nil => simp [cutCommasFrom]
  | cons t ts ih =>
    rw [cutCommasFrom]
    split
    · have := ih depth []
      simp at this ⊢; omega
    · rw [ih]; simp; omega

/-! ## Terms -/

/-- The constructors of sets with the number of arguments each takes. -/
def setConstructors : List (Token × Nat) :=
  [("singleton", 1), ("add", 2), ("remove", 2), ("union", 2), ("inter", 2), ("diff", 2)]

/-- The term that `name` makes of its arguments. -/
def applyName (name : Token) (args : List Term) : Except ReadError Term :=
  match name, args with
  | "singleton", [e] => .ok (.singleton e)
  | "add", [e, s] => .ok (.add e s)
  | "remove", [e, s] => .ok (.remove e s)
  | "union", [s, t] => .ok (.union s t)
  | "inter", [s, t] => .ok (.inter s t)
  | "diff", [s, t] => .ok (.diff s t)
  | "empty", _ => .error .emptyApplied
  | name, args =>
    match setConstructors.lookup name with
    | some arity => .error (.wrongArity name arity args.length)
    | none => .ok (.app name args)

/-- The token lists of the arguments in `name ( a , b )`, given the tokens after the opening
parenthesis. -/
def readArguments (name : Token) (tokens : List Token) : Except ReadError (List (List Token)) :=
  match cutGroup tokens with
  | none => .error .unclosed
  | some (_, _ :: _) => .error (.trailing name)
  | some ([], []) => .ok []
  | some (inner, []) =>
    let pieces := cutCommas inner
    if pieces.any (·.isEmpty) then .error (.missingArgument name) else .ok pieces

theorem length_readArguments {name : Token} {ts : List Token} {pieces : List (List Token)}
    (h : readArguments name ts = .ok pieces) :
    pieces.flatten.length + pieces.length ≤ ts.length := by
  unfold readArguments at h
  split at h
  · cases h
  · cases h
  · cases h; simp
  · rename_i inner _ hg
    simp only at h
    split at h
    · cases h
    · cases h
      have := length_cutBy hg
      have := length_cutCommasFrom 0 [] inner
      simp [cutCommas] at *; omega

mutual

def readTerm : List Token → Except ReadError Term
  | [] => .error .missingTerm
  | name :: rest =>
    if name.isName then
      match rest with
      | [] => .ok (if name = "empty" then .empty else .var name)
      | t :: rest =>
        if t = "(" then
          match _h : readArguments name rest with
          | .error e => .error e
          | .ok pieces =>
            match readTerms pieces with
            | .error e => .error e
            | .ok args => applyName name args
        else .error (.unreadableTerm (name :: t :: rest))
    else .error (.unreadableTerm (name :: rest))
termination_by tokens => 2 * tokens.length
decreasing_by
  have := length_readArguments _h
  simp only [List.length_cons]; omega

def readTerms : List (List Token) → Except ReadError (List Term)
  | [] => .ok []
  | piece :: pieces =>
    match readTerm piece with
    | .error e => .error e
    | .ok t =>
      match readTerms pieces with
      | .error e => .error e
      | .ok ts => .ok (t :: ts)
termination_by pieces => 2 * pieces.flatten.length + pieces.length
decreasing_by
  · simp; omega
  · simp; omega

end

/-! ## Atoms -/

/-- The reserved predicates with the number of arguments each takes. -/
def reservedPredicates : List (Token × Nat) :=
  [("Eq", 2), ("In", 2), ("Empty", 1), ("Subset", 2), ("Equal", 2)]

/-- The atom that `name` makes of its arguments. -/
def applyPredicate (name : Token) (args : List Term) : Except ReadError Atom :=
  match name, args with
  | "Eq", [a, b] => .ok (.eq a b)
  | "In", [a, b] => .ok (.mem a b)
  | "Empty", [s] => .ok (.isEmpty s)
  | "Subset", [s, t] => .ok (.subset s t)
  | "Equal", [s, t] => .ok (.setEq s t)
  | name, args =>
    match reservedPredicates.lookup name with
    | some arity => .error (.wrongArity name arity args.length)
    | none => .ok (.pred name args)

/-- Reads `Name` or `Name(args)`. -/
def readPredicate (name : Token) : List Token → Except ReadError Atom
  | [] => .ok (.pred name [])
  | t :: rest =>
    if t = "(" then do
      applyPredicate name (← readTerms (← readArguments name rest))
    else .error (.unreadable (name :: t :: rest))

/-- Reads an equation, a membership or a predicate. -/
def readAtom (name : Token) (rest : List Token) : Except ReadError Atom :=
  match cutAt "=" (name :: rest), cutAt "in" (name :: rest) with
  | some (l, r), _ => do return .eq (← readTerm l) (← readTerm r)
  | none, some (l, r) => do return .mem (← readTerm l) (← readTerm r)
  | none, none =>
    if name.isName && name.isCapitalised then readPredicate name rest
    else .error (.unreadableFrom name)

/-! ## Formulas -/

/-- Cuts at the loosest connective outside parentheses. -/
def cutConnective (tokens : List Token) : Option (Connective × List Token × List Token) :=
  [Connective.iff, .implies, .or, .and].findSome? fun c => (cutAt c.word tokens).map (c, ·)

theorem length_cutConnective {ts l r : List Token} {c : Connective}
    (h : cutConnective ts = some (c, l, r)) : l.length + r.length + 1 = ts.length := by
  obtain ⟨_, _, h⟩ := List.exists_of_findSome?_eq_some h
  obtain ⟨⟨l', r'⟩, h', he⟩ := Option.map_eq_some_iff.1 h
  simp only [Prod.mk.injEq] at he
  obtain ⟨_, rfl, rfl⟩ := he
  exact length_cutBy h'

/-- Cuts the tokens after `forall` at the first dot. -/
def cutDot (tokens : List Token) : Option (List Token × List Token) :=
  match tokens.dropWhile (· ≠ ".") with
  | [] => none
  | _ :: body => some (tokens.takeWhile (· ≠ "."), body)

theorem length_cutDot {ts binders body : List Token} (h : cutDot ts = some (binders, body)) :
    body.length < ts.length := by
  unfold cutDot at h
  split at h
  · cases h
  · rename_i hd
    cases h
    have := (List.dropWhile_sublist (l := ts) (· ≠ ".")).length_le
    simp only [hd, List.length_cons] at this
    omega

def readFormula : List Token → Except ReadError Formula
  | [] => .error .emptyFormula
  | first :: rest =>
    if first = "forall" then
      match _h : cutDot rest with
      | none => .error .missingDot
      | some (binders, body) =>
        let names := binders.filter (· ≠ ",")
        if names.isEmpty || !names.all Token.isName then .error .missingVariable
        else if body.isEmpty then .error .missingBody
        else do
          let f ← readFormula body
          return names.foldr .all f
    else
      match _h : cutConnective (first :: rest) with
      | some (c, l, r) =>
        if l.isEmpty || r.isEmpty then .error (.missingOperand c)
        else do
          let f ← readFormula l
          let g ← readFormula r
          return .connect c f g
      | none =>
        if first = "not" then
          if rest.isEmpty then .error .missingNegand
          else do
            let f ← readFormula rest
            return .not f
        else if first = "true" ∧ rest = [] then .ok .top
        else if first = "false" ∧ rest = [] then .ok .bot
        else if first = "(" then
          match _h : cutGroup rest with
          | none => .error .unclosed
          | some (inner, []) => if inner.isEmpty then .error .emptyGroup else readFormula inner
          | some _ => return .atom (← readAtom first rest)
        else return .atom (← readAtom first rest)
termination_by tokens => tokens.length
decreasing_by
  · have := length_cutDot _h; simp; omega
  · have := length_cutConnective _h; omega
  · have := length_cutConnective _h; omega
  · simp
  · have := length_cutBy _h; simp; omega

def Term.ofText (s : String) : Except ReadError Term := readTerm (Token.ofText s)

def Formula.ofText (s : String) : Except ReadError Formula := readFormula (Token.ofText s)

end SetSequent
