/-!
# Journals

Each stage of the procedure notes what it did and what it could not do.

* `Step`, `Diagnostic`, `Note` — one entry.
* `Journal` — the entries of one attempt; a diagnostic is kept once.
* `Noted` — a value together with the notes made on the way to it. The value never depends on what
  was noted before.
-/

namespace SetSequent

/-- One deterministic change made before the search. -/
structure Step where
  stage : String
  description : String
  deriving DecidableEq, Repr

def Step.text (s : Step) : String := "[" ++ s.stage ++ "] " ++ s.description

/-- Why a part of the procedure did not apply. -/
inductive DiagnosticKind where
  | outOfFragment
  | obligationUnmet
  | stuck
  | budgetExhausted
  deriving DecidableEq, Repr

namespace DiagnosticKind

def name : DiagnosticKind → String
  | .outOfFragment => "OutOfFragment"
  | .obligationUnmet => "DecidabilityObligationUnmet"
  | .stuck => "Stuck"
  | .budgetExhausted => "BudgetExhausted"

def ofName? (s : String) : Option DiagnosticKind :=
  [outOfFragment, obligationUnmet, stuck, budgetExhausted].find? (·.name == s)

end DiagnosticKind

structure Diagnostic where
  kind : DiagnosticKind
  detail : String
  deriving DecidableEq, Repr

def Diagnostic.text (d : Diagnostic) : String := d.kind.name ++ ": " ++ d.detail

inductive Note where
  | step (s : Step)
  | diagnostic (d : Diagnostic)
  deriving DecidableEq, Repr

structure Journal where
  steps : List Step := []
  diagnostics : List Diagnostic := []
  deriving DecidableEq, Repr

namespace Journal

def add (j : Journal) : Note → Journal
  | .step s => { j with steps := j.steps ++ [s] }
  | .diagnostic d =>
    if j.diagnostics.contains d then j else { j with diagnostics := j.diagnostics ++ [d] }

def addAll (j : Journal) (notes : List Note) : Journal := notes.foldl add j

def ofNotes (notes : List Note) : Journal := addAll {} notes

def ofKind (j : Journal) (kind : DiagnosticKind) : List Diagnostic :=
  j.diagnostics.filter (·.kind == kind)

end Journal

structure Noted (α : Type) where
  value : α
  notes : List Note := []

namespace Noted

instance : Monad Noted where
  pure a := ⟨a, []⟩
  bind x f :=
    let y := f x.value
    ⟨y.value, x.notes ++ y.notes⟩

@[simp] theorem value_pure {α : Type} (a : α) : (pure a : Noted α).value = a := rfl

@[simp] theorem notes_pure {α : Type} (a : α) : (pure a : Noted α).notes = [] := rfl

@[simp] theorem value_bind {α β : Type} (x : Noted α) (f : α → Noted β) :
    (x >>= f).value = (f x.value).value := rfl

@[simp] theorem notes_bind {α β : Type} (x : Noted α) (f : α → Noted β) :
    (x >>= f).notes = x.notes ++ (f x.value).notes := rfl

@[simp] theorem value_map {α β : Type} (f : α → β) (x : Noted α) :
    (f <$> x).value = f x.value := rfl

@[simp] theorem notes_map {α β : Type} (f : α → β) (x : Noted α) : (f <$> x).notes = x.notes :=
  List.append_nil _

instance : LawfulMonad Noted :=
  LawfulMonad.mk' _ (fun x => by cases x; simp [Functor.map]) (fun _ _ => rfl)
    (fun _ _ _ => by simp [bind, List.append_assoc])

end Noted

/-- Notes a step of the named stage. -/
def noteStep (stage description : String) : Noted Unit :=
  ⟨(), [.step { stage := stage, description := description }]⟩

def noteDiagnostic (kind : DiagnosticKind) (detail : String) : Noted Unit :=
  ⟨(), [.diagnostic { kind := kind, detail := detail }]⟩

end SetSequent
