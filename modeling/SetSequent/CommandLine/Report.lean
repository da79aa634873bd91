import SetSequent.CommandLine.Request
import SetSequent.Decision
import SetSequent.Problem
import SetSequent.Text.Quoted

/-!
# Reports

* `Source` — what stands under the name of a problem file.
* `Report` — what a run prints and the code it ends with.
* `RunError` — why a run ends without a report.
* `Request.run` — decides the problem and reports.

An option that was set and left empty stops a run only at the point where its value is needed.
-/

namespace SetSequent.CommandLine

/-- What stands under the name of a file. -/
inductive Source where
  | missing
  | directory
  | file (content : ByteArray)

structure Report where
  exitCode : Nat
  /-- The text for the standard output. -/
  output : String := ""
  /-- The lines for the standard error. -/
  errors : List String := []

/-- Why a run ends without a report. -/
inductive RunError where
  /-- The bytes of the file are no text. -/
  | invalidBytes
  /-- An option is needed that was set and left empty. -/
  | emptySetting (option : Switch)
  deriving DecidableEq, Repr

/-- A text with a line feed for each line end made of a carriage return, alone or with the line feed
after it. -/
def unifyLineEnds : List Char → List Char
  | [] => []
  | '\r' :: '\n' :: rest => '\n' :: unifyLineEnds rest
  | c :: rest => (if c = '\r' then '\n' else c) :: unifyLineEnds rest

/-- The shortest name of the same path: without empty steps and steps in place. Two slashes in front
differ from one. -/
def tidyPath (path : String) : String :=
  let steps := (path.splitOn "/").filter fun s => s ≠ "" && s ≠ "."
  let root :=
    match path.toList with
    | '/' :: '/' :: '/' :: _ => "/"
    | '/' :: '/' :: _ => "//"
    | '/' :: _ => "/"
    | _ => ""
  if root = "" && steps.isEmpty then "." else root ++ "/".intercalate steps

namespace Report

def failure (message : String) : Report :=
  { exitCode := 1, errors := ["Error: " ++ message] }

end Report

namespace Request

/-- The standard table with the predicates that are declared decidable. -/
def table (r : Request) : Except RunError DecidabilityTable :=
  r.decidable.foldlM declare .standard
where
  declare (t : DecidabilityTable) : Setting String → Except RunError DecidabilityTable
    | .value p => .ok (t.registerPredicate p none)
    | .empty => .error (.emptySetting .decidable)

/-- Decides the sequent. The first split needs the value of a split budget that was set. -/
def decide (r : Request) (t : DecidabilityTable) (s : Sequent) : Except RunError Decision :=
  let options : Options := { table := t, usePull := r.usePull }
  match r.maxSplits with
  | none => .ok (s.decide options)
  | some (.value n) => .ok (s.decide { options with maxSplits := some n })
  | some .empty =>
    let decision := s.decide { options with maxSplits := some 0 }
    if decision.splits = 0 then .ok decision else .error (.emptySetting .maxSplits)

/-- Reports a decision. No solver is attached, so a cross-check knows nothing. -/
def report (r : Request) (d : Decision) : Report :=
  let certificate := if r.certificate then d.certificate else none
  let certificateText :=
    match certificate with
    | none => ""
    | some c => c.text ++ "\n"
  let defects :=
    match certificate with
    | none => []
    | some c => c.defects.map fun d => "Certificate error: " ++ d.message
  let crosscheck := if r.crosscheck then "z3: unknown\n" else ""
  { exitCode := 0
    output := d.verdict.text ++ "\n" ++ certificateText ++ crosscheck
    errors := defects }

def runText (r : Request) (text : String) : Except RunError Report :=
  match Problem.read (String.ofList (unifyLineEnds text.toList)) with
  | .error e => .ok (.failure e.message)
  | .ok s => do
    let t ← r.table
    let d ← r.decide t s
    return r.report d

/-- Runs on what stands under the name of the file. -/
def runSource (r : Request) : Source → Except RunError Report
  | .missing => .ok (.failure ("File not found: " ++ r.file))
  | .directory =>
    .ok (.failure ("[Errno 21] Is a directory: " ++ Text.quoted (tidyPath r.file)))
  | .file content =>
    match String.fromUTF8? content with
    | none => .error .invalidBytes
    | some text => r.runText text

/-- A missing file is noticed first; then the log is set up, which needs its level. -/
def run (r : Request) (source : Source) : Except RunError Report :=
  match source, r.logLevel with
  | .missing, _ | _, .value _ => r.runSource source
  | _, .empty => .error (.emptySetting .logLevel)

end Request

end SetSequent.CommandLine
