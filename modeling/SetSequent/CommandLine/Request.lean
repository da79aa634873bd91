import SetSequent.CommandLine.Word

/-!
# Requests

* `Setting` — what an option with a value is set to.
* `Request` — what a command line asks for: one problem file and the options.
* `Refusal` — a command line that asks for help, or that cannot be understood.
* `Request.ofArguments` — reads a command line.

Words are taken from left to right, and the first one that stops the reading decides. Values left
over, options that do not exist and a missing file are noticed at the end.
-/

namespace SetSequent.CommandLine

/-- A command line that leads to no run. -/
inductive Refusal where
  | help
  | misuse
  deriving DecidableEq, Repr

def Refusal.exitCode : Refusal → Nat
  | .help => 0
  | .misuse => 2

/-- What an option is set to. A `--` attached to an option by an equals sign is dropped like any
separator, which leaves the option set and empty. -/
inductive Setting (α : Type) where
  | empty
  | value (a : α)
  deriving DecidableEq, Repr

/-- Reads the text of a value. -/
def Setting.read (read? : String → Option α) (text : String) : Except Refusal (Setting α) :=
  if text = "--" then .ok .empty
  else
    match read? text with
    | some a => .ok (.value a)
    | none => .error .misuse

structure Request where
  file : String
  usePull : Bool := true
  maxSplits : Option (Setting Int) := none
  /-- The predicates that are declared decidable, in order. -/
  decidable : List (Setting String) := []
  certificate : Bool := false
  crosscheck : Bool := false
  /-- Seconds for a cross-check. -/
  timeout : Setting Int := .value 5
  logLevel : Setting String := .value "WARNING"
  deriving DecidableEq, Repr

/-- What has been read so far. -/
structure Progress where
  request : Request := { file := "" }
  /-- Whether the file has been named. -/
  hasFile : Bool := false
  /-- Whether something was left over. -/
  hasSurplus : Bool := false

def logLevels : List String := ["DEBUG", "INFO", "WARNING", "ERROR"]

namespace Request

/-- Turns on an option without a value. -/
def turnOn (r : Request) : Switch → Except Refusal Request
  | .help => .error .help
  | .noPull => .ok { r with usePull := false }
  | .certificate => .ok { r with certificate := true }
  | .crosscheck => .ok { r with crosscheck := true }
  | .maxSplits | .decidable | .timeout | .logLevel => .error .misuse

/-- Sets an option to the value with the given text. -/
def assign (r : Request) (text : String) : Switch → Except Refusal Request
  | .maxSplits => do
    let n ← Setting.read Text.readInt? text
    return { r with maxSplits := some n }
  | .timeout => do
    let n ← Setting.read Text.readInt? text
    return { r with timeout := n }
  | .logLevel => do
    let level ← Setting.read (fun t => logLevels.find? (· == t)) text
    return { r with logLevel := level }
  | .decidable => do
    let name ← Setting.read some text
    return { r with decidable := r.decidable ++ [name] }
  | .help | .noPull | .certificate | .crosscheck => .error .misuse

end Request

/-- The short form of help may be repeated, with or without an equals sign after the first letter.
Nothing else may follow it. -/
def shortHelp : List Char → Refusal
  | [] => .help
  | ['='] => .misuse
  | '=' :: tail => repeated tail
  | tail => repeated tail
where
  repeated (tail : List Char) : Refusal := if tail.all (· == 'h') then .help else .misuse

namespace Progress

/-- The first value names the file, every other one is left over. -/
def addValue (p : Progress) (value : String) : Progress :=
  if p.hasFile then { p with hasSurplus := true }
  else { p with request := { p.request with file := value }, hasFile := true }

/-- Takes the words from left to right. The value that names the file may have the separator on
either side. -/
def consume (p : Progress) : List Word → Except Refusal Progress
  | [] => .ok p
  | .separator :: .value v :: rest => consume (p.addValue v) rest
  | .separator :: rest => consume { p with hasSurplus := true } rest
  | .value v :: .separator :: rest => consume (p.addValue v) rest
  | .value v :: rest => consume (p.addValue v) rest
  | .switch s (some v) :: rest => do
    let r ← p.request.assign v s
    consume { p with request := r } rest
  | .switch s none :: rest =>
    if s.takesValue then
      match rest with
      | .value v :: rest => do
        let r ← p.request.assign v s
        consume { p with request := r } rest
      | _ => .error .misuse
    else do
      let r ← p.request.turnOn s
      consume { p with request := r } rest
  | .shortHelp tail :: _ => .error (shortHelp tail)
  | .unknown :: rest => consume { p with hasSurplus := true } rest

end Progress

def Request.ofArguments (arguments : List String) : Except Refusal Request :=
  match Word.ofArguments arguments with
  | .error .ambiguous => .error .misuse
  | .ok words => do
    let p ← Progress.consume {} words
    if p.hasFile && !p.hasSurplus then return p.request else .error .misuse

end SetSequent.CommandLine
