import SetSequent.Text.Integer

/-!
# Words of a command line

* `Switch` — the options, with their long names.
* `Word` — what an argument is before its neighbours are looked at.
* `Word.ofText` — reads one argument. A long name may be cut short where that leaves one option, and
  a value may follow it behind an equals sign.
* `Word.ofArguments` — reads all arguments; behind the first `--` each one is a value.
-/

namespace SetSequent.CommandLine

inductive Switch where
  | help
  | noPull
  | maxSplits
  | decidable
  | certificate
  | crosscheck
  | timeout
  | logLevel
  deriving DecidableEq, Repr

namespace Switch

def all : List Switch :=
  [.help, .noPull, .maxSplits, .decidable, .certificate, .crosscheck, .timeout, .logLevel]

def longName : Switch → String
  | .help => "--help"
  | .noPull => "--no-pull"
  | .maxSplits => "--max-splits"
  | .decidable => "--decidable"
  | .certificate => "--certificate"
  | .crosscheck => "--crosscheck"
  | .timeout => "--timeout"
  | .logLevel => "--log-level"

def takesValue : Switch → Bool
  | .maxSplits | .decidable | .timeout | .logLevel => true
  | .help | .noPull | .certificate | .crosscheck => false

/-- The options whose long name starts with the given characters; the whole name leaves one. -/
def startingWith (cs : List Char) : List Switch :=
  match all.filter fun s => s.longName.toList = cs with
  | [] => all.filter fun s => cs.isPrefixOf s.longName.toList
  | whole => whole

end Switch

/-- What an argument is before its neighbours are looked at. -/
inductive Word where
  /-- The `--` behind which no option stands. -/
  | separator
  | value (text : String)
  /-- An option, with the value attached to it by an equals sign. -/
  | switch (s : Switch) (attached : Option String)
  /-- A request for help in its short form, with the characters that follow it. -/
  | shortHelp (tail : List Char)
  /-- An option that does not exist. -/
  | unknown
  deriving DecidableEq, Repr

/-- A long name that was cut too short to tell options apart. -/
inductive Ambiguity where
  | ambiguous
  deriving DecidableEq, Repr

namespace Word

/-- An argument with a dash in front that names no option: a negative number or a text with a space
in it is a value. -/
def ofStray (s : String) : Word :=
  if Text.looksNegative s || s.toList.contains ' ' then .value s else .unknown

/-- Splits at the first equals sign. -/
def splitAttached (cs : List Char) : List Char × Option String :=
  match cs.dropWhile (· ≠ '=') with
  | [] => (cs, none)
  | _ :: text => (cs.takeWhile (· ≠ '='), some (String.ofList text))

def ofText (s : String) : Except Ambiguity Word :=
  match s.toList with
  | '-' :: '-' :: rest =>
    let (name, attached) := splitAttached ('-' :: '-' :: rest)
    match Switch.startingWith name with
    | [] => .ok (ofStray s)
    | [option] => .ok (.switch option attached)
    | _ => .error .ambiguous
  | '-' :: 'h' :: tail => .ok (.shortHelp tail)
  | ['-'] => .ok (.value s)
  | '-' :: _ => .ok (ofStray s)
  | _ => .ok (.value s)

def ofArguments : List String → Except Ambiguity (List Word)
  | [] => .ok []
  | "--" :: rest => .ok (.separator :: rest.map .value)
  | s :: rest => do
    let word ← ofText s
    let words ← ofArguments rest
    return word :: words

end Word

end SetSequent.CommandLine
