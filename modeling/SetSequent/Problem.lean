import SetSequent.Reader
import SetSequent.Sequent

/-!
# Problems

A problem is a text of lines. A line holds a formula, with or without a label; the line labelled
`goal` holds the goal and every other one a hypothesis. A number sign starts a comment.

* `Problem.splitLabel` — a label, a colon that no equals sign follows, and the rest.
* `Problem.read` — the sequent of a problem, or the first line that cannot be read.
-/

namespace SetSequent

inductive ProblemError where
  | line (number : Nat) (cause : ReadError)
  | secondGoal (number : Nat)
  | missingGoal
  deriving DecidableEq

def ProblemError.message : ProblemError → String
  | .line n cause => "line " ++ toString n ++ ": " ++ cause.message
  | .secondGoal n => "line " ++ toString n ++ ": more than one goal."
  | .missingGoal => "Missing goal."

namespace Problem

/-- The characters of a label after the first one. -/
def isLabelChar (c : Char) : Bool := Token.isWordChar c || c == '.'

/-- Cuts a line into its label and its formula, if it has a label. -/
def splitLabel : List Char → Option (List Char × List Char)
  | [] => none
  | c :: cs =>
    if c.isAlpha || c == '_' then
      match (cs.dropWhile isLabelChar).dropWhile Text.isBlank with
      | ':' :: '=' :: _ => none
      | ':' :: body => some (c :: cs.takeWhile isLabelChar, body.dropWhile Text.isBlank)
      | _ => none
    else none

/-- What is left of a line without its comment and the blanks around it. -/
def content (line : List Char) : List Char := Text.trim (line.takeWhile (· ≠ '#'))

/-- What has been read so far. -/
structure Entries where
  hypotheses : List Hypothesis := []
  goal : Option Formula := none

/-- Adds the formula of line `number` under its label. -/
def Entries.add (d : Entries) (number : Nat) (label : Option String) (f : Formula) :
    Except ProblemError Entries :=
  match label, d.goal with
  | some "goal", some _ => .error (.secondGoal number)
  | some "goal", none => .ok { d with goal := some f }
  | label, _ =>
    let name := label.getD ("H" ++ toString d.hypotheses.length)
    .ok { d with hypotheses := d.hypotheses ++ [{ name := name, formula := f }] }

/-- Reads line `number`. -/
def Entries.addLine (d : Entries) (number : Nat) (line : List Char) : Except ProblemError Entries :=
  match content line with
  | [] => .ok d
  | cs =>
    let (label, body) :=
      match splitLabel cs with
      | some (label, body) => (some (String.ofList label), body)
      | none => (none, cs)
    match readFormula ((Token.scan body).map String.ofList) with
    | .error e => .error (.line number e)
    | .ok f => d.add number label f

/-- Reads lines, the first of which has the given number. -/
def readLines (d : Entries) (number : Nat) : List (List Char) → Except ProblemError Entries
  | [] => .ok d
  | line :: rest =>
    match d.addLine number line with
    | .error e => .error e
    | .ok d => readLines d (number + 1) rest

def read (text : String) : Except ProblemError Sequent :=
  match readLines {} 1 (Text.lines text.toList) with
  | .error e => .error e
  | .ok d =>
    match d.goal with
    | none => .error .missingGoal
    | some goal => .ok ⟨d.hypotheses, goal⟩

end Problem

end SetSequent
