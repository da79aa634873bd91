import SetSequent.Text.Blank
import SetSequent.Text.Letter
import SetSequent.Text.Numeral
import SetSequent.Text.Capital

/-!
# Tokens

A text is cut into words and single symbols. A word is a longest run of letters, numerals and
underscores; blanks separate tokens and are dropped.

* `Token.ofText` — the tokens of a text.
* `Token.isName`, `Token.isCapitalised` — the words that can name something, and those that can name
  a predicate.
-/

namespace SetSequent

abbrev Token := String

namespace Token

def isWordChar (c : Char) : Bool := Text.isLetter c || Text.isNumeral c || c == '_'

def scan : List Char → List (List Char)
  | [] => []
  | c :: cs =>
    if Text.isBlank c then scan cs
    else if isWordChar c then (c :: cs.takeWhile isWordChar) :: scan (cs.dropWhile isWordChar)
    else [c] :: scan cs
termination_by cs => cs.length
decreasing_by
  · simp
  · exact Nat.lt_succ_of_le (List.dropWhile_sublist _).length_le
  · simp

def ofText (s : String) : List Token := (scan s.toList).map String.ofList

def keywords : List Token :=
  ["not", "and", "or", "implies", "iff", "forall", "in", "true", "false"]

/-- A token that starts like a word and is no keyword. -/
def isName (t : Token) : Bool :=
  match t.toList with
  | [] => false
  | c :: _ => (Text.isLetter c || c == '_') && !keywords.contains t

def isCapitalised (t : Token) : Bool :=
  match t.toList with
  | [] => false
  | c :: _ => Text.isCapital c

end Token

end SetSequent
