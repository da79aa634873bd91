import SetSequent.Text.Blank
import SetSequent.Text.Numeral

/-!
# Integers in text

An integer is written with decimal digits of any script, a single low line between two digits if
the writer likes, and a sign in front. Blanks around it do not count.
-/

namespace SetSequent.Text

/-- The blanks that may stand around an integer: of ASCII only the space and the characters from
the tab to the carriage return. -/
def isPadding (c : Char) : Bool :=
  if c.toNat < 128 then c.toNat == 32 || (9 ≤ c.toNat && c.toNat ≤ 13) else isBlank c

/-- The values of one or more digits, with at most one low line between neighbours. -/
def digitValues? : List Char → Option (List Nat)
  | [] => none
  | [c] => (decimalValue? c).map ([·])
  | c :: '_' :: rest => do
    let d ← decimalValue? c
    let ds ← digitValues? rest
    return d :: ds
  | c :: rest => do
    let d ← decimalValue? c
    let ds ← digitValues? rest
    return d :: ds

/-- The most digits that an integer may have. -/
def maxDigits : Nat := 4300

def readNat? (cs : List Char) : Option Nat := do
  let ds ← digitValues? cs
  guard (ds.length ≤ maxDigits)
  return ds.foldl (fun n d => 10 * n + d) 0

def readInt? (s : String) : Option Int :=
  let cs := ((s.toList.dropWhile isPadding).reverse.dropWhile isPadding).reverse
  match cs with
  | '-' :: rest => (readNat? rest).map fun n => -(n : Int)
  | '+' :: rest => (readNat? rest).map Int.ofNat
  | rest => (readNat? rest).map Int.ofNat

/-- Whether a text is a minus sign with digits behind it, and perhaps a point before the last of
them. A line feed may end it. -/
def looksNegative (s : String) : Bool :=
  match s.toList with
  | '-' :: rest =>
    let rest := if rest.getLast? == some '\n' then rest.dropLast else rest
    match rest.dropWhile isDecimal with
    | [] => !rest.isEmpty
    | '.' :: fraction => !fraction.isEmpty && fraction.all isDecimal
    | _ => false
  | _ => false
where
  isDecimal (c : Char) : Bool := (decimalValue? c).isSome

end SetSequent.Text
