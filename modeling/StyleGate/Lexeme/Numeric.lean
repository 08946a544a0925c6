import StyleGate.Lexeme.Name
import StyleGate.Number.Numeral

/-!
# Numbers at the front of a text

A number is an optional sign, digits, a fraction, and an exponent that has digits. A percent sign
makes it a percentage, a name right after it a dimension.
-/

namespace StyleGate.Lexeme

open Number Text

/-- Whether a character is a decimal digit. -/
def isDigit (c : Char) : Bool := '0' ≤ c && c ≤ '9'

/-- The value of a decimal digit. -/
def digitValue (c : Char) : Nat := c.toNat - 48

/-- The decimal digits at the front of a text. -/
def digits (text : List Char) : List Char := text.takeWhile isDigit

/-- Whether a number without a sign is at the front of a text. -/
def startsUnsigned : List Char → Bool
  | '.' :: c :: _ => isDigit c
  | c :: _ => isDigit c
  | [] => false

/-- Whether a number is at the front of a text. -/
def startsNumber : List Char → Bool
  | '+' :: rest => startsUnsigned rest
  | '-' :: rest => startsUnsigned rest
  | text => startsUnsigned text

/-- The fraction at the front of a text and its length: a point and at least one digit. -/
def fraction : List Char → List Char × Nat
  | '.' :: rest =>
    let ds := digits rest
    if ds.isEmpty then ([], 0) else (ds, 1 + ds.length)
  | _ => ([], 0)

/-- A sign at the front of a text: whether it is a minus, and its length. -/
def sign : List Char → Bool × Nat
  | '+' :: _ => (false, 1)
  | '-' :: _ => (true, 1)
  | _ => (false, 0)

/-- The exponent at the front of a text and its length. -/
def exponent : List Char → Option (Bool × List Char) × Nat
  | c :: rest =>
    if c == 'e' || c == 'E' then
      let (negative, n) := sign rest
      let ds := digits (rest.drop n)
      if ds.isEmpty then (none, 0) else (some (negative, ds), 1 + n + ds.length)
    else (none, 0)
  | [] => (none, 0)

/-- The numeral at the front of a text and its length. -/
def numeral (text : List Char) : Numeral × Nat :=
  let (negative, s) := sign text
  let whole := digits (text.drop s)
  let n := s + whole.length
  let (frac, f) := fraction (text.drop n)
  let (power, e) := exponent (text.drop (n + f))
  ({ signed := s == 1
     negative
     whole := whole.map digitValue
     fraction := frac.map digitValue
     exponent := power.map fun (negative, ds) => (negative, ds.map digitValue) },
   n + f + e)

/-- The written form of a unit. A unit that would read as an exponent has its first letter
escaped. -/
def unitText : List Char → List Char
  | c :: rest =>
    if (c == 'e' || c == 'E') && (rest.isEmpty || rest.head? == some '-') then
      "\\65 ".toList ++ escapeName rest
    else escapeIdentifier (c :: rest)
  | [] => []

end StyleGate.Lexeme
