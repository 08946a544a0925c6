import StyleGate.Text.Escape

/-!
# JSON values

The values that policies are written as and reports are printed from. Objects keep the order of their
fields. `Json.pretty` is the printed form with an indentation of two spaces, where an empty list or
object stays on its line.
-/

namespace StyleGate

/-- A JSON value. A number that is not written as an integer is `digits / 10 ^ places`. -/
inductive Json where
  | null
  | bool (b : Bool)
  | int (n : Int)
  | decimal (digits : Int) (places : Nat)
  | string (s : String)
  | array (items : List Json)
  | object (fields : List (String × Json))
deriving Repr, Inhabited

namespace Json

/-- The written form of a character of a string. -/
def escapeChar (c : Char) : List Char :=
  match c with
  | '"' => ['\\', '"']
  | '\\' => ['\\', '\\']
  | '\n' => ['\\', 'n']
  | '\r' => ['\\', 'r']
  | '\t' => ['\\', 't']
  | '\x08' => ['\\', 'b']
  | '\x0c' => ['\\', 'f']
  | c =>
    if c.toNat < 32 then ['\\', 'u', '0', '0', Text.hexDigit (c.toNat / 16), Text.hexDigit (c.toNat % 16)]
    else [c]

/-- The written form of a string. -/
def quote (s : String) : String :=
  String.ofList ('"' :: (s.toList.flatMap escapeChar ++ ['"']))

/-- The written form of a number that is not an integer. -/
def decimalText (digits : Int) (places : Nat) : String :=
  let text := toString digits.natAbs
  let padded := String.ofList (List.replicate (places + 1 - text.length) '0') ++ text
  let whole := padded.toList.take (padded.length - places)
  let fraction := padded.toList.drop (padded.length - places)
  (if digits < 0 then "-" else "") ++ String.ofList whole ++ "." ++ String.ofList fraction

/-- A line break and an indentation. -/
def newline (indent : Nat) : String := "\n" ++ String.ofList (List.replicate (2 * indent) ' ')

mutual

/-- The printed form at an indentation. -/
def prettyAt (indent : Nat) : Json → String
  | null => "null"
  | bool b => if b then "true" else "false"
  | int n => toString n
  | decimal digits places => decimalText digits places
  | string s => quote s
  | array [] => "[]"
  | array (item :: rest) =>
    "[" ++ newline (indent + 1) ++ item.prettyAt (indent + 1) ++ prettyItems (indent + 1) rest ++
      newline indent ++ "]"
  | object [] => "\x7b\x7d"
  | object ((key, value) :: rest) =>
    "\x7b" ++ newline (indent + 1) ++ quote key ++ ": " ++ value.prettyAt (indent + 1) ++
      prettyFields (indent + 1) rest ++ newline indent ++ "\x7d"

/-- The printed form of further items. -/
def prettyItems (indent : Nat) : List Json → String
  | [] => ""
  | item :: rest => "," ++ newline indent ++ item.prettyAt indent ++ prettyItems indent rest

/-- The printed form of further fields. -/
def prettyFields (indent : Nat) : List (String × Json) → String
  | [] => ""
  | (key, value) :: rest =>
    "," ++ newline indent ++ quote key ++ ": " ++ value.prettyAt indent ++ prettyFields indent rest

end

/-- The printed form. -/
def pretty (j : Json) : String := j.prettyAt 0

end Json

end StyleGate
