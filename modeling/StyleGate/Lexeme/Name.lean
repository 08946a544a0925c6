import StyleGate.Position
import StyleGate.Text.Escape

/-!
# Names and escapes at the front of a text

Each reader takes what stands at the front of a text and returns it with the number of characters
that it takes up. A backslash followed by anything but a line end is an escape: up to six
hexadecimal digits and one blank stand for the character with that code, any other character stands
for itself.
-/

namespace StyleGate.Lexeme

open Text

/-- Whether a character may start a name. -/
def isNameStart (c : Char) : Bool :=
  ('a' ≤ c && c ≤ 'z') || ('A' ≤ c && c ≤ 'Z') || c == '_' || c == '\x00' || 128 ≤ c.toNat

/-- The value of a hexadecimal digit. -/
def hexValue? (c : Char) : Option Nat :=
  if '0' ≤ c && c ≤ '9' then some (c.toNat - 48)
  else if 'a' ≤ c && c ≤ 'f' then some (c.toNat - 87)
  else if 'A' ≤ c && c ≤ 'F' then some (c.toNat - 55)
  else none

/-- Whether a line end is at the front of a text. -/
def startsNewline : List Char → Bool
  | c :: _ => isNewline c
  | [] => false

/-- The value of the hexadecimal digits at the front of a text, at most `limit` of them, after
digits of the value `sofar`; and their number. -/
def hexDigits (limit sofar : Nat) (text : List Char) : Nat × Nat :=
  match limit, text with
  | limit + 1, c :: rest =>
    match hexValue? c with
    | some d =>
      let (value, taken) := hexDigits limit (16 * sofar + d) rest
      (value, taken + 1)
    | none => (sofar, 0)
  | _, _ => (sofar, 0)

/-- The length of the blank that may end a hexadecimal escape. -/
def escapeEnd : List Char → Nat
  | '\r' :: '\n' :: _ => 2
  | c :: _ => if c == ' ' || c == '\t' || isNewline c then 1 else 0
  | [] => 0

/-- The character of a code, or the replacement character where there is none. -/
def charOfCode (n : Nat) : Char :=
  if n ≠ 0 ∧ n.isValidChar then Char.ofNat n else replacement

/-- The escaped character after a backslash, and the length of what stands for it. -/
def escaped : List Char → Char × Nat
  | [] => (replacement, 0)
  | c :: rest =>
    match hexValue? c with
    | some d =>
      let (code, taken) := hexDigits 5 d rest
      (charOfCode code, 1 + taken + escapeEnd (rest.drop taken))
    | none => if c == '\x00' then (replacement, 1) else (c, 1)

/-- The name at the front of a text, possibly empty, and its length. -/
def name : List Char → List Char × Nat
  | [] => ([], 0)
  | c :: rest =>
    if c == '\\' then
      if startsNewline rest then ([], 0)
      else
        let (e, n) := escaped rest
        let (value, taken) := name (rest.drop n)
        (e :: value, 1 + n + taken)
    else if c == '\x00' then
      let (value, taken) := name rest
      (replacement :: value, 1 + taken)
    else if isPlainInName c then
      let (value, taken) := name rest
      (c :: value, 1 + taken)
    else ([], 0)
termination_by text => text.length
decreasing_by
  all_goals
    simp only [List.length_drop, List.length_cons]
    omega

/-- Whether a name is at the front of a text. A hyphen starts one if another hyphen, the start of a
name or a backslash follows. -/
def startsName : List Char → Bool
  | '-' :: c :: _ => isNameStart c || c == '-' || c == '\\'
  | '\\' :: rest => !startsNewline rest
  | c :: _ => isNameStart c
  | [] => false

end StyleGate.Lexeme
