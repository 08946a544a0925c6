/-!
# Escaped text

How a name, an identifier and a string are written in a stylesheet so that they read back. A
character that cannot stand for itself is written after a backslash: control characters by their
hexadecimal code and a space, other ASCII characters as they are. The character NUL has no written
form; U+FFFD stands in its place.
-/

namespace StyleGate.Text

/-- The character that stands for what cannot be written or read. -/
def replacement : Char := '\uFFFD'

/-- A hexadecimal digit in lower case. -/
def hexDigit (n : Nat) : Char := if n < 10 then Char.ofNat (48 + n) else Char.ofNat (87 + n)

/-- A character by its code: a backslash, one or two hexadecimal digits, a space. -/
def hexEscape (c : Char) : List Char :=
  let n := c.toNat
  if 15 < n then ['\\', hexDigit (n / 16), hexDigit (n % 16), ' '] else ['\\', hexDigit n, ' ']

/-- The letters, digits and marks that stand for themselves in a name. -/
def isPlainInName (c : Char) : Bool :=
  ('a' ≤ c && c ≤ 'z') || ('A' ≤ c && c ≤ 'Z') || ('0' ≤ c && c ≤ '9') || c == '_' || c == '-' ||
    128 ≤ c.toNat

/-- Control characters of ASCII other than NUL. -/
def isControl (c : Char) : Bool := (1 ≤ c.toNat && c.toNat ≤ 31) || c.toNat == 127

/-- The written form of one character of a name. -/
def escapeInName (c : Char) : List Char :=
  if isPlainInName c then [c]
  else if c == '\x00' then [replacement]
  else if isControl c then hexEscape c
  else ['\\', c]

/-- The written form of a name: what may follow `#`. -/
def escapeName (name : List Char) : List Char := name.flatMap escapeInName

/-- The written form of a leading character, where a digit is written by its code. -/
def escapeFirst (c : Char) : List Char :=
  if '0' ≤ c && c ≤ '9' then hexEscape c else escapeInName c

/-- The written form of an identifier: a name that starts neither with a digit nor with a hyphen
and a digit, and that is no lone hyphen. -/
def escapeIdentifier : List Char → List Char
  | [] => []
  | '-' :: '-' :: rest => '-' :: '-' :: escapeName rest
  | ['-'] => ['\\', '-']
  | '-' :: c :: rest => '-' :: (escapeFirst c ++ escapeName rest)
  | c :: rest => escapeFirst c ++ escapeName rest

/-- The written form of one character between double quotes. -/
def escapeInString (c : Char) : List Char :=
  if c == '"' || c == '\\' then ['\\', c]
  else if c == '\x00' then [replacement]
  else if isControl c then hexEscape c
  else [c]

/-- The written form of a string, between double quotes. -/
def escapeString (text : List Char) : List Char := '"' :: (text.flatMap escapeInString ++ ['"'])

end StyleGate.Text
