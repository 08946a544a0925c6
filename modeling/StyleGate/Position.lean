/-!
# Positions in a stylesheet

A position is a line and a column, both counted from one; columns count UTF-16 units. What the
library writes itself (separators, rebuilt keywords) has no place in the text and carries
`Position.unknown`. `Position.after` says where a text ends that starts at a position.
-/

namespace StyleGate

/-- A line and a column of a stylesheet, both counted from one. -/
structure Position where
  line : Int
  column : Int
deriving DecidableEq, Repr, Inhabited

namespace Position

/-- The position of what is not in the text. -/
def unknown : Position := ⟨-1, -1⟩

/-- The first character of a text. -/
def start : Position := ⟨1, 1⟩

/-- Whether the position is a place in a text. -/
def isKnown (p : Position) : Bool := decide (0 ≤ p.line) && decide (0 ≤ p.column)

/-- The written form, `line:column`. -/
def label (p : Position) : String := toString p.line ++ ":" ++ toString p.column

/-- The start of the next line. -/
def nextLine (p : Position) : Position := ⟨p.line + 1, 1⟩

/-- The position `n` columns to the right. -/
def right (p : Position) (n : Nat) : Position := ⟨p.line, p.column + n⟩

end Position

/-- The number of UTF-16 units of a character. -/
def utf16Units (c : Char) : Nat := if c.toNat < 0x10000 then 1 else 2

/-- The characters that end a line. -/
def isNewline (c : Char) : Bool := c == '\n' || c == '\r' || c == '\x0c'

/-- Where a text ends that starts at the given position. A carriage return followed by a line feed
ends one line. -/
def Position.after : Position → List Char → Position
  | p, [] => p
  | p, '\r' :: '\n' :: rest => p.nextLine.after rest
  | p, c :: rest => (if isNewline c then p.nextLine else p.right (utf16Units c)).after rest

@[simp] theorem Position.after_nil (p : Position) : p.after [] = p := rfl

end StyleGate
