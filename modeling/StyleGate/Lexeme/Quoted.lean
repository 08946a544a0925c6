import StyleGate.Lexeme.Name

/-!
# Strings at the front of a text

A string runs to the next quote of its own kind. A line end breaks it off; a line end after a
backslash is left out; the end of the text ends it like a quote.
-/

namespace StyleGate.Lexeme

open Text

/-- The length of a line end at the front of a text. -/
def newlineLength : List Char → Nat
  | '\r' :: '\n' :: _ => 2
  | c :: _ => if isNewline c then 1 else 0
  | [] => 0

/-- The content of a string after its opening quote, whether it was broken off by a line end, and
the length of what was read. -/
def quoted (quote : Char) : List Char → List Char × Bool × Nat
  | [] => ([], false, 0)
  | c :: rest =>
    if c == quote then ([], false, 1)
    else if isNewline c then ([], true, 0)
    else if c == '\\' then
      if rest.isEmpty then ([], false, 1)
      else if startsNewline rest then
        let n := newlineLength rest
        let (value, broken, taken) := quoted quote (rest.drop n)
        (value, broken, 1 + n + taken)
      else
        let (e, n) := escaped rest
        let (value, broken, taken) := quoted quote (rest.drop n)
        (e :: value, broken, 1 + n + taken)
    else
      let (value, broken, taken) := quoted quote rest
      ((if c == '\x00' then replacement else c) :: value, broken, 1 + taken)
termination_by text => text.length
decreasing_by
  all_goals
    simp only [List.length_drop, List.length_cons]
    omega

end StyleGate.Lexeme
