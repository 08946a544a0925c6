import StyleGate.Yaml

/-!
# The source of a document

The text that a document is read from, as characters with their places. Line ends of all sorts become
one; control characters are refused.
-/

namespace StyleGate.Yaml

/-- Where a character stands: its line, its column, and the number of bytes before it. -/
structure Place where
  line : Nat := 0
  column : Nat := 0
  offset : Nat := 0
deriving DecidableEq, Repr

/-- A blank inside a line. -/
def isBlank (c : Char) : Bool := c == ' ' || c == '\t'

/-- A line end. -/
def isBreak (c : Char) : Bool := c == '\n' || c == '\u2028' || c == '\u2029'

/-- The place after a character. -/
def Place.after (p : Place) (c : Char) : Place :=
  let offset := p.offset + c.utf8Size
  if isBreak c then { line := p.line + 1, column := 0, offset }
  else { p with column := p.column + 1, offset }

/-- A word ends in front of this text. -/
def endsWord : List Char → Bool
  | [] => true
  | c :: _ => isBlank c || isBreak c

/-- A line that starts or ends a document. -/
def startsMarker : List Char → Bool
  | '-' :: '-' :: '-' :: rest => endsWord rest
  | '.' :: '.' :: '.' :: rest => endsWord rest
  | _ => false

/-- The brackets and the comma of lists and records on a line. -/
def isFlowIndicator (c : Char) : Bool := c ∈ [',', '[', ']', '\x7b', '\x7d']

/-- A character that documents may hold. -/
def isAllowed (c : Char) : Bool :=
  c == '\t' || c == '\n' || c == '\r' || (' ' ≤ c && c ≤ '~') || c == '\u0085' ||
    ('\u00a0' ≤ c && c != '\ufffe' && c != '\uffff')

/-- A text with one character for every line end. -/
def unifyBreaks : List Char → List Char
  | '\r' :: '\n' :: rest => '\n' :: unifyBreaks rest
  | '\r' :: rest => '\n' :: unifyBreaks rest
  | '\u0085' :: rest => '\n' :: unifyBreaks rest
  | c :: rest => c :: unifyBreaks rest
  | [] => []

/-- The characters of a text. -/
def source (text : String) : Except YamlFault (List Char) :=
  if text.toList.all isAllowed then .ok (unifyBreaks text.toList)
  else .error .forbiddenCharacter

end StyleGate.Yaml
