import StyleGate.Yaml.Scalar

/-!
# The layout of a document

`Yaml.layout` turns a text into tokens in which blocks that are laid out by indentation have explicit
starts and ends. A scalar or a bracketed list may turn out to be a key when a colon follows it on the
same line; then the start of the key, and perhaps of a block of records, is put in front of it
afterwards. Tokens end at a fault, so that what stands in front of it is read first.
-/

namespace StyleGate.Yaml

/-- A token of a document. -/
inductive Token where
  | documentStart
  | documentEnd
  /-- The start of a list or a record laid out by indentation, and the end of either. -/
  | blockList
  | blockRecord
  | blockEnd
  /-- The brackets of lists and records on a line, and the comma in them. -/
  | openList
  | closeList
  | openRecord
  | closeRecord
  | comma
  /-- The dash of an item, the start of a key, the colon of a value. -/
  | item
  | key
  | value
  | scalar (plain : Bool) (text : String)
  /-- What comes next cannot be read. -/
  | broken (fault : YamlFault)
deriving DecidableEq, Repr

/-- A token that may turn out to start a key. -/
structure KeyCandidate where
  place : Place
  /-- The number of tokens in front of it. -/
  index : Nat
  /-- Nothing but a key can stand at its place. -/
  required : Bool

/-- What is known in the middle of a document. -/
structure Layout where
  rest : List Char
  place : Place := {}
  tokens : Array Token := #[]
  /-- The indentations of the open blocks, the innermost first. -/
  indents : List Nat := []
  /-- The token on the current level of brackets that may be a key. -/
  candidate : Option KeyCandidate := none
  /-- Those on the levels around it, one for every open bracket. -/
  outer : List (Option KeyCandidate) := []
  /-- A key may start here. -/
  keyAllowed : Bool := true

namespace Layout

/-- Inside brackets, indentation does not count. -/
def inFlow (l : Layout) : Bool := !l.outer.isEmpty

/-- The least column where a scalar in the innermost block goes on. -/
def floor (l : Layout) : Nat := l.indents.head?.elim 0 (· + 1)

/-- Goes past characters. -/
def advance (l : Layout) (n : Nat) : Layout :=
  let (place, rest) := skip l.place n l.rest
  { l with place, rest }

/-- Adds a token. -/
def emit (l : Layout) (t : Token) : Layout := { l with tokens := l.tokens.push t }

/-- Puts a token in front of one that was added before. -/
def emitAt (l : Layout) (index : Nat) (t : Token) : Layout :=
  { l with tokens := l.tokens.insertIdxIfInBounds index t }

/-- Goes past a comment and blanks. Tabs count as blanks only where no key may start, and a byte order
mark does at the start of a line. -/
def blanksFrom (inFlow keyAllowed inComment : Bool) (p : Place) :
    List Char → Bool × Place × List Char
  | [] => (keyAllowed, p, [])
  | c :: rest =>
    if isBreak c then blanksFrom inFlow (keyAllowed || !inFlow) false (p.after c) rest
    else if inComment || c == ' ' || (c == '\t' && (inFlow || !keyAllowed)) ||
        (c == '\ufeff' && p.column == 0) then
      blanksFrom inFlow keyAllowed inComment (p.after c) rest
    else if c == '#' then blanksFrom inFlow keyAllowed true (p.after c) rest
    else (keyAllowed, p, c :: rest)

/-- Goes to the next character that is part of a token. -/
def toToken (l : Layout) : Layout :=
  let (keyAllowed, place, rest) := blanksFrom l.inFlow l.keyAllowed false l.place l.rest
  { l with keyAllowed, place, rest }

/-- A candidate that is on an earlier line or too far back is none any more. -/
def expire (p : Place) : Option KeyCandidate → Except YamlFault (Option KeyCandidate)
  | none => .ok none
  | some k =>
    if k.place.line < p.line ∨ k.place.offset + 1024 < p.offset then
      if k.required then .error .missingColon else .ok none
    else .ok (some k)

/-- Drops the candidates that are none any more. -/
def expireAll (l : Layout) : Except YamlFault Layout := do
  let outer ← l.outer.mapM (expire l.place)
  return { l with candidate := ← expire l.place l.candidate, outer }

/-- Closes the blocks that are indented further than a column. -/
def closeBlocks (l : Layout) (column : Nat) : Layout :=
  if l.inFlow then l
  else
    let closed := l.indents.takeWhile (column < ·)
    { l with
      tokens := closed.foldl (fun ts _ => ts.push .blockEnd) l.tokens
      indents := l.indents.drop closed.length }

/-- Closes all blocks. -/
def closeAllBlocks (l : Layout) : Layout :=
  { l with
    tokens := l.indents.foldl (fun ts _ => ts.push .blockEnd) l.tokens
    indents := [] }

/-- Opens a block at a column, in front of a token, unless one is open there. -/
def openBlock (l : Layout) (column index : Nat) (t : Token) : Layout :=
  if !l.inFlow && l.indents.head?.all (· < column) then
    { l.emitAt index t with indents := column :: l.indents }
  else l

/-- Gives the candidate up. -/
def dropCandidate (l : Layout) : Except YamlFault Layout :=
  if l.candidate.any (·.required) then .error .missingColon else .ok { l with candidate := none }

/-- Makes the next token the candidate for a key. -/
def saveCandidate (l : Layout) : Except YamlFault Layout := do
  if l.keyAllowed then
    let required := !l.inFlow && l.indents.head? == some l.place.column
    return { ← l.dropCandidate with
      candidate := some { place := l.place, index := l.tokens.size, required } }
  else return l

/-- Takes a token of one character after which a key may start or not. -/
def takeSign (l : Layout) (t : Token) (keyAllowed : Bool) : Layout :=
  { (l.emit t).advance 1 with keyAllowed }

/-- Takes the opening bracket of a list or record. -/
def takeOpener (l : Layout) (t : Token) : Except YamlFault Layout := do
  let l ← l.saveCandidate
  return { l with candidate := none, outer := l.candidate :: l.outer }.takeSign t true

/-- Takes the closing bracket of a list or record. -/
def takeCloser (l : Layout) (t : Token) : Except YamlFault Layout := do
  let l ← l.dropCandidate
  return { l with candidate := l.outer.head?.join, outer := l.outer.tail }.takeSign t false

/-- Takes a line that starts or ends a document. -/
def takeMarker (l : Layout) (t : Token) : Except YamlFault Layout := do
  let l ← l.closeAllBlocks.dropCandidate
  return { (l.emit t).advance 3 with keyAllowed := false }

/-- Takes the dash of an item. -/
def takeItem (l : Layout) : Except YamlFault Layout := do
  if !l.inFlow && !l.keyAllowed then throw .misplacedItem
  let l ← (l.openBlock l.place.column l.tokens.size .blockList).dropCandidate
  return l.takeSign .item true

/-- Takes the question mark of a key. -/
def takeKey (l : Layout) : Except YamlFault Layout := do
  if !l.inFlow && !l.keyAllowed then throw .misplacedValue
  let l ← (l.openBlock l.place.column l.tokens.size .blockRecord).dropCandidate
  return l.takeSign .key (!l.inFlow)

/-- Takes the colon of a value, which makes the candidate a key. -/
def takeValue (l : Layout) : Except YamlFault Layout := do
  match l.candidate with
  | some k =>
    let l := (l.emitAt k.index .key).openBlock k.place.column k.index .blockRecord
    return { l with candidate := none }.takeSign .value false
  | none =>
    if !l.inFlow && !l.keyAllowed then throw .misplacedValue
    let l := l.openBlock l.place.column l.tokens.size .blockRecord
    return l.takeSign .value (!l.inFlow)

/-- Takes a scalar that was read. -/
def takeScalar (l : Layout) (plain : Bool) (s : ScalarRead) (keyAllowed : Bool) : Layout :=
  { l.emit (.scalar plain s.text) with place := s.place, rest := s.rest, keyAllowed }

/-- A plain scalar may start with a character, in front of a text. -/
def startsPlain (inFlow : Bool) (c : Char) (rest : List Char) : Bool :=
  if c == '-' then !rest.head?.any isBlank
  else if c == '?' || c == ':' then !inFlow && !endsWord rest
  else !(isBlank c || isFlowIndicator c || c ∈ ['#', '&', '*', '!', '|', '>', '\'', '"', '%', '@', '\x60'])

/-- Takes the next token, which starts with a character. -/
def takeToken (l : Layout) (c : Char) (rest : List Char) : Except YamlFault Layout := do
  if l.place.column = 0 ∧ startsMarker l.rest then
    l.takeMarker (if c == '-' then .documentStart else .documentEnd)
  else if c == '[' then l.takeOpener .openList
  else if c == '\x7b' then l.takeOpener .openRecord
  else if c == ']' then l.takeCloser .closeList
  else if c == '\x7d' then l.takeCloser .closeRecord
  else if c == ',' then return (← l.dropCandidate).takeSign .comma true
  else if c == '-' ∧ endsWord rest then l.takeItem
  else if c == '?' ∧ (l.inFlow || endsWord rest) then l.takeKey
  else if c == ':' ∧ (l.inFlow || endsWord rest) then l.takeValue
  else if (c == '|' || c == '>') ∧ !l.inFlow then
    let l ← l.dropCandidate
    let s ← blockScalar (c == '|') l.indents.head? (l.place.after c) rest
    return l.takeScalar false s true
  else if c == '\'' || c == '"' then
    let l ← l.saveCandidate
    let s ← quotedFrom c {} {} (l.place.after c) .text rest
    return l.takeScalar false s false
  else if startsPlain l.inFlow c rest then
    let l ← l.saveCandidate
    let s ← plainFrom l.floor l.inFlow {} {} l.place l.rest
    return l.takeScalar true s s.passedBreak
  else throw .unexpectedCharacter

/-- The number of tokens in front of the first one that may still turn out to be a key. -/
def settled (l : Layout) : Nat :=
  let candidates := (l.candidate :: l.outer).filterMap fun k => (expire l.place k).toOption.join
  candidates.foldl (fun n k => min n k.index) l.tokens.size

/-- Breaks off at a fault. What is not settled is not known. -/
def breakOff (l : Layout) (f : YamlFault) : Layout :=
  { l with tokens := (l.tokens.extract 0 l.settled).push (.broken f) }

/-- Takes the next token, or closes all blocks at the end of the text. -/
def takeNext (l : Layout) : Except YamlFault Layout := do
  let l ← l.expireAll
  match l.rest with
  | [] => l.closeAllBlocks.dropCandidate
  | c :: rest => (l.closeBlocks l.place.column).takeToken c rest

/-- Takes the tokens up to the end of the text or a fault, at most so many. -/
def run (l : Layout) : Nat → Layout
  | 0 => l
  | fuel + 1 =>
    let next := l.toToken
    match next.takeNext with
    | .error f => l.breakOff f
    | .ok l => if next.rest.isEmpty then l else l.run fuel

end Layout

/-- The tokens of a text. Every token takes a character at least, which bounds their number. -/
def layout (text : String) : List Token :=
  match source text with
  | .error f => [.broken f]
  | .ok cs => (({ rest := cs : Layout }).run (cs.length + 1)).tokens.toList

end StyleGate.Yaml
