import StyleGate.Yaml.Buffer

/-!
# Scalars

Four forms of a scalar: plain, in single or double quotes, and as a block of lines. In the first three
a line end between two words is a space and further line ends stay; in a block the indentation is left
out, and its header says whether lines are joined and what becomes of the line ends after the last
one.
-/

namespace StyleGate.Yaml

/-- A scalar that was read, and where reading stopped. -/
structure ScalarRead where
  text : String
  place : Place
  rest : List Char
  /-- A line end was passed after the last character of the text. -/
  passedBreak : Bool := false

/-! ## Between two words -/

/-- What stands between two words of a scalar. -/
structure Gap where
  /-- The blanks in front of the first line end, the last one first. -/
  blanks : List Char := []
  /-- The first line end, which is empty if it was escaped. -/
  first : Option (List Char) := none
  /-- The further line ends, the last one first. -/
  more : List Char := []

namespace Gap

/-- Nothing stands between. -/
def isEmpty (g : Gap) : Bool := g.blanks.isEmpty && g.first.isNone

/-- The gap with another blank or line end. Blanks at the start of a line do not count. -/
def push (g : Gap) (c : Char) : Gap :=
  match g.first with
  | none => if isBreak c then { first := some [c] } else { g with blanks := c :: g.blanks }
  | some _ => if isBreak c then { g with more := c :: g.more } else g

/-- The text so far with what the gap stands for. A single line end is a space; further ones stay. -/
def addTo (g : Gap) (b : Buffer) : Except YamlFault Buffer :=
  match g.first with
  | none => b.append g.blanks
  | some ['\n'] => if g.more.isEmpty then .ok (b.push ' ') else b.append g.more
  | some first => do (← b.append first).append g.more

end Gap

/-! ## Plain scalars -/

/-- Reads a plain scalar. Where blocks are laid out by lines, its further lines stand at `floor` or
to the right of it; inside brackets it ends in front of any of them. -/
def plainFrom (floor : Nat) (inFlow : Bool) (b : Buffer) (gap : Gap) (p : Place) :
    List Char → Except YamlFault ScalarRead
  | [] => .ok ⟨b.text, p, [], gap.first.isSome⟩
  | c :: rest =>
    let stop : Except YamlFault ScalarRead := .ok ⟨b.text, p, c :: rest, gap.first.isSome⟩
    if isBlank c || isBreak c then
      if c == '\t' && gap.first.isSome && p.column < floor then .error .tabIndentation
      else plainFrom floor inFlow b (gap.push c) (p.after c) rest
    else if p.column == 0 && startsMarker (c :: rest) then stop
    else if !gap.isEmpty && (c == '#' || (!inFlow && p.column < floor)) then stop
    else if inFlow && c == ':' && rest.head?.any fun d => isFlowIndicator d || d == '?' then
      .error .unexpectedCharacter
    else if (c == ':' && endsWord rest) || (inFlow && isFlowIndicator c) then stop
    else do plainFrom floor inFlow ((← gap.addTo b).push c) {} (p.after c) rest

/-! ## Quoted scalars -/

/-- What the next character of a quoted scalar is. -/
inductive QuotedMode where
  | text
  /-- It follows a backslash. -/
  | escape
  /-- It is a quote that stands for itself. -/
  | doubled
  /-- It is one of the digits, so many are left, of a character whose digits so far have a value. -/
  | digits (left value : Nat)

/-- The character that a letter after a backslash stands for. -/
def escaped? : Char → Option Char
  | '0' => some '\x00'
  | 'a' => some '\x07'
  | 'b' => some '\x08'
  | 't' => some '\t'
  | '\t' => some '\t'
  | 'n' => some '\n'
  | 'v' => some '\x0b'
  | 'f' => some '\x0c'
  | 'r' => some '\r'
  | 'e' => some '\x1b'
  | ' ' => some ' '
  | '"' => some '"'
  | '/' => some '/'
  | '\\' => some '\\'
  | 'N' => some '\u0085'
  | '_' => some '\u00a0'
  | 'L' => some '\u2028'
  | 'P' => some '\u2029'
  | _ => none

/-- The number of digits that follow a letter after a backslash. -/
def escapeDigits? : Char → Option Nat
  | 'x' => some 2
  | 'u' => some 4
  | 'U' => some 8
  | _ => none

/-- Reads a scalar in quotes, after the opening one. -/
def quotedFrom (quote : Char) (b : Buffer) (gap : Gap) (p : Place) :
    QuotedMode → List Char → Except YamlFault ScalarRead
  | .text, [] => do
    let _ ← gap.addTo b
    throw .unclosedScalar
  | _, [] => .error .unclosedScalar
  | .text, c :: rest =>
    if isBlank c || isBreak c then quotedFrom quote b (gap.push c) (p.after c) .text rest
    else do
      let b ← gap.addTo b
      if p.column == 0 && startsMarker (c :: rest) then throw .unclosedScalar
      else if c == quote then
        if quote == '\'' && rest.head? == some '\'' then
          quotedFrom quote b {} (p.after c) .doubled rest
        else return { text := b.text, place := p.after c, rest }
      else if quote == '"' && c == '\\' then quotedFrom quote b {} (p.after c) .escape rest
      else quotedFrom quote (b.push c) {} (p.after c) .text rest
  | .doubled, c :: rest => quotedFrom quote (b.push c) {} (p.after c) .text rest
  | .escape, c :: rest =>
    if isBreak c then quotedFrom quote b { first := some [] } (p.after c) .text rest
    else
      match escaped? c, escapeDigits? c with
      | some e, _ => quotedFrom quote (b.push e) {} (p.after c) .text rest
      | none, some n => quotedFrom quote b {} (p.after c) (.digits n 0) rest
      | none, none => .error .badEscape
  | .digits left value, c :: rest =>
    match digit? 16 c with
    | none => .error .badEscape
    | some d =>
      let value := value * 16 + d
      if 1 < left then quotedFrom quote b {} (p.after c) (.digits (left - 1) value) rest
      else if h : value.isValidChar then
        quotedFrom quote (b.push (Char.ofNatAux value h)) {} (p.after c) .text rest
      else .error .badEscape

/-! ## Block scalars -/

/-- What becomes of the line ends after the last line of a block. -/
inductive Chomping where
  /-- The first one stays. -/
  | clip
  | strip
  | keep
deriving DecidableEq

/-- What the header of a block says: whether its lines are kept apart, what becomes of its last line
ends, and how far it is indented. -/
structure BlockHeader where
  literal : Bool
  chomping : Chomping := .clip
  increment : Option Nat := none

/-- The chomping that a sign in the header asks for. -/
def chomping? : Char → Option Chomping
  | '+' => some .keep
  | '-' => some .strip
  | _ => none

/-- The indentation that a header says at its front. -/
def increment? : List Char → Except YamlFault (Option Nat)
  | '0' :: _ => .error .badBlockHeader
  | c :: _ => .ok (if c.isDigit then digit? 10 c else none)
  | [] => .ok none

/-- The header after its first character, and its length: a sign and a digit, in either order, and
each of them may be missing. -/
def blockHeader (literal : Bool) (cs : List Char) : Except YamlFault (BlockHeader × Nat) :=
  match cs.head? >>= chomping? with
  | some chomping => do
    let increment ← increment? cs.tail
    return ({ literal, chomping, increment }, 1 + increment.isSome.toNat)
  | none => do
    let increment ← increment? cs
    let sign := if increment.isSome then cs.tail.head? >>= chomping? else none
    return ({ literal, chomping := sign.getD .clip, increment },
      increment.isSome.toNat + sign.isSome.toNat)

/-- What was read of a block. -/
structure BlockRead where
  /-- The text so far. -/
  buffer : Buffer := {}
  /-- The indentation, once it is known. -/
  indent : Option Nat
  /-- The widest indentation so far. -/
  widest : Nat := 0
  /-- The end of the last line with a text. -/
  lineEnd : List Char := []
  /-- The ends of the empty lines after it, the last one first. -/
  emptyLines : List Char := []
  /-- The last line with a text starts with a blank. -/
  blankLine : Bool := false

namespace BlockRead

/-- The block with a character in the current line. -/
def push (b : BlockRead) (c : Char) : BlockRead := { b with buffer := b.buffer.push c }

/-- The block at the start of another line with a text. Lines are joined unless one of them starts
with a blank. -/
def startLine (b : BlockRead) (header : BlockHeader) (c : Char) : Except YamlFault BlockRead := do
  let joined := !header.literal && b.lineEnd == ['\n'] && !b.blankLine && !isBlank c
  let ended ←
    if !joined then b.buffer.append b.lineEnd
    else if b.emptyLines.isEmpty then pure (b.buffer.push ' ')
    else pure b.buffer
  return { b with
    buffer := ← ended.append b.emptyLines
    lineEnd := [], emptyLines := [], blankLine := isBlank c }

/-- The text of the whole block. -/
def text (b : BlockRead) (header : BlockHeader) : Except YamlFault String :=
  match header.chomping with
  | .strip => return b.buffer.text
  | .clip => return (← b.buffer.append b.lineEnd).text
  | .keep => return (← (← b.buffer.append b.lineEnd).append b.emptyLines).text

end BlockRead

/-- Reads the lines of a block, at the indentation of a line or inside one. Unless the header says
it, the indentation is that of the first line with a text, but at least `floor`. -/
def blockFrom (header : BlockHeader) (floor : Nat) (inLine : Bool) (b : BlockRead) (p : Place) :
    List Char → Except YamlFault ScalarRead
  | [] => return ⟨← b.text header, p, [], false⟩
  | c :: rest =>
    if inLine then
      if isBreak c then
        blockFrom header floor false { b with lineEnd := [c] } (p.after c) rest
      else blockFrom header floor true (b.push c) (p.after c) rest
    else
      let indenting := b.indent.all fun n => p.column < n
      if indenting && c == ' ' then blockFrom header floor false b (p.after c) rest
      else if indenting && c == '\t' then .error .tabIndentation
      else
        let b := { b with widest := max b.widest p.column }
        if isBreak c then
          blockFrom header floor false { b with emptyLines := c :: b.emptyLines } (p.after c) rest
        else
          let indent := b.indent.getD (max (max b.widest floor) 1)
          let b := { b with indent := some indent }
          if p.column == indent then do
            blockFrom header floor true ((← b.startLine header c).push c) (p.after c) rest
          else do return ⟨← b.text header, p, c :: rest, false⟩

/-- Goes past characters. -/
def skip (p : Place) : Nat → List Char → Place × List Char
  | n + 1, c :: rest => skip (p.after c) n rest
  | _, cs => (p, cs)

/-- Reads a block after the character that starts it; `parent` is the indentation around it. -/
def blockScalar (literal : Bool) (parent : Option Nat) (p : Place) (cs : List Char) :
    Except YamlFault ScalarRead := do
  let (header, n) ← blockHeader literal cs
  let (p, cs) := skip p n cs
  let (p, cs) := skip p (cs.takeWhile isBlank).length cs
  let comment := if cs.head? == some '#' then (cs.takeWhile (!isBreak ·)).length else 0
  let (p, cs) := skip p comment cs
  let indent := header.increment.map (parent.getD 0 + ·)
  let floor := parent.elim 0 (· + 1)
  match cs with
  | [] => return { text := "", place := p, rest := [] }
  | c :: rest =>
    if isBreak c then blockFrom header floor false { indent } (p.after c) rest
    else throw .badBlockHeader

end StyleGate.Yaml
