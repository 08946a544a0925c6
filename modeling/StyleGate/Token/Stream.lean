import StyleGate.Diagnostic
import StyleGate.Lexeme

/-!
# The tokens of a stylesheet

`tokenize` turns the lexemes of a text into tokens with positions and drops the comments. It follows
which groups are open: only the closing bracket of the innermost open group closes it, any other
closing bracket is an ordinary token. A group inside `maxGroupDepth` open ones is not entered: a
single broken string stands for it, a diagnostic records it, and everything up to its end is passed
over.

A token's position is where reading stood when it was asked for, which is before any comment or
passed-over group in front of it; a closing bracket that ends its group has its own position.
-/

namespace StyleGate

/-- The number of groups that may be open around a token. -/
def maxGroupDepth : Nat := 64

/-- The token that stands for a group that was not entered. -/
def Token.tooDeepMarker (p : Position) : Token := { kind := .badString, position := p }

/-- What is known in the middle of a text. -/
structure Stream where
  /-- Where the next lexeme starts. -/
  position : Position := Position.start
  /-- Where reading stood when the next token was asked for. -/
  asked : Position := Position.start
  /-- The closing kinds of the open groups, the innermost first. -/
  closers : List TokenKind := []
  /-- The closing kinds of the groups open inside a group that was not entered, the innermost
  first. -/
  skipped : List TokenKind := []
  /-- The tokens so far, the last one first. -/
  tokens : List Token := []
  /-- The diagnostics so far, the last one first. -/
  errors : List Diagnostic := []
deriving Repr

namespace Stream

/-- Goes past a lexeme without asking for a new token. -/
def pass (s : Stream) (source : List Char) : Stream :=
  { s with position := s.position.after source }

/-- Adds a token that was read from a source text, and asks for the next one. -/
def emit (s : Stream) (t : Token) (source : List Char) : Stream :=
  let next := s.position.after source
  { s with position := next, asked := next, tokens := t :: s.tokens }

/-- Takes a token inside a group that was not entered; `closer` is the kind that ends the innermost
group there and `outer` are the kinds that end the others. -/
def skip (s : Stream) (closer : TokenKind) (outer : List TokenKind) (kind : TokenKind)
    (source : List Char) : Stream :=
  let s := s.pass source
  if kind = closer then { s with skipped := outer }
  else
    match kind.closer? with
    | some inner => { s with skipped := inner :: closer :: outer }
    | none => s

/-- Takes a token where it is read as such. -/
def take (s : Stream) (kind : TokenKind) (value : List Char) (source : List Char) : Stream :=
  let token : Token := { kind, value := String.ofList value, position := s.asked }
  match kind.closer? with
  | some closer =>
    if maxGroupDepth ≤ s.closers.length then
      let s := { s with
        skipped := [closer], errors := ⟨Diagnostic.nestingTooDeep, s.asked⟩ :: s.errors }
      s.emit (Token.tooDeepMarker s.asked) source
    else { s.emit token source with closers := closer :: s.closers }
  | none =>
    if s.closers.head? = some kind then
      { s.emit { kind, position := s.position } source with closers := s.closers.tail }
    else s.emit token source

/-- Takes the next lexeme. -/
def push (s : Stream) (x : Sourced) : Stream :=
  match x.lexeme with
  | .comment => s.pass x.source
  | .token kind value =>
    match s.skipped with
    | closer :: outer => s.skip closer outer kind x.source
    | [] => s.take kind value x.source

end Stream

/-- The tokens of a text and the diagnostics of groups that were not entered. -/
def tokenize (text : String) : List Token × List Diagnostic :=
  let s := (lexemes text.toList).foldl Stream.push {}
  (s.tokens.reverse, s.errors.reverse)

/-- The tokens of a text. -/
def tokens (text : String) : List Token := (tokenize text).1

end StyleGate
