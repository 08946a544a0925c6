import StyleGate.Declaration.Reading

/-!
# Reading a stylesheet

A parser holds tokens that are still to be read and the diagnostics so far. The first reading takes
all tokens, whatever it reads them as; later ones find nothing. Block contents are read again later
as rules or as declarations, from their tokens and with their positions.
-/

namespace StyleGate

/-- Tokens to be read, and the diagnostics so far. -/
structure Parser where
  pending : List Token
  errors : List Diagnostic := []
deriving Repr

namespace Parser

/-- A parser for a text; its diagnostics start with those of the tokens. -/
def ofText (text : String) : Parser :=
  let (ts, errors) := tokenize text
  { pending := ts, errors }

/-- A parser for tokens. -/
def ofTokens (ts : List Token) : Parser := { pending := ts }

/-- Reads everything that is left in one way. -/
def reading {α : Type} (p : Parser) (read : List Token → α × List Diagnostic) : α × Parser :=
  let (a, errors) := read p.pending
  (a, { pending := [], errors := p.errors ++ errors })

/-- Reads the top of a stylesheet. -/
def stylesheet (p : Parser) : List Rule × Parser := p.reading (Rule.readAll true)

/-- Reads nested rules. -/
def rules (p : Parser) : List Rule × Parser := p.reading (Rule.readAll false)

/-- Reads declarations. -/
def declarations (p : Parser) : List Declaration × Parser := p.reading Declaration.readAll

/-- Reads component values. -/
def values (p : Parser) : List ComponentValue × Parser := p.reading ComponentValue.readAll

/-- The diagnostics so far, and the parser without them. -/
def takeErrors (p : Parser) : List Diagnostic × Parser := (p.errors, { p with errors := [] })

end Parser

end StyleGate
