import StyleGate.ComponentValue

/-!
# Declarations

A declaration is a property name, a value, and a mark of importance. Its tokens are the name, a
colon, the value and, where the mark is set, `! important`. In a list of declarations semicolons
stand between them.
-/

namespace StyleGate

/-- A property with its value. -/
structure Declaration where
  name : Token
  value : List ComponentValue := []
  important : Bool := false
deriving Repr, Inhabited

namespace Declaration

/-- The declaration of a name, without a value. -/
def ofName (name : Token) : Except NodeError Declaration :=
  if name.kind = .ident then .ok { name } else .error (.notIdent name.kind)

/-- The property. -/
def property (d : Declaration) : String := d.name.value

/-- Where the declaration starts. -/
def position (d : Declaration) : Position := d.name.position

/-- The mark of importance as it is written. -/
def importantTokens : List Token :=
  [Token.insertedSpace, Token.of .delim "!", Token.of .ident "important"]

/-- The tokens of a declaration. -/
def tokens (d : Declaration) : List Token :=
  d.name :: Token.of .colon "" :: (ComponentValue.tokensAll d.value ++
    if d.important then importantTokens else [])

/-- The tokens of a list of declarations. -/
def tokensAll : List Declaration → List Token
  | [] => []
  | [d] => d.tokens
  | d :: rest => d.tokens ++ Token.of .semicolon "" :: tokensAll rest

/-- The text of a declaration. -/
def text (d : Declaration) : String := Token.render d.tokens

/-- Equality up to positions. -/
def agrees (a b : Declaration) : Bool :=
  a.name.agrees b.name && ComponentValue.agreesAll a.value b.value && a.important == b.important

/-- Equality of lists up to positions. -/
def agreesAll : List Declaration → List Declaration → Bool
  | [], [] => true
  | a :: as, b :: bs => a.agrees b && agreesAll as bs
  | _, _ => false

/-- Where a list of declarations starts. -/
def positionOf : List Declaration → Position
  | [] => Position.unknown
  | d :: _ => d.position

end Declaration

end StyleGate
