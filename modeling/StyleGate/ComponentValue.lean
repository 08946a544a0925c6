import StyleGate.Token.Printer

/-!
# Component values

A component value is a token, a block in brackets, or a function with its contents. A group keeps
its opening token; the closing one is derived from it. `ComponentValue.tokens` lays a value out as
the tokens that it stands for, and two values *agree* if they differ at most in positions.
-/

namespace StyleGate

/-- A token or a group, as found in preludes, values and blocks. -/
inductive ComponentValue where
  | token (t : Token)
  | block (opener : Token) (contents : List ComponentValue)
  | function (name : Token) (contents : List ComponentValue)
deriving Repr, Inhabited

namespace ComponentValue

/-- Where the value starts. -/
def position : ComponentValue → Position
  | token t => t.position
  | block opener _ => opener.position
  | function name _ => name.position

/-- Whether the value is a plain token of a kind. -/
def isToken (kind : TokenKind) : ComponentValue → Bool
  | token t => t.kind == kind
  | _ => false

/-- Whether the value is a whitespace token. -/
def isWhitespace (v : ComponentValue) : Bool := v.isToken .whitespace

/-- A value is a token of a kind as it says. -/
theorem isToken_iff {kind : TokenKind} {v : ComponentValue} :
    v.isToken kind = true ↔ ∃ t, v = token t ∧ t.kind = kind := by
  cases v <;> simp [isToken]

/-- Whitespace is a plain token, not a group that holds nothing else. -/
theorem isWhitespace_iff {v : ComponentValue} :
    v.isWhitespace = true ↔ ∃ t, v = token t ∧ t.kind = .whitespace :=
  isToken_iff

/-- A token of any other kind is not whitespace. -/
theorem isWhitespace_of_isToken {v : ComponentValue} {kind : TokenKind} (h : v.isToken kind = true)
    (hkind : kind ≠ .whitespace) : v.isWhitespace = false := by
  obtain ⟨t, rfl, rfl⟩ := isToken_iff.1 h
  simpa [isWhitespace, isToken] using hkind

/-- The token that closes a block. -/
def blockEnd (opener : Token) : Token := { kind := opener.kind.bracketCloser?.getD .rightBrace }

/-- What is put behind the contents of a block closes a group, whatever opened the block. -/
theorem closesGroup_blockEnd (opener : Token) : (blockEnd opener).kind.closesGroup = true := by
  unfold blockEnd
  cases opener.kind <;> rfl

/-- The token that closes a function. -/
def functionEnd : Token := { kind := .rightParen }

mutual

/-- The tokens that a value stands for. -/
def tokens : ComponentValue → List Token
  | token t => [t]
  | block opener contents => opener :: (tokensAll contents ++ [blockEnd opener])
  | function name contents => name :: (tokensAll contents ++ [functionEnd])

/-- The tokens that a list of values stands for. -/
def tokensAll : List ComponentValue → List Token
  | [] => []
  | v :: rest => v.tokens ++ tokensAll rest

end

mutual

/-- Equality up to positions. -/
def agrees : ComponentValue → ComponentValue → Bool
  | token a, token b => a.agrees b
  | block a as, block b bs => a.agrees b && agreesAll as bs
  | function a as, function b bs => a.agrees b && agreesAll as bs
  | _, _ => false

/-- Equality of lists up to positions. -/
def agreesAll : List ComponentValue → List ComponentValue → Bool
  | [], [] => true
  | v :: vs, w :: ws => v.agrees w && agreesAll vs ws
  | _, _ => false

end

/-- The text of a list of values. -/
def render (values : List ComponentValue) : String := Token.render (tokensAll values)

/-- The text of a value. -/
def text (v : ComponentValue) : String := Token.render v.tokens

/-- Where a list of values starts. -/
def positionOf : List ComponentValue → Position
  | [] => Position.unknown
  | v :: _ => v.position

/-- A list of values without whitespace at its ends. -/
def trim (values : List ComponentValue) : List ComponentValue :=
  ((values.reverse.dropWhile isWhitespace).reverse).dropWhile isWhitespace

/-- A list of values is nothing but whitespace. -/
def allWhitespace (values : List ComponentValue) : Bool := values.all isWhitespace

@[simp] theorem tokensAll_nil : tokensAll [] = [] := rfl

@[simp] theorem tokensAll_cons (v : ComponentValue) (rest : List ComponentValue) :
    tokensAll (v :: rest) = v.tokens ++ tokensAll rest := rfl

/-- The tokens of two lists are written one after the other. -/
theorem tokensAll_append (vs ws : List ComponentValue) :
    tokensAll (vs ++ ws) = tokensAll vs ++ tokensAll ws := by
  induction vs with
  | nil => rfl
  | cons v vs ih => simp [ih]

/-- The tokens of a list are those of its members, in order. -/
theorem tokensAll_eq_flatMap (vs : List ComponentValue) : tokensAll vs = vs.flatMap tokens := by
  induction vs with
  | nil => rfl
  | cons v vs ih => simp [ih]

/-- A property of all values: it holds of tokens, and of a group if it holds of all its contents. -/
theorem induct {motive : ComponentValue → Prop} (token : ∀ t, motive (token t))
    (block : ∀ opener contents, (∀ v ∈ contents, motive v) → motive (block opener contents))
    (function : ∀ name contents, (∀ v ∈ contents, motive v) → motive (function name contents)) :
    ∀ v, motive v
  | .token t => token t
  | .block opener contents =>
    block opener contents fun v _ => induct token block function v
  | .function name contents =>
    function name contents fun v _ => induct token block function v

mutual

/-- Every value agrees with itself. -/
theorem agrees_self : ∀ v : ComponentValue, v.agrees v = true
  | token t => by simp [agrees]
  | block opener contents => by simp [agrees, agreesAll_self contents]
  | function name contents => by simp [agrees, agreesAll_self contents]

/-- So does every list of values. -/
theorem agreesAll_self : ∀ vs : List ComponentValue, agreesAll vs vs = true
  | [] => rfl
  | v :: vs => by simp [agreesAll, agrees_self v, agreesAll_self vs]

end

end ComponentValue

/-! ## Groups on their own -/

/-- What is wrong with a token or a block that a node is to be built from. -/
inductive NodeError where
  | notAtKeyword (kind : TokenKind)
  | atRuleBlockDelimiter
  | qualifiedRuleBlockDelimiter
  | blockDelimiter (kind : TokenKind)
  | notFunction (kind : TokenKind)
  | notIdent (kind : TokenKind)
deriving DecidableEq, Repr

/-- The message of an error. -/
def NodeError.message : NodeError → String
  | notAtKeyword kind => "At rule must begin with an at-keyword token, got " ++ kind.displayName
  | atRuleBlockDelimiter => "At-rule block must be delimited by \x7b\x7d"
  | qualifiedRuleBlockDelimiter => "Qualified rule block must be delimited by \x7b\x7d"
  | blockDelimiter kind =>
    "A SimpleBlock is delimited by either \x7b\x7d, [], or (); got " ++ kind.displayName
  | notFunction kind => "CSS function must begin with a function token, got " ++ kind.displayName
  | notIdent kind => "Declaration must begin with an ident token, got " ++ kind.displayName

/-- A block in brackets. -/
structure Block where
  opener : Token
  contents : List ComponentValue := []
deriving Repr, Inhabited

namespace Block

/-- The empty block that a token opens. -/
def ofOpener (opener : Token) : Except NodeError Block :=
  if opener.kind.bracketCloser?.isSome then .ok { opener }
  else .error (.blockDelimiter opener.kind)

/-- An empty block in braces that is not in the text. -/
def braces : Block := { opener := { kind := .leftBrace } }

/-- The block as a component value. -/
def value (b : Block) : ComponentValue := .block b.opener b.contents

/-- The token that closes the block. -/
def closer (b : Block) : Token := ComponentValue.blockEnd b.opener

/-- The tokens of the block. -/
def tokens (b : Block) : List Token := b.value.tokens

/-- Equality up to positions. -/
def agrees (a b : Block) : Bool := a.value.agrees b.value

/-- Whether the block is in braces. -/
def isBraces (b : Block) : Bool := b.opener.kind == .leftBrace

end Block

/-- A function with its contents. -/
structure FunctionCall where
  name : Token
  contents : List ComponentValue := []
deriving Repr, Inhabited

namespace FunctionCall

/-- The empty function that a token opens. -/
def ofName (name : Token) : Except NodeError FunctionCall :=
  if name.kind = .function then .ok { name } else .error (.notFunction name.kind)

/-- The function as a component value. -/
def value (f : FunctionCall) : ComponentValue := .function f.name f.contents

/-- The tokens of the function. -/
def tokens (f : FunctionCall) : List Token := f.value.tokens

end FunctionCall

end StyleGate
