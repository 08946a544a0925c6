import StyleGate.ComponentValue

/-!
# Rules

A rule is an at-rule, with a keyword and perhaps a block, or a qualified rule, which starts with its
prelude and always has a block. Comments for a later processor may stand in front of either. An
at-rule without a block ends with a semicolon.
-/

namespace StyleGate

/-- A rule that starts with an at-keyword. -/
structure AtRule where
  comments : List Token := []
  keyword : Token
  prelude : List ComponentValue := []
  block : Option Block := none
deriving Repr, Inhabited

/-- A rule that starts with its prelude, mostly a list of selectors. -/
structure QualifiedRule where
  comments : List Token := []
  position : Position := Position.unknown
  prelude : List ComponentValue := []
  block : Block := Block.braces
deriving Repr, Inhabited

/-- A rule of either sort. -/
inductive Rule where
  | atRule (rule : AtRule)
  | qualified (rule : QualifiedRule)
deriving Repr, Inhabited

/-- The tokens of the comments in front of a rule, with a space after them. -/
def commentTokens (comments : List Token) : List Token :=
  if comments.isEmpty then [] else comments ++ [Token.insertedSpace]

namespace AtRule

/-- The at-rule of a keyword, without prelude and block. -/
def ofKeyword (keyword : Token) : Except NodeError AtRule :=
  if keyword.kind = .atKeyword then .ok { keyword } else .error (.notAtKeyword keyword.kind)

/-- The at-rule of a name, with a keyword that is not in the text. -/
def ofName (name : String) : AtRule := { keyword := Token.of .atKeyword name }

/-- The name in the keyword. -/
def name (r : AtRule) : String := r.keyword.value

/-- Where the rule starts. -/
def position (r : AtRule) : Position := r.keyword.position

/-- The rule with another block, or none. -/
def withBlock (r : AtRule) (block : Option Block) : Except NodeError AtRule :=
  match block with
  | some b =>
    if b.isBraces then .ok { r with block := some b } else .error .atRuleBlockDelimiter
  | none => .ok { r with block := none }

/-- The tokens of the rule. -/
def tokens (r : AtRule) : List Token :=
  commentTokens r.comments ++ r.keyword :: (ComponentValue.tokensAll r.prelude ++
    match r.block with
    | some b => b.tokens
    | none => [Token.of .semicolon ""])

/-- Equality up to positions. -/
def agrees (a b : AtRule) : Bool :=
  a.comments.map Token.unplaced == b.comments.map Token.unplaced && a.keyword.agrees b.keyword &&
    ComponentValue.agreesAll a.prelude b.prelude &&
    match a.block, b.block with
    | some x, some y => x.agrees y
    | none, none => true
    | _, _ => false

end AtRule

namespace QualifiedRule

/-- The rule with another block. -/
def withBlock (r : QualifiedRule) (block : Block) : Except NodeError QualifiedRule :=
  if block.isBraces then .ok { r with block } else .error .qualifiedRuleBlockDelimiter

/-- The tokens of the rule. -/
def tokens (r : QualifiedRule) : List Token :=
  commentTokens r.comments ++ (ComponentValue.tokensAll r.prelude ++ r.block.tokens)

/-- Equality up to the positions of tokens. A qualified rule has a position of its own, which
counts. -/
def agrees (a b : QualifiedRule) : Bool :=
  a.comments.map Token.unplaced == b.comments.map Token.unplaced && a.position == b.position &&
    ComponentValue.agreesAll a.prelude b.prelude && a.block.agrees b.block

end QualifiedRule

namespace Rule

/-- The name of an at-rule. -/
def name? : Rule → Option String
  | atRule r => some r.name
  | qualified _ => none

/-- Where the rule starts. -/
def position : Rule → Position
  | atRule r => r.position
  | qualified r => r.position

/-- The comments in front of the rule. -/
def comments : Rule → List Token
  | atRule r => r.comments
  | qualified r => r.comments

/-- What stands before the block. -/
def prelude : Rule → List ComponentValue
  | atRule r => r.prelude
  | qualified r => r.prelude

/-- The block of the rule. -/
def block? : Rule → Option Block
  | atRule r => r.block
  | qualified r => some r.block

/-- The rule with another block, whatever opens that. -/
def putBlock (new : Block) : Rule → Rule
  | atRule r => atRule { r with block := some new }
  | qualified r => qualified { r with block := new }

/-- The tokens of the rule. -/
def tokens : Rule → List Token
  | atRule r => r.tokens
  | qualified r => r.tokens

/-- The text of the rule. -/
def text (r : Rule) : String := Token.render r.tokens

/-- Equality up to the positions of tokens. -/
def agrees : Rule → Rule → Bool
  | atRule a, atRule b => a.agrees b
  | qualified a, qualified b => a.agrees b
  | _, _ => false

/-- The tokens of a list of rules. -/
def tokensAll (rules : List Rule) : List Token := rules.flatMap tokens

/-- Equality of lists up to the positions of tokens. -/
def agreesAll : List Rule → List Rule → Bool
  | [], [] => true
  | a :: as, b :: bs => a.agrees b && agreesAll as bs
  | _, _ => false

/-- Where a list of rules starts. -/
def positionOf : List Rule → Position
  | [] => Position.unknown
  | r :: _ => r.position

/-- The text of a stylesheet: every rule on a line of its own. -/
def stylesheetText (rules : List Rule) : String := String.intercalate "\n" (rules.map text)

end Rule

end StyleGate
