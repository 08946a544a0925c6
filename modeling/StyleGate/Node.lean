import StyleGate.Declaration
import StyleGate.Rule

/-!
# Nodes

A node is a piece of a stylesheet of any sort: a token, a group, a list of values, a declaration, a
rule, or a list of either. Every node has tokens, a text and a position.
-/

namespace StyleGate

/-- A piece of a stylesheet. -/
inductive Node where
  | token (t : Token)
  | block (b : Block)
  | function (f : FunctionCall)
  | values (vs : List ComponentValue)
  | declaration (d : Declaration)
  | declarations (ds : List Declaration)
  | rule (r : Rule)
  | rules (rs : List Rule)
deriving Repr, Inhabited

/-- A value wrapped into groups, `depth` of them: blocks that a token opens, or functions. -/
def ComponentValue.nest (opener : Token) (v : ComponentValue) : Nat → ComponentValue
  | 0 => v
  | depth + 1 =>
    if opener.kind = .function then .function opener [nest opener v depth]
    else .block opener [nest opener v depth]

namespace Node

/-- The node of a component value. -/
def ofValue : ComponentValue → Node
  | .token t => token t
  | .block opener contents => block { opener, contents }
  | .function name contents => function { name, contents }

/-- The node as a component value. -/
def value? : Node → Option ComponentValue
  | token t => some (.token t)
  | block b => some b.value
  | function f => some f.value
  | _ => none

/-- The tokens of the node. -/
def tokens : Node → List Token
  | token t => [t]
  | block b => b.tokens
  | function f => f.tokens
  | values vs => ComponentValue.tokensAll vs
  | declaration d => d.tokens
  | declarations ds => Declaration.tokensAll ds
  | rule r => r.tokens
  | rules rs => Rule.tokensAll rs

/-- The text of the node. -/
def text (n : Node) : String := Token.render n.tokens

/-- Where the node starts. -/
def position : Node → Position
  | token t => t.position
  | block b => b.opener.position
  | function f => f.name.position
  | values vs => ComponentValue.positionOf vs
  | declaration d => d.position
  | declarations ds => Declaration.positionOf ds
  | rule r => r.position
  | rules rs => Rule.positionOf rs

/-- The list of values that the node holds: its contents, or the prelude of a rule. -/
def values? : Node → Option (List ComponentValue)
  | block b => some b.contents
  | function f => some f.contents
  | values vs => some vs
  | declaration d => some d.value
  | rule r => some r.prelude
  | _ => none

/-- The node as a declaration. -/
def declaration? : Node → Option Declaration
  | declaration d => some d
  | _ => none

/-- The node as a list of declarations. -/
def declarations? : Node → Option (List Declaration)
  | declarations ds => some ds
  | _ => none

/-- The node as a rule. -/
def rule? : Node → Option Rule
  | rule r => some r
  | _ => none

/-- The node as a list of rules. -/
def rules? : Node → Option (List Rule)
  | rules rs => some rs
  | _ => none

/-- The node as a block, or the block of a rule. -/
def block? : Node → Option Block
  | block b => some b
  | rule r => r.block?
  | _ => none

/-- The members of the node, if it holds a list. -/
def members : Node → List Node
  | declarations ds => ds.map declaration
  | rules rs => rs.map rule
  | n => (n.values?.getD []).map ofValue

/-- Equality up to the positions of tokens. Nodes of different sorts are never equal. -/
def agrees : Node → Node → Bool
  | token a, token b => a.agrees b
  | block a, block b => a.agrees b
  | function a, function b => a.value.agrees b.value
  | values a, values b => ComponentValue.agreesAll a b
  | declaration a, declaration b => a.agrees b
  | declarations a, declarations b => Declaration.agreesAll a b
  | rule a, rule b => a.agrees b
  | rules a, rules b => Rule.agreesAll a b
  | _, _ => false

end Node

end StyleGate
