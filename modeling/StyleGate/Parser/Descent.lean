import StyleGate.Parser

/-!
# Reading by recursive descent

The readers of this library take component values one after another and keep what is open in their
state. `Descent` reads the same grammar with one function for each construct: a function takes the next
token, and calls the function of the construct that the token starts. A cursor holds the tokens that are
left, a token that was put back, the diagnostics so far, and how many groups are being read.

The functions count on each other. A block is read only where a token opens one, a name is dropped from a
list only where it stands in front, a counter is lowered only after it was raised. Where one of them
counts on something that does not hold, reading breaks down (`Descent.Breakdown`). A function that calls
itself is given fuel, one unit for each token that it may take, and gives no answer when that is used up.
-/

namespace StyleGate

/-- What a descent has in its hands. -/
structure Descent.Cursor where
  pending : List Token
  /-- A token that was taken too early and is the next one again. -/
  putBack : Option Token := none
  errors : List Diagnostic := []
  /-- The number of groups that are being read. -/
  depth : Nat := 0
deriving DecidableEq, Repr

/-- What the functions of a descent count on and does not hold. -/
inductive Descent.Breakdown where
  /-- A group is entered at a token that starts none. -/
  | unreachable (e : NodeError)
  /-- A node refuses what was read for it. -/
  | refused (e : NodeError)
  /-- A list is cut or read behind its end. -/
  | outOfRange
  /-- A counter is lowered from zero. -/
  | underflow
deriving DecidableEq, Repr

/-- A step of a descent. It changes the cursor, may break down, and may give no answer. -/
abbrev Descent := StateT Descent.Cursor (ExceptT Descent.Breakdown Option)

namespace Descent

/-! ## Tokens -/

/-- Takes the next token. -/
def next : Descent (Option Token) := do
  let c ← get
  match c.putBack with
  | some t =>
    set { c with putBack := none }
    return some t
  | none =>
    match c.pending with
    | t :: rest =>
      set { c with pending := rest }
      return some t
    | [] => return none

/-- Puts a token back. -/
def reconsume (t : Token) : Descent Unit := modify fun c => { c with putBack := some t }

/-- Where the next token is. -/
def peekPosition : Descent Position := do
  let c ← get
  match c.putBack with
  | some t => return t.position
  | none => return (c.pending.head?.map Token.position).getD Position.unknown

/-- No answer: the fuel is used up. -/
def exhausted {α : Type} : Descent α := fun _ => (none : Option _)

/-- Records a diagnostic. -/
def record (d : Diagnostic) : Descent Unit := modify fun c => { c with errors := c.errors ++ [d] }

/-! ## What is counted on -/

/-- One less. -/
def lower (n : Nat) : Descent Nat := if n = 0 then throw .underflow else return n - 1

/-- The first values of a list. -/
def upTo (vs : List ComponentValue) (n : Nat) : Descent (List ComponentValue) :=
  if n ≤ vs.length then return vs.take n else throw .outOfRange

/-- A list without its first values. -/
def dropFirst (vs : List ComponentValue) (n : Nat) : Descent (List ComponentValue) :=
  if n ≤ vs.length then return vs.drop n else throw .outOfRange

/-- A value of a list. -/
def elementAt (vs : List ComponentValue) (i : Nat) : Descent ComponentValue :=
  match vs[i]? with
  | some v => return v
  | none => throw .outOfRange

/-- The node of a group that is entered. -/
def entered {α : Type} : Except NodeError α → Descent α
  | .ok node => return node
  | .error e => throw (.unreachable e)

/-- A node that takes what was read for it. -/
def accepted {α : Type} : Except NodeError α → Descent α
  | .ok node => return node
  | .error e => throw (.refused e)

/-! ## Component values -/

/-- Passes over a group in which `n` groups are open, itself included. -/
def skipRest : (fuel n : Nat) → Descent Unit
  | 0, _ => exhausted
  | fuel + 1, n => do
    match ← next with
    | none => return
    | some t =>
      if t.kind.opensGroup then skipRest fuel (n + 1)
      else if t.kind.closesGroup then
        let n ← lower n
        if n = 0 then return else skipRest fuel n
      else skipRest fuel n

/-- Passes over the group that a token opens, and leaves a mark in its place. -/
def skipGroup (fuel : Nat) (opener : Token) : Descent Token := do
  record ⟨Diagnostic.nestingTooDeep, opener.position⟩
  skipRest fuel 1
  return Token.tooDeepMarker opener.position

/-- The number of groups that are being read. -/
def currentDepth : Descent Nat := do
  let c ← get
  return c.depth

/-- Goes into a group. -/
def enter : Descent Unit := modify fun c => { c with depth := c.depth + 1 }

/-- Comes out of a group. -/
def leave : Descent Unit := do
  let c ← get
  let depth ← lower c.depth
  set { c with depth }

mutual

/-- Reads the value that a token starts. -/
def value (fuel : Nat) (t : Token) : Descent ComponentValue := do
  let depth ← currentDepth
  if t.kind.opensGroup = true ∧ maxGroupDepth ≤ depth then
    let marker ← skipGroup fuel t
    return .token marker
  else if t.kind = .leftBrace ∨ t.kind = .leftBracket ∨ t.kind = .leftParen then
    let b ← block fuel t
    return b.value
  else if t.kind = .function then
    let f ← functionCall fuel t
    return f.value
  else return .token t
termination_by (fuel, 2)

/-- Reads the block that a token opens. -/
def block (fuel : Nat) (opener : Token) : Descent Block := do
  enter
  let b ← entered (Block.ofOpener opener)
  let contents ← contents fuel opener.kind.bracketCloser?
    ⟨Diagnostic.unexpectedEofInBlock, opener.position⟩ []
  leave
  return { b with contents }
termination_by (fuel, 1)

/-- Reads the function that a token names. -/
def functionCall (fuel : Nat) (name : Token) : Descent FunctionCall := do
  enter
  let f ← entered (FunctionCall.ofName name)
  let contents ← contents fuel (some .rightParen)
    ⟨Diagnostic.unexpectedEofInFunction, name.position⟩ []
  leave
  return { f with contents }
termination_by (fuel, 1)

/-- Reads the contents of a group up to the token that ends it. -/
def contents (fuel : Nat) (closer : Option TokenKind) (unclosed : Diagnostic)
    (sofar : List ComponentValue) : Descent (List ComponentValue) :=
  match fuel with
  | 0 => exhausted
  | fuel + 1 => do
    match ← next with
    | none =>
      record unclosed
      return sofar
    | some t =>
      if some t.kind = closer then return sofar
      else
        let v ← value fuel t
        contents fuel closer unclosed (sofar ++ [v])
termination_by (fuel, 0)

end

/-- Reads all that is left as values. -/
def values : (fuel : Nat) → (sofar : List ComponentValue) → Descent (List ComponentValue)
  | 0, _ => exhausted
  | fuel + 1, sofar => do
    match ← next with
    | none => return sofar
    | some t =>
      let v ← value fuel t
      values fuel (sofar ++ [v])

end Descent

/-! ## Rules -/

/-- Gives a started rule its block. -/
def OpenRule.setBlock (b : Block) : OpenRule → Except NodeError Rule
  | atRule keyword before =>
    (AtRule.withBlock { keyword, prelude := before.reverse } (some b)).map Rule.atRule
  | qualified position before =>
    (QualifiedRule.withBlock { position, prelude := before.reverse } b).map Rule.qualified

namespace Descent

/-- Reads the rest of a started rule. -/
def ruleRest : (fuel : Nat) → (r : OpenRule) → Descent (Option Rule)
  | 0, _ => exhausted
  | fuel + 1, r => do
    match ← next with
    | none =>
      record r.unfinished
      return r.withoutBlock?
    | some t =>
      if t.kind = .semicolon ∧ r.withoutBlock?.isSome then return r.withoutBlock?
      else if t.kind = .leftBrace then
        let b ← block fuel t
        let rule ← accepted (r.setBlock b)
        return some rule
      else
        let v ← value fuel t
        ruleRest fuel (r.add v)

/-- Reads the at-rule of a keyword. -/
def atRule (fuel : Nat) (keyword : Token) : Descent (Option Rule) := do
  let r ← accepted (AtRule.ofKeyword keyword)
  ruleRest fuel (.atRule r.keyword [])

/-- Reads a qualified rule. -/
def qualifiedRule (fuel : Nat) : Descent (Option Rule) := do
  let position ← peekPosition
  ruleRest fuel (.qualified position [])

/-- Reads all that is left as rules. -/
def rules (topLevel : Bool) : (fuel : Nat) → (sofar : List Rule) → Descent (List Rule)
  | 0, _ => exhausted
  | fuel + 1, sofar => do
    match ← next with
    | none => return sofar
    | some t =>
      if t.kind = .whitespace then rules topLevel fuel sofar
      else if topLevel = true ∧ (t.kind = .cdo ∨ t.kind = .cdc) then rules topLevel fuel sofar
      else if t.kind = .atKeyword then
        let rule ← atRule fuel t
        rules topLevel fuel (sofar ++ rule.toList)
      else
        -- the token that is put back is taken twice
        reconsume t
        let rule ← qualifiedRule (fuel + 1)
        rules topLevel fuel (sofar ++ rule.toList)

/-! ## Declarations -/

/-- Values without whitespace at their ends. -/
def trimWhitespace (vs : List ComponentValue) : Descent (List ComponentValue) :=
  let vs := (vs.reverse.dropWhile ComponentValue.isWhitespace).reverse
  dropFirst vs (vs.takeWhile ComponentValue.isWhitespace).length

/-- The place of the last value in a list that is no whitespace. -/
def lastMark? (vs : List ComponentValue) : Option Nat :=
  (vs.reverse.findIdx? fun v => !v.isWhitespace).map (vs.length - 1 - ·)

/-- The place of the `!` of a trailing `! important`. -/
def importantMarker (vs : List ComponentValue) : Descent (Option Nat) := do
  match vs.getLast? with
  | some (.token last) =>
    if last.isNamed .ident "important" then
      let count ← lower vs.length
      let before ← upTo vs count
      match lastMark? before with
      | none => return none
      | some bang =>
        match ← elementAt vs bang with
        | .token t => return if t.kind = .delim ∧ t.value = "!" then some bang else none
        | _ => return none
    else return none
  | _ => return none

/-- Makes a declaration of its values. -/
def declaration : List ComponentValue → Descent (Option Declaration)
  | .token name :: rest => do
    match Declaration.ofName name with
    | .error _ => return none
    | .ok d =>
      let rest := rest.dropWhile ComponentValue.isWhitespace
      if rest.head?.any (·.isToken .colon) then
        let value ← dropFirst rest 1
        let value ← trimWhitespace value
        match ← importantMarker value with
        | some bang =>
          let value ← trimWhitespace (value.take bang)
          return some { d with value, important := true }
        | none => return some { d with value }
      else
        record ⟨Diagnostic.expectedColon, d.position⟩
        return none
  | _ => return none

/-- Reads values up to a semicolon. -/
def upToSemicolon : (fuel : Nat) → (sofar : List ComponentValue) → Descent (List ComponentValue)
  | 0, _ => exhausted
  | fuel + 1, sofar => do
    match ← next with
    | none => return sofar
    | some t =>
      if t.kind = .semicolon then return sofar
      else
        let v ← value fuel t
        upToSemicolon fuel (sofar ++ [v])

/-- Drops values up to a semicolon. -/
def dropToSemicolon : (fuel : Nat) → Descent Unit
  | 0 => exhausted
  | fuel + 1 => do
    match ← next with
    | none => return
    | some t =>
      if t.kind = .semicolon then return
      else
        let _ ← value fuel t
        dropToSemicolon fuel

/-- Reports an at-rule that has no place where it was read. -/
def reportAtRule : Option Rule → Descent Unit
  | some rule => record ⟨Diagnostic.unexpectedAtRule, rule.position⟩
  | none => return

/-- Reads all that is left as declarations. -/
def declarations : (fuel : Nat) → (sofar : List Declaration) → Descent (List Declaration)
  | 0, _ => exhausted
  | fuel + 1, sofar => do
    match ← next with
    | none => return sofar
    | some t =>
      if t.kind = .whitespace ∨ t.kind = .semicolon then declarations fuel sofar
      else if t.kind = .atKeyword then
        let rule ← atRule fuel t
        reportAtRule rule
        declarations fuel sofar
      else if t.kind = .ident then
        let vs ← upToSemicolon fuel [.token t]
        let d ← declaration vs
        declarations fuel (sofar ++ d.toList)
      else
        record ⟨Diagnostic.expectedIdent, t.position⟩
        reconsume t
        dropToSemicolon (fuel + 1)
        declarations fuel sofar

end Descent

/-! ## Calls -/

/-- What a parser may be asked to read its tokens as. -/
inductive Call where
  | stylesheet | rules | declarations | values
deriving DecidableEq, Repr

/-- What a parser reads. -/
inductive Answer where
  | rules (rules : List Rule)
  | declarations (declarations : List Declaration)
  | values (values : List ComponentValue)
deriving Repr

namespace Call

/-- The answer of a parser. -/
def ask (p : Parser) : Call → Answer × Parser
  | stylesheet => p.stylesheet.map .rules id
  | rules => p.rules.map .rules id
  | declarations => p.declarations.map .declarations id
  | values => p.values.map .values id

/-- The answer of a descent. -/
def descend (fuel : Nat) : Call → Descent Answer
  | stylesheet => .rules <$> Descent.rules true fuel []
  | rules => .rules <$> Descent.rules false fuel []
  | declarations => .declarations <$> Descent.declarations fuel []
  | values => .values <$> Descent.values fuel []

/-- The answer to a call if nothing is there to be read. -/
def nothing : Call → Answer
  | stylesheet | rules => .rules []
  | declarations => .declarations []
  | values => .values []

/-- The answers of a descent to one call after another. -/
def descendAll (fuel : Nat) : List Call → Descent (List Answer)
  | [] => return []
  | call :: calls => do
    let answer ← call.descend fuel
    let answers ← descendAll fuel calls
    return answer :: answers

end Call

end StyleGate
