import StyleGate.Rule
import StyleGate.ComponentValue.Grouping

/-!
# Rules read from component values

Where the next rule is looked for, whitespace is left out, and at the top of a stylesheet the marks
`<!--` and `-->` too. An at-keyword starts an at-rule, which ends with a semicolon or a block in
braces; anything else starts a qualified rule, which ends with a block in braces. At the end of the
input an unfinished at-rule counts as finished and an unfinished qualified rule is dropped, either
with a diagnostic.
-/

namespace StyleGate

/-- A rule that has been started: an at-rule with its keyword, or a qualified rule with its
position; and the prelude so far, the last value first. -/
inductive OpenRule where
  | atRule (keyword : Token) (prelude : List ComponentValue)
  | qualified (position : Position) (prelude : List ComponentValue)
deriving Repr

namespace OpenRule

/-- The rule with one more value in its prelude. -/
def add (v : ComponentValue) : OpenRule → OpenRule
  | atRule keyword before => atRule keyword (v :: before)
  | qualified position before => qualified position (v :: before)

/-- Where the rule starts. -/
def position : OpenRule → Position
  | atRule keyword _ => keyword.position
  | qualified position _ => position

/-- The rule once its block is read. -/
def withBlock (block : Block) : OpenRule → Rule
  | atRule keyword before =>
    .atRule { keyword, prelude := before.reverse, block := some block }
  | qualified position before => .qualified { position, prelude := before.reverse, block }

/-- The rule where it ends without a block. Only an at-rule can. -/
def withoutBlock? : OpenRule → Option Rule
  | atRule keyword before => some (.atRule { keyword, prelude := before.reverse })
  | qualified _ _ => none

/-- The diagnostic of a rule that is not finished at the end of the input. -/
def unfinished (r : OpenRule) : Diagnostic := ⟨Diagnostic.unexpectedEofInRule, r.position⟩

end OpenRule

/-- What a component value does to a started rule. -/
inductive RuleStep where
  | goesOn (rule : OpenRule)
  | ends (rule : Rule)

/-- Reads a component value as the next part of a started rule. -/
def OpenRule.step (r : OpenRule) (v : ComponentValue) : RuleStep :=
  match v with
  | .block opener contents =>
    if opener.kind = .leftBrace then .ends (r.withBlock { opener, contents }) else .goesOn (r.add v)
  | _ =>
    if v.isToken .semicolon then
      match r.withoutBlock? with
      | some rule => .ends rule
      | none => .goesOn (r.add v)
    else .goesOn (r.add v)

/-- The start of a rule. -/
def OpenRule.start (v : ComponentValue) : OpenRule :=
  match v with
  | .token t => if t.kind = .atKeyword then .atRule t [] else .qualified t.position []
  | _ => .qualified v.position []

/-- What is known in the middle of a list of rules. -/
structure RuleReader where
  /-- The finished rules, the last one first. -/
  done : List Rule := []
  /-- The rule that has been started. -/
  current : Option OpenRule := none
deriving Repr

namespace RuleReader

/-- Whether a value is left out where the next rule is looked for. -/
def isSkipped (topLevel : Bool) (v : ComponentValue) : Bool :=
  v.isWhitespace || (topLevel && (v.isToken .cdo || v.isToken .cdc))

/-- Takes a value as a part of a started rule. -/
def goOn (s : RuleReader) (r : OpenRule) (v : ComponentValue) : RuleReader :=
  match r.step v with
  | .goesOn r => { s with current := some r }
  | .ends rule => { done := rule :: s.done, current := none }

/-- Takes the next value. -/
def push (topLevel : Bool) (s : RuleReader) (v : ComponentValue) : RuleReader :=
  match s.current with
  | some r => s.goOn r v
  | none =>
    if isSkipped topLevel v then s
    else if v.isToken .atKeyword then { s with current := some (OpenRule.start v) }
    else s.goOn (OpenRule.start v) v

/-- The rules at the end of the input, and the diagnostic of an unfinished one. -/
def finish (s : RuleReader) : List Rule × List Diagnostic :=
  match s.current with
  | none => (s.done.reverse, [])
  | some r => ((r.withoutBlock?.toList ++ s.done).reverse, [r.unfinished])

end RuleReader

/-- The rules in a list of component values, and the diagnostic of an unfinished one. -/
def Rule.ofValues (topLevel : Bool) (values : List ComponentValue) : List Rule × List Diagnostic :=
  (values.foldl (RuleReader.push topLevel) {}).finish

/-- The rules in a list of tokens, and the diagnostics on the way. -/
def Rule.readAll (topLevel : Bool) (ts : List Token) : List Rule × List Diagnostic :=
  let (values, errors) := ComponentValue.readAll ts
  let (rules, more) := Rule.ofValues topLevel values
  (rules, errors ++ more)

end StyleGate
