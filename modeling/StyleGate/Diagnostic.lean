import StyleGate.Position

/-!
# Diagnostics

A diagnostic says what was recovered from or refused, by a code, and where. The codes that the
library itself records are named here. A log is a list of diagnostics in the order of recording.
-/

namespace StyleGate

/-- What was recovered from or refused, and where. -/
structure Diagnostic where
  code : String
  position : Position
deriving DecidableEq, Repr, Inhabited

namespace Diagnostic

/-- The written form of a diagnostic. -/
def text (d : Diagnostic) : String :=
  d.code ++ " at line " ++ toString d.position.line ++ ", column " ++ toString d.position.column

/-! ## Codes of the readers -/

/-- A group lies inside too many others. -/
def nestingTooDeep : String := "nesting-too-deep"
/-- A block is still open at the end. -/
def unexpectedEofInBlock : String := "unexpected-eof-in-block"
/-- A function is still open at the end. -/
def unexpectedEofInFunction : String := "unexpected-eof-in-function"
/-- A rule is not finished at the end. -/
def unexpectedEofInRule : String := "unexpected-eof-in-rule"
/-- An at-rule stands among declarations. -/
def unexpectedAtRule : String := "unexpected-at-rule"
/-- A declaration starts with something other than a name. -/
def expectedIdent : String := "expected-ident"
/-- No colon follows the name of a declaration. -/
def expectedColon : String := "expected-colon"

/-! ## Codes of the gate -/

/-- A token that no value may hold. -/
def invalidToken : String := "invalid-token"
/-- A function that the policy does not list. -/
def disallowedFunction : String := "disallowed-function"
/-- A url where the policy allows none. -/
def disallowedUrl : String := "disallowed-url"
/-- A brace block inside a value. -/
def unexpectedBlock : String := "unexpected-block"
/-- A property that the policy does not list. -/
def unrecognizedProperty : String := "unrecognized-property"
/-- A declaration without a value. -/
def missingValue : String := "missing-value"
/-- A declaration whose value was refused. -/
def badValueForProperty : String := "bad-value-for-property"
/-- A style rule whose selector is blank or was refused. -/
def invalidSelector : String := "invalid-selector"
/-- An at-rule whose prelude was refused. -/
def invalidAtRulePrelude : String := "invalid-at-rule-prelude"
/-- An at-rule without the block it needs. -/
def atRuleBlockRequired : String := "at-rule-block-required"
/-- An at-rule with a block it must not have. -/
def atRuleBlockNotAllowed : String := "at-rule-block-not-allowed"
/-- A rule that the policy does not know. -/
def unrecognizedRule : String := "unrecognized-rule"
/-- A rule after rules that it must precede. -/
def misorderedRule : String := "misordered-rule"

end Diagnostic

end StyleGate
