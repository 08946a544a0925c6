import StyleGate.Gate.Declaration
import StyleGate.Gate.Dispatch

/-!
# Rules at the gate

A style rule needs a selector that is accepted; its declarations are judged one by one. An at-rule
needs the shape of block that its policy asks for and a prelude that is accepted; its block is judged
as declarations, or as rules in their own right, which may be style rules and further groups of rules
down to `maxGroupRuleDepth`.
-/

namespace StyleGate

open Text

/-- How deep groups of rules may lie in each other. -/
def maxGroupRuleDepth : Nat := 3

namespace Policy

/-- The judgement on a rule whose block was judged. -/
def judgeBlock {α : Type} (replace : Block → Except NodeError α) (j : Judgement Block) :
    Judgement α :=
  match j.outcome with
  | .replaced b =>
    match replace b with
    | .ok new => { outcome := .replaced new, errors := j.errors }
    | .error _ => { outcome := .removed, errors := j.errors }
  | _ => { outcome := .kept, errors := j.errors }

/-! ## Style rules -/

/-- What is wrong with the selector of a style rule. -/
def selectorFaults (p : Policy) (r : QualifiedRule) : List Diagnostic :=
  if ComponentValue.allWhitespace r.prelude then [⟨Diagnostic.invalidSelector, r.position⟩]
  else
    let faults := p.selectorValues.listFaults r.prelude
    if faults.isEmpty then [] else faults ++ [⟨Diagnostic.invalidSelector, r.position⟩]

/-- The judgement on a style rule. -/
def judgeStyleRule (p : Policy) (r : QualifiedRule) : Judgement Rule :=
  let faults := p.selectorFaults r
  if !faults.isEmpty then { outcome := .removed, errors := faults }
  else judgeBlock (fun b => (r.withBlock b).map Rule.qualified) (p.judgeDeclarations r.block)

/-- The sanitizer of style rules. -/
def styleSanitizer (p : Policy) : RuleSanitizer where
  handles
    | .qualified _ => true
    | .atRule _ => false
  index := p.styleRules.index
  judge
    | .qualified r => p.judgeStyleRule r
    | .atRule _ => { outcome := .removed }

/-- The sanitizer of style rules, if they are allowed. -/
def styleSanitizers (p : Policy) : List RuleSanitizer :=
  if p.styleRules.enabled then [p.styleSanitizer] else []

/-! ## At-rules -/

/-- What is wrong with the shape of an at-rule. -/
def shapeFaults (shape : BlockShape) (r : AtRule) : List Diagnostic :=
  match shape, r.block with
  | .none, some _ => [⟨Diagnostic.atRuleBlockNotAllowed, r.position⟩]
  | .rules, none => [⟨Diagnostic.atRuleBlockRequired, r.position⟩]
  | .declarations, none => [⟨Diagnostic.atRuleBlockRequired, r.position⟩]
  | _, _ => []

/-- What is wrong with the prelude of an at-rule. -/
def preludeFaults (p : Policy) (r : AtRule) : List Diagnostic :=
  let faults := p.values.listFaults r.prelude
  if faults.isEmpty then [] else faults ++ [⟨Diagnostic.invalidAtRulePrelude, r.position⟩]

/-- What is wrong with an at-rule before its block is looked into. -/
def headFaults (p : Policy) (shape : BlockShape) (r : AtRule) : List Diagnostic :=
  let shapeFaults := shapeFaults shape r
  if shapeFaults.isEmpty then p.preludeFaults r else shapeFaults

/-- The judgement on a block of rules. -/
def judgeRuleBlock (nested : List RuleSanitizer) (b : Block) : Judgement Block :=
  let (rules, errors) := Rule.readAll false b.contentTokens
  let (kept, more) := sanitizeRules nested rules
  { outcome :=
      if errors.isEmpty && Rule.agreesAll kept rules then .kept
      else .replaced (b.rebuilt (Rule.tokensAll kept))
    errors := errors ++ more }

/-- The judgement on the block of an at-rule. -/
def judgeAtRuleBlock (p : Policy) (nested : List RuleSanitizer) (shape : BlockShape) (b : Block) :
    Judgement Block :=
  match shape with
  | .rules => judgeRuleBlock nested b
  | .declarations | .optional => p.judgeDeclarations b
  | .none => .keep

/-- The judgement on an at-rule. -/
def judgeAtRule (p : Policy) (nested : List RuleSanitizer) (shape : BlockShape) (r : AtRule) :
    Judgement Rule :=
  let faults := p.headFaults shape r
  if !faults.isEmpty then { outcome := .removed, errors := faults }
  else
    match r.block with
    | none => .keep
    | some b =>
      judgeBlock (fun b => (r.withBlock (some b)).map Rule.atRule)
        (p.judgeAtRuleBlock nested shape b)

/-- The at-rules that hold rules. -/
def groupRules (p : Policy) : List AtRulePolicy := p.atRules.filter fun r => r.block == .rules

/-- The sanitizer of an at-rule in whose block groups of rules may lie in each other `levels`
deep. -/
def atRuleSanitizerAt (p : Policy) (levels : Nat) (entry : AtRulePolicy) : RuleSanitizer where
  name := some entry.name
  handles r := r.name?.any entry.isNamed
  index := entry.index
  judge
    | .atRule r =>
      let nested := match levels with
        | 0 => p.styleSanitizers
        | below + 1 => p.groupRules.map (p.atRuleSanitizerAt below) ++ p.styleSanitizers
      p.judgeAtRule nested entry.block r
    | .qualified _ => { outcome := .removed }

/-- The sanitizer of an at-rule. -/
def atRuleSanitizer (p : Policy) (entry : AtRulePolicy) : RuleSanitizer :=
  p.atRuleSanitizerAt maxGroupRuleDepth entry

/-- The sanitizers of a stylesheet: one for every at-rule of the policy, then style rules. -/
def sanitizers (p : Policy) : List RuleSanitizer :=
  p.atRules.map p.atRuleSanitizer ++ p.styleSanitizers

end Policy

end StyleGate
