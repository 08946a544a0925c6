import StyleGate.Gate.Outcome
import StyleGate.Policy
import StyleGate.Rule

/-!
# Rules and their sanitizers

A list of rules is handed out among sanitizers: a rule goes to the first sanitizer that handles it,
if its index is not below the highest one that was set before. `plan` decides that for every rule,
from what the sanitizers handle and their indexes alone; `sanitizeRules` carries it out. A rule that
was handed over counts for the order even if its sanitizer removes it; a rule that was not does not
count.
-/

namespace StyleGate

/-- A sanitizer of rules: what it is called, which rules it handles, their place among others, and
its judgement on a rule. -/
structure RuleSanitizer where
  name : Option String := none
  handles : Rule → Bool
  index : RuleIndex
  judge : Rule → Judgement Rule

/-- What is decided about a rule before it is looked into. -/
inductive Admission where
  /-- No sanitizer handles it. -/
  | unrecognized
  /-- It comes after rules that it must precede. -/
  | misordered
  /-- It goes to a sanitizer. -/
  | admitted (sanitizer : RuleSanitizer)

namespace RuleSanitizer

/-- The decision on a rule, given the highest index that was set so far. -/
def assess (sanitizers : List RuleSanitizer) (highest : Int32) (r : Rule) : Admission :=
  match sanitizers.find? (·.handles r) with
  | none => .unrecognized
  | some s => if s.index.test < highest then .misordered else .admitted s

end RuleSanitizer

namespace Admission

/-- The highest index set so far, after the decision. -/
def raise (highest : Int32) : Admission → Int32
  | admitted s => max highest s.index.set
  | _ => highest

/-- The judgement on a rule that the decision leads to. -/
def judge (r : Rule) : Admission → Judgement Rule
  | unrecognized => .refuse Diagnostic.unrecognizedRule r.position
  | misordered => .refuse Diagnostic.misorderedRule r.position
  | admitted s => s.judge r

end Admission

namespace RuleSanitizer

/-- The decisions on the rules of a list, given the highest index that was set before it. -/
def planFrom (sanitizers : List RuleSanitizer) (highest : Int32) : List Rule → List Admission
  | [] => []
  | r :: rest =>
    let a := assess sanitizers highest r
    a :: planFrom sanitizers (a.raise highest) rest

/-- The decisions on the rules of a list. -/
def plan (sanitizers : List RuleSanitizer) (rules : List Rule) : List Admission :=
  planFrom sanitizers Int32.minValue rules

end RuleSanitizer

/-- The judgements on the rules of a list, in order. -/
def judgeRules (sanitizers : List RuleSanitizer) (rules : List Rule) :
    List (Rule × Judgement Rule) :=
  (rules.zip (RuleSanitizer.plan sanitizers rules)).map fun (r, a) => (r, a.judge r)

/-- The rules that are left of a list, and the diagnostics on the way. -/
def sanitizeRules (sanitizers : List RuleSanitizer) (rules : List Rule) :
    List Rule × List Diagnostic :=
  Judgement.collect (judgeRules sanitizers rules)

end StyleGate
