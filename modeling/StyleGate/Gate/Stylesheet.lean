import StyleGate.Gate.Rule
import StyleGate.Policy.Validity

/-!
# Whole stylesheets at the gate

`Policy.judgeStylesheet` judges the rules of a stylesheet. A `Session` judges one stylesheet after
another and keeps the diagnostics until they are cleared. `Policy.clean` goes from text to text: it
refuses an invalid policy, and otherwise gives the text of the rules that are left with all
diagnostics of reading and of judging.
-/

namespace StyleGate

namespace Policy

/-- The judgement on the rules of a stylesheet. They are kept if what is left of them is the same
list. -/
def judgeStylesheet (p : Policy) (rules : List Rule) : Judgement (List Rule) :=
  let (left, errors) := sanitizeRules p.sanitizers rules
  { outcome := if Rule.agreesAll left rules then .kept else .replaced left, errors }

end Policy

/-- A policy at work, and the diagnostics since they were last cleared. -/
structure Session where
  policy : Policy
  log : List Diagnostic := []
deriving Repr

namespace Session

/-- Judges a stylesheet and keeps its diagnostics. -/
def pass (s : Session) (rules : List Rule) : Outcome (List Rule) × Session :=
  let j := s.policy.judgeStylesheet rules
  (j.outcome, { s with log := s.log ++ j.errors })

/-- Forgets the diagnostics. -/
def clear (s : Session) : Session := { s with log := [] }

end Session

/-- A stylesheet that went through the gate: its text, the diagnostics of reading it, and those of
judging it. -/
structure CleanSheet where
  css : String
  parseErrors : List Diagnostic := []
  sanitizationErrors : List Diagnostic := []
deriving DecidableEq, Repr

namespace CleanSheet

/-- All diagnostics, those of reading first. -/
def diagnostics (s : CleanSheet) : List Diagnostic := s.parseErrors ++ s.sanitizationErrors

/-- The number of diagnostics. -/
def count (s : CleanSheet) : Nat := s.parseErrors.length + s.sanitizationErrors.length

/-- Whether the stylesheet was accepted as it is. -/
def isClean (s : CleanSheet) : Bool := s.count == 0

end CleanSheet

namespace Policy

/-- What is left of a text under a policy. -/
def cleanText (p : Policy) (css : String) : CleanSheet :=
  let (rules, parser) := (Parser.ofText css).stylesheet
  let j := p.judgeStylesheet rules
  { css := Rule.stylesheetText ((j.outcome.survivor rules).getD [])
    parseErrors := parser.errors
    sanitizationErrors := j.errors }

/-- What is left of a text under a policy, if the policy is valid. -/
def clean (p : Policy) (css : String) : Except InvalidPolicy CleanSheet := do
  p.validate
  return p.cleanText css

/-- Under a valid policy every text is sanitized; there is nothing else to fail. -/
theorem clean_of_valid {p : Policy} (h : p.validate = .ok ()) (css : String) :
    p.clean css = .ok (p.cleanText css) := by
  rw [clean, h]
  rfl

end Policy

end StyleGate
