import StyleGate.Policy

/-!
# Valid policies

A policy is valid if every at-rule has a name of its own, written without the at-sign, and no index
tests for more than it sets. All faults are found, in the order of the at-rules.
-/

namespace StyleGate

open Text

/-- A fault of a policy. -/
inductive PolicyFault where
  | emptyName
  | markedName (name : String)
  | duplicateName (name : String)
  | invertedIndex (name : String) (index : RuleIndex)
  | invertedStyleIndex (index : RuleIndex)
deriving DecidableEq, Repr

/-- The message of a fault. -/
def PolicyFault.message : PolicyFault → String
  | emptyName => "An at-rule has an empty `name` field."
  | markedName name => "At-rule '" ++ name ++ "' must be named without the leading '@'."
  | duplicateName name => "Duplicate at-rule name found: '" ++ name ++ "'."
  | invertedIndex name index =>
    "At-rule '" ++ name ++ "' has index " ++ index.label ++
      " whose test value exceeds its set value."
  | invertedStyleIndex index =>
    "Style rules have index " ++ index.label ++ " whose test value exceeds its set value."

/-- What makes a policy unfit for use. -/
structure InvalidPolicy where
  faults : List PolicyFault
deriving DecidableEq, Repr

/-- The message of an unfit policy: its faults, each on a line. -/
def InvalidPolicy.message (e : InvalidPolicy) : String :=
  "Invalid sanitizer policy: " ++ String.intercalate "\n" (e.faults.map PolicyFault.message)

/-- What is said where an unfit policy was to be used. -/
def InvalidPolicy.refusal : String := "Refusing to sanitize with an invalid policy"

namespace Policy

/-- The fault in the name of an at-rule, given the names before it. -/
def nameFaults (seen : List String) (name : String) : List PolicyFault :=
  if name.isEmpty then [.emptyName]
  else if name.toList.head? = some '@' then [.markedName name]
  else if containsFolded seen name then [.duplicateName name]
  else []

/-- The fault in the index of an at-rule. -/
def indexFaults (r : AtRulePolicy) : List PolicyFault :=
  if r.index.isInverted then [.invertedIndex r.name r.index] else []

/-- The faults of at-rules, given the well-formed names before them. -/
def atRuleFaults (seen : List String) : List AtRulePolicy → List PolicyFault
  | [] => []
  | r :: rest =>
    let names := nameFaults seen r.name
    let seen := if names.isEmpty then r.name :: seen else seen
    names ++ indexFaults r ++ atRuleFaults seen rest

/-- The faults of a policy. -/
def faults (p : Policy) : List PolicyFault :=
  atRuleFaults [] p.atRules ++
    if p.styleRules.index.isInverted then [.invertedStyleIndex p.styleRules.index] else []

/-- Succeeds for a policy without faults. -/
def validate (p : Policy) : Except InvalidPolicy Unit :=
  if p.faults.isEmpty then .ok () else .error ⟨p.faults⟩

end Policy

end StyleGate
