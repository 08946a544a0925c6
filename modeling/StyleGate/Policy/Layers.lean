import StyleGate.Policy

/-!
# Layers of a policy

A user's policy is laid over a default one: its at-rules take the places of those of the same name,
names in lists are added where they are new, and the switches are the user's. Then at-rules are
enabled and disabled by name: what is disabled goes, and what is opt-in stays only if it is enabled.
-/

namespace StyleGate

open Text

/-- A list of at-rules with another one in place of the first of its name, or at the end. -/
def AtRulePolicy.putInto (entry : AtRulePolicy) : List AtRulePolicy → List AtRulePolicy
  | [] => [entry]
  | r :: rest => if r.isNamed entry.name then entry :: rest else r :: entry.putInto rest

/-- A list of names with another one at the end, if it is new. -/
def addName (names : List String) (name : String) : List String :=
  if containsFolded names name then names else names ++ [name]

/-- A list of names with the new ones of another list at the end. -/
def unionNames (names more : List String) : List String := more.foldl addName names

namespace Policy

/-- A user's policy over a default one. -/
def overlay (p user : Policy) : Policy where
  atRules := user.atRules.foldl (fun entries entry => entry.putInto entries) p.atRules
  styleRules :=
    { enabled := user.styleRules.enabled
      index := user.styleRules.index
      properties := unionNames p.styleRules.properties user.styleRules.properties }
  values :=
    { functions := unionNames p.values.functions user.values.functions
      allowUrls := user.values.allowUrls }
  selectors := ⟨unionNames p.selectors.functions user.selectors.functions⟩

/-- A user's policy, if there is one, over a default one. -/
def merge (p : Policy) : Option Policy → Policy
  | some user => p.overlay user
  | none => p

/-- Whether an at-rule stays when some are enabled and some are disabled by name. -/
def staysActive (enable disable : List String) (r : AtRulePolicy) : Bool :=
  !containsFolded disable r.name && (!r.optIn || containsFolded enable r.name)

/-- The policy with at-rules enabled and disabled by name. -/
def activate (p : Policy) (enable disable : List String) : Policy :=
  { p with atRules := p.atRules.filter (staysActive enable disable) }

/-- The names of a list that no at-rule has: in lower case, and each of them once. -/
def unknownNames (p : Policy) (names : List String) : List String :=
  ((names.map folded).eraseDups).filter fun name => (p.atRule? name).isNone

end Policy

end StyleGate
