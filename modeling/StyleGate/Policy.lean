import StyleGate.Text.AsciiCase

/-!
# Policies

A policy lists what may stay in a stylesheet: at-rules by name, the properties of declarations, the
functions of values and of selectors, and whether urls are allowed. Names count up to the case of
ASCII letters. A rule index orders the rules of a list: a rule is admitted if its `test` is not below
the highest `set` of the rules admitted before it.
-/

namespace StyleGate

open Text

/-- The place of a sort of rule among its siblings. -/
structure RuleIndex where
  test : Int32
  set : Int32
deriving DecidableEq, Repr, Inhabited

namespace RuleIndex

/-- The index that admits any number of rules of its own place. -/
def single (n : Int32) : RuleIndex := ⟨n, n⟩

/-- Whether the index is a single number. -/
def isSingle (i : RuleIndex) : Bool := i.test == i.set

/-- The written form: a number, or two in brackets. -/
def label (i : RuleIndex) : String :=
  if i.isSingle then toString i.test.toInt
  else "[" ++ toString i.test.toInt ++ ", " ++ toString i.set.toInt ++ "]"

/-- Whether no rule with this index could ever follow another one, because its `test` is above its
`set`. -/
def isInverted (i : RuleIndex) : Bool := decide (i.set < i.test)

/-- The index of ordinary rules. -/
def ordinary : RuleIndex := single 3

end RuleIndex

/-- What may follow the prelude of an at-rule. -/
inductive BlockShape where
  /-- Nothing but a semicolon. -/
  | none
  /-- A block of rules. -/
  | rules
  /-- A block of declarations. -/
  | declarations
  /-- A semicolon or a block of declarations. -/
  | optional
deriving DecidableEq, Repr, Inhabited

namespace BlockShape

/-- The name of a shape in policy files. -/
def tag : BlockShape → String
  | none => "none"
  | rules => "rules"
  | declarations => "declarations"
  | optional => "optional"

/-- The shape with a given name. -/
def ofTag? (name : String) : Option BlockShape :=
  [none, rules, declarations, optional].find? fun shape => shape.tag == name

/-- A shape is told from its tag. -/
theorem ofTag?_tag (shape : BlockShape) : ofTag? shape.tag = some shape := by
  cases shape <;> decide

end BlockShape

/-- An allowed at-rule. An opt-in rule counts only where it is enabled by name. -/
structure AtRulePolicy where
  name : String := ""
  description : Option String := none
  index : RuleIndex := RuleIndex.ordinary
  block : BlockShape := .none
  optIn : Bool := false
deriving DecidableEq, Repr, Inhabited

/-- What is allowed of style rules. -/
structure StyleRulePolicy where
  enabled : Bool := true
  index : RuleIndex := RuleIndex.ordinary
  properties : List String := []
deriving DecidableEq, Repr, Inhabited

/-- What is allowed in values. -/
structure ValuePolicy where
  functions : List String := []
  allowUrls : Bool := false
deriving DecidableEq, Repr, Inhabited

/-- What is allowed in selectors. -/
structure SelectorPolicy where
  functions : List String := []
deriving DecidableEq, Repr, Inhabited

/-- All that may stay in a stylesheet. -/
structure Policy where
  atRules : List AtRulePolicy := []
  styleRules : StyleRulePolicy := {}
  values : ValuePolicy := {}
  selectors : SelectorPolicy := {}
deriving DecidableEq, Repr, Inhabited

/-- Whether the at-rule goes by a name. -/
def AtRulePolicy.isNamed (r : AtRulePolicy) (name : String) : Bool := sameFolded r.name name

namespace Policy

/-- The at-rule of a name. -/
def atRule? (p : Policy) (name : String) : Option AtRulePolicy :=
  p.atRules.find? (·.isNamed name)

/-- Whether a property is allowed. Custom properties, which start with two hyphens, always are. -/
def allowsProperty (p : Policy) (name : String) : Bool :=
  ['-', '-'].isPrefixOf name.toList || containsFolded p.styleRules.properties name

/-- What is allowed in selectors, as in values. Selectors have no urls. -/
def selectorValues (p : Policy) : ValuePolicy := ⟨p.selectors.functions, false⟩

end Policy

end StyleGate
