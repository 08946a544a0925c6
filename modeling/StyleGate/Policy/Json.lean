import StyleGate.Json
import StyleGate.Policy.Form

/-!
# Policies as JSON

A policy is written with all its fields, and an index as a number where its two parts are equal. A
record may also be read from a list of its fields' values in their order, with the last ones left
out, and a name of a few from an object with a null under that name.
-/

namespace StyleGate

namespace RuleIndex

/-- The index as JSON. -/
def toJson (i : RuleIndex) : Json :=
  if i.isSingle then .int i.test.toInt else .array [.int i.test.toInt, .int i.set.toInt]

end RuleIndex

/-- A list of texts as JSON. -/
def textsToJson (texts : List String) : Json := .array (texts.map .string)

/-- The policy of an at-rule as JSON. -/
def AtRulePolicy.toJson (r : AtRulePolicy) : Json :=
  .object
    [("name", .string r.name),
     ("description", match r.description with | some text => .string text | none => .null),
     ("index", r.index.toJson),
     ("block", .string r.block.tag),
     ("opt_in", .bool r.optIn)]

/-- The policy of style rules as JSON. -/
def StyleRulePolicy.toJson (r : StyleRulePolicy) : Json :=
  .object
    [("enabled", .bool r.enabled), ("index", r.index.toJson),
     ("properties", textsToJson r.properties)]

/-- The policy of values as JSON. -/
def ValuePolicy.toJson (r : ValuePolicy) : Json :=
  .object [("functions", textsToJson r.functions), ("allow_urls", .bool r.allowUrls)]

/-- The policy of selectors as JSON. -/
def SelectorPolicy.toJson (r : SelectorPolicy) : Json :=
  .object [("functions", textsToJson r.functions)]

/-- The policy as JSON. -/
def Policy.toJson (p : Policy) : Json :=
  .object
    [("at_rules", .array (p.atRules.map AtRulePolicy.toJson)),
     ("style_rules", p.styleRules.toJson), ("values", p.values.toJson),
     ("selectors", p.selectors.toJson)]

namespace Json

/-- How JSON shows the values of a policy. -/
def form : Form Json where
  text?
    | string s => some s
    | _ => none
  optionalText?
    | string s => some (some s)
    | null => some none
    | _ => none
  flag?
    | bool b => some b
    | _ => none
  integer?
    | int n => some n
    | _ => none
  items?
    | array items => some items
    | _ => none
  choice?
    | string s => some s
    | object [(name, null)] => some name
    | _ => none
  fields? names
    | object fields => some fields
    | array items => if items.length ≤ names.length then some (names.zip items) else none
    | _ => none

end Json

/-- The policy in a JSON value. -/
def Policy.ofJson? (j : Json) : Option Policy := Policy.ofForm? Json.form j

/-- The index in a JSON value. -/
def RuleIndex.ofJson? (j : Json) : Option RuleIndex := RuleIndex.ofForm? Json.form j

end StyleGate
