import StyleGate.Policy

/-!
# Reading a policy from a document

Policies come as JSON values and as YAML files. A `Form` says how a document of some kind shows a
value of the sort that is wanted at its place: a text, a switch, a number, a list, a record.
`Policy.ofForm?` reads a policy through it. A field that is missing has its default, an unknown field
is left alone, a known field that stands twice is refused, and so is a value of the wrong sort.
-/

namespace StyleGate

/-- How a document shows values of a wanted sort. -/
structure Form (ν : Type) where
  /-- A text. -/
  text? : ν → Option String
  /-- A text that may be left out by writing a null; then it is `some none`. -/
  optionalText? : ν → Option (Option String)
  /-- A switch. -/
  flag? : ν → Option Bool
  /-- An integer of any size. -/
  integer? : ν → Option Int
  /-- A list. -/
  items? : ν → Option (List ν)
  /-- One of a few names. -/
  choice? : ν → Option String
  /-- The fields of a record whose known fields have the given names. -/
  fields? : List String → ν → Option (List (String × ν))

/-- The field of a name, read if it is there, and its default if not. It must not stand twice. -/
def readField {ν α : Type} (fields : List (String × ν)) (name : String) (default : α)
    (read : ν → Option α) : Option α :=
  match fields.filter (·.1 == name) with
  | [] => some default
  | [(_, v)] => read v
  | _ => none

namespace RuleIndex

/-- A number in the range of indexes. -/
def bound? (n : Int) : Option Int32 :=
  if Int32.minValue.toInt ≤ n ∧ n ≤ Int32.maxValue.toInt then some (Int32.ofInt n) else none

/-- An index: a number, or a list of two. -/
def ofForm? {ν : Type} (form : Form ν) (v : ν) : Option RuleIndex :=
  match form.integer? v with
  | some n => (bound? n).map single
  | none => do
    match ← form.items? v with
    | [test, set] => return ⟨← bound? (← form.integer? test), ← bound? (← form.integer? set)⟩
    | _ => none

end RuleIndex

/-- A list of texts. -/
def textsOfForm? {ν : Type} (form : Form ν) (v : ν) : Option (List String) := do
  (← form.items? v).mapM form.text?

/-- The policy of an at-rule in a document. -/
def AtRulePolicy.ofForm? {ν : Type} (form : Form ν) (v : ν) : Option AtRulePolicy := do
  let fields ← form.fields? ["name", "description", "index", "block", "opt_in"] v
  return {
    name := ← readField fields "name" "" form.text?
    description := ← readField fields "description" none form.optionalText?
    index := ← readField fields "index" RuleIndex.ordinary (RuleIndex.ofForm? form)
    block := ← readField fields "block" .none fun v => form.choice? v >>= BlockShape.ofTag?
    optIn := ← readField fields "opt_in" false form.flag? }

/-- The policy of style rules in a document. -/
def StyleRulePolicy.ofForm? {ν : Type} (form : Form ν) (v : ν) : Option StyleRulePolicy := do
  let fields ← form.fields? ["enabled", "index", "properties"] v
  return {
    enabled := ← readField fields "enabled" true form.flag?
    index := ← readField fields "index" RuleIndex.ordinary (RuleIndex.ofForm? form)
    properties := ← readField fields "properties" [] (textsOfForm? form) }

/-- The policy of values in a document. -/
def ValuePolicy.ofForm? {ν : Type} (form : Form ν) (v : ν) : Option ValuePolicy := do
  let fields ← form.fields? ["functions", "allow_urls"] v
  return {
    functions := ← readField fields "functions" [] (textsOfForm? form)
    allowUrls := ← readField fields "allow_urls" false form.flag? }

/-- The policy of selectors in a document. -/
def SelectorPolicy.ofForm? {ν : Type} (form : Form ν) (v : ν) : Option SelectorPolicy := do
  let fields ← form.fields? ["functions"] v
  return { functions := ← readField fields "functions" [] (textsOfForm? form) }

/-- The policy in a document. -/
def Policy.ofForm? {ν : Type} (form : Form ν) (v : ν) : Option Policy := do
  let fields ← form.fields? ["at_rules", "style_rules", "values", "selectors"] v
  return {
    atRules := ← readField fields "at_rules" [] fun v => do
      (← form.items? v).mapM (AtRulePolicy.ofForm? form)
    styleRules := ← readField fields "style_rules" {} (StyleRulePolicy.ofForm? form)
    values := ← readField fields "values" {} (ValuePolicy.ofForm? form)
    selectors := ← readField fields "selectors" {} (SelectorPolicy.ofForm? form) }

end StyleGate
