import StyleGate.Policy.Form
import StyleGate.Yaml.Reading

/-!
# Policies as YAML

A policy file is a YAML document. A text may be any scalar; a null, a switch or a number must be
plain. What was left empty is an empty list or record, and so is a file without a document.
-/

namespace StyleGate

namespace Yaml

/-- How a document shows the values of a policy. -/
def form : Form Yaml where
  text?
    | scalar _ text => some text
    | _ => none
  optionalText?
    | scalar plain text => some (if plain && (text == "" || isNullText text) then none else some text)
    | _ => none
  flag?
    | scalar true text => switch? text
    | _ => none
  integer?
    | scalar true text => integer? text
    | _ => none
  items?
    | list items => some items
    | scalar true "" => some []
    | _ => none
  choice?
    | scalar _ text => some text
    | _ => none
  fields? _
    | record entries => entries.mapM fun (key, v) =>
      match key with
      | scalar _ name => some (name, v)
      | _ => none
    | scalar true "" => some []
    | _ => none

end Yaml

/-- Why a policy file cannot be read: it is no document, or its values are of the wrong sort. -/
inductive PolicyFileFault where
  | noDocument (fault : YamlFault)
  | wrongSort
deriving DecidableEq, Repr

/-- The description of a fault. -/
def PolicyFileFault.message : PolicyFileFault → String
  | noDocument fault => fault.message
  | wrongSort => "invalid type or value in the policy"

/-- Whether a fault breaks the program down. -/
def PolicyFileFault.isBreakdown : PolicyFileFault → Bool
  | noDocument fault => fault.isBreakdown
  | wrongSort => false

/-- What a reading makes of the document in a YAML text. The document is read before anyone looks at
what is behind it. -/
def Yaml.readAs {α : Type} (reading : Option Yaml → Option α) (text : String) :
    Except PolicyFileFault α :=
  match read text with
  | .error fault => .error (.noDocument fault)
  | .ok document =>
    match reading document.root, document.fault with
    | none, _ => .error .wrongSort
    | some _, some fault => .error (.noDocument fault)
    | some a, none => .ok a

/-- The policy in a YAML text. -/
def Policy.ofYaml (text : String) : Except PolicyFileFault Policy :=
  Yaml.readAs (fun document => ofForm? Yaml.form (document.getD Yaml.empty)) text

/-- The index in a YAML text. -/
def RuleIndex.ofYaml (text : String) : Except PolicyFileFault RuleIndex :=
  Yaml.readAs (fun document => document >>= ofForm? Yaml.form) text

end StyleGate
