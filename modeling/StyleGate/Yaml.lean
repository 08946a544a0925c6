/-!
# YAML documents

A document is a tree of scalars, lists and records. A scalar keeps its text and whether it was
written plainly, without quotes or an indicator: only then can it stand for a null, a switch or a
number. An empty plain scalar stands where nothing was written.
-/

namespace StyleGate

/-- A node of a document. -/
inductive Yaml where
  | scalar (plain : Bool) (text : String)
  | list (items : List Yaml)
  | record (entries : List (Yaml × Yaml))
deriving Repr, Inhabited

/-- Why a text is no document. -/
inductive YamlFault where
  | forbiddenCharacter
  | unexpectedCharacter
  | tabIndentation
  | unclosedScalar
  /-- A run of blanks or line ends does not fit into the buffer of a scalar. -/
  | overlongRun
  | badEscape
  | badBlockHeader
  | misplacedItem
  | misplacedValue
  | missingColon
  | unexpectedToken
  | severalDocuments
deriving DecidableEq, Repr

/-- The description of a fault. -/
def YamlFault.message : YamlFault → String
  | forbiddenCharacter => "control characters are not allowed"
  | unexpectedCharacter => "found character that cannot start any token"
  | tabIndentation => "found a tab character that violates indentation"
  | overlongRun => "found more blanks or line ends than the buffer of a scalar holds"
  | unclosedScalar => "found unexpected end of a quoted scalar"
  | badEscape => "found unknown escape character"
  | badBlockHeader => "found unexpected text after a block scalar indicator"
  | misplacedItem => "block sequence entries are not allowed in this context"
  | misplacedValue => "mapping values are not allowed in this context"
  | missingColon => "could not find expected ':'"
  | unexpectedToken => "did not find expected node content"
  | severalDocuments => "deserializing from YAML containing more than one document is not supported"

/-- An overlong run breaks the program down; all other faults are reported. -/
def YamlFault.isBreakdown (f : YamlFault) : Bool := f == .overlongRun

namespace Yaml

/-- The node of what is not there. -/
def empty : Yaml := scalar true ""

/-! ## What a plain scalar stands for -/

/-- The plain texts of a null. -/
def isNullText (text : String) : Bool := text ∈ ["~", "null", "Null", "NULL"]

/-- The switch that a plain text stands for. -/
def switch? (text : String) : Option Bool :=
  if text ∈ ["true", "True", "TRUE"] then some true
  else if text ∈ ["false", "False", "FALSE"] then some false
  else none

/-- The value of a digit in bases up to sixteen. -/
def digit? (base : Nat) (c : Char) : Option Nat :=
  let value :=
    if '0' ≤ c ∧ c ≤ '9' then c.toNat - '0'.toNat
    else if 'a' ≤ c ∧ c ≤ 'f' then c.toNat - 'a'.toNat + 10
    else if 'A' ≤ c ∧ c ≤ 'F' then c.toNat - 'A'.toNat + 10
    else base
  if value < base then some value else none

/-- The number that digits stand for. There has to be one digit at least. -/
def digits? (base : Nat) (cs : List Char) : Option Nat :=
  if cs.isEmpty then none
  else cs.foldlM (fun n c => (digit? base c).map (n * base + ·)) 0

/-- The number that a text without sign stands for: in base 16, 8 or 2 after `0x`, `0o` or `0b`, else
in base ten, where a zero must not lead other digits. -/
def natural? : List Char → Option Nat
  | '0' :: 'x' :: cs => digits? 16 cs
  | '0' :: 'o' :: cs => digits? 8 cs
  | '0' :: 'b' :: cs => digits? 2 cs
  | ['0'] => some 0
  | '0' :: _ => none
  | cs => digits? 10 cs

/-- The integer that a plain text stands for. -/
def integer? (text : String) : Option Int :=
  match text.toList with
  | '-' :: cs => (natural? cs).map fun n => -(n : Int)
  | '+' :: cs => (natural? cs).map fun n => (n : Int)
  | cs => (natural? cs).map fun n => (n : Int)

end Yaml

end StyleGate
