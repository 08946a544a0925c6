import StyleGate.ComponentValue
import StyleGate.Gate.Outcome
import StyleGate.Policy
import StyleGate.Token.Stream

/-!
# Values at the gate

Property values, preludes and selectors are made of component values, and each of them is kept as it
is or removed. `ValuePolicy.faults` finds all that is wrong with a value, in the order of the text: a
token that no value may hold, a brace block, a function or url that is not allowed, a group inside
too many others. A value without faults is accepted.

Nothing inside a refused function or brace block is looked at. The function `url` is allowed where
urls are, if it holds one string and nothing else but whitespace.
-/

namespace StyleGate

open Text

namespace ValuePolicy

/-- What is wrong with a plain token. -/
def tokenFaults (p : ValuePolicy) (t : Token) : List Diagnostic :=
  match t.kind with
  | .url => if p.allowUrls then [] else [⟨Diagnostic.disallowedUrl, t.position⟩]
  | .badString | .badUrl | .atKeyword | .cdo | .cdc | .semicolon | .leftBrace | .rightBrace
  | .rightParen | .rightBracket => [⟨Diagnostic.invalidToken, t.position⟩]
  | _ => []

/-- Whether the contents of the function `url` are one string. -/
def isUrlContent (contents : List ComponentValue) : Bool :=
  match contents.filter (!·.isWhitespace) with
  | [v] => v.isToken .string
  | _ => false

/-- What is wrong with the function `url`. -/
def urlFaults (p : ValuePolicy) (name : Token) (contents : List ComponentValue) :
    List Diagnostic :=
  if !p.allowUrls then [⟨Diagnostic.disallowedUrl, name.position⟩]
  else if isUrlContent contents then []
  else [⟨Diagnostic.invalidToken, name.position⟩]

mutual

/-- What is wrong with a value inside `depth` groups. -/
def faults (p : ValuePolicy) (depth : Nat) : ComponentValue → List Diagnostic
  | .token t => p.tokenFaults t
  | .block opener contents =>
    if opener.kind = .leftBrace then [⟨Diagnostic.unexpectedBlock, opener.position⟩]
    else if maxGroupDepth ≤ depth then [⟨Diagnostic.nestingTooDeep, opener.position⟩]
    else p.faultsAll (depth + 1) contents
  | .function name contents =>
    if sameFolded name.value "url" then p.urlFaults name contents
    else if !containsFolded p.functions name.value then
      [⟨Diagnostic.disallowedFunction, name.position⟩]
    else if maxGroupDepth ≤ depth then [⟨Diagnostic.nestingTooDeep, name.position⟩]
    else p.faultsAll (depth + 1) contents

/-- What is wrong with the values of a list inside `depth` groups. -/
def faultsAll (p : ValuePolicy) (depth : Nat) : List ComponentValue → List Diagnostic
  | [] => []
  | v :: rest => p.faults depth v ++ p.faultsAll depth rest

end

/-- Whether a value is accepted. -/
def accepts (p : ValuePolicy) (v : ComponentValue) : Bool := (p.faults 0 v).isEmpty

/-- The judgement on a value. -/
def judge (p : ValuePolicy) (v : ComponentValue) : Judgement ComponentValue :=
  .ofFaults (p.faults 0 v)

/-- What is wrong with a list of values. -/
def listFaults (p : ValuePolicy) (vs : List ComponentValue) : List Diagnostic := p.faultsAll 0 vs

/-- The faults of a list are those of its members, in order. -/
theorem faultsAll_eq_flatMap (p : ValuePolicy) (depth : Nat) (vs : List ComponentValue) :
    p.faultsAll depth vs = vs.flatMap (p.faults depth) := by
  induction vs with
  | nil => rfl
  | cons v vs ih => simp [faultsAll, ih]

/-- A list has no faults if all its values are accepted. -/
theorem listFaults_eq_nil_iff (p : ValuePolicy) (vs : List ComponentValue) :
    p.listFaults vs = [] ↔ ∀ v ∈ vs, p.accepts v = true := by
  simp [listFaults, faultsAll_eq_flatMap, accepts]

end ValuePolicy

end StyleGate
