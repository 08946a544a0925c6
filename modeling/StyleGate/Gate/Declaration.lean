import StyleGate.Gate.Outcome
import StyleGate.Gate.Value
import StyleGate.Parser

/-!
# Declarations at the gate

A declaration is kept as it is or removed: its property must be allowed, and its value must be there
and be accepted. The declarations of a block are read from its contents; if all are kept and nothing
was dropped on the way, the block stays as it is, else the kept ones make up a new one.
-/

namespace StyleGate

namespace Policy

/-- What is wrong with a declaration. -/
def declarationFaults (p : Policy) (d : Declaration) : List Diagnostic :=
  if !p.allowsProperty d.property then [⟨Diagnostic.unrecognizedProperty, d.position⟩]
  else if ComponentValue.allWhitespace d.value then [⟨Diagnostic.missingValue, d.position⟩]
  else
    let faults := p.values.listFaults d.value
    if faults.isEmpty then [] else faults ++ [⟨Diagnostic.badValueForProperty, d.position⟩]

/-- The judgement on a declaration. -/
def judgeDeclaration (p : Policy) (d : Declaration) : Judgement Declaration :=
  .ofFaults (p.declarationFaults d)

/-- Whether a declaration is kept. -/
def keepsDeclaration (p : Policy) (d : Declaration) : Bool := (p.declarationFaults d).isEmpty

end Policy

/-- The block with other contents, read from tokens. -/
def Block.rebuilt (b : Block) (ts : List Token) : Block :=
  { b with contents := (ComponentValue.readAll ts).1 }

/-- The tokens between the brackets of a block. -/
def Block.contentTokens (b : Block) : List Token := ComponentValue.tokensAll b.contents

namespace Policy

/-- The judgement on a block of declarations. -/
def judgeDeclarations (p : Policy) (b : Block) : Judgement Block :=
  let (declarations, errors) := Declaration.readAll b.contentTokens
  let kept := declarations.filter p.keepsDeclaration
  { outcome :=
      if errors.isEmpty && declarations.all p.keepsDeclaration then .kept
      else .replaced (b.rebuilt (Declaration.tokensAll kept))
    errors := errors ++ declarations.flatMap p.declarationFaults }

end Policy

end StyleGate
