import StyleGate.Diagnostic

/-!
# Outcomes

What becomes of a node at the gate: it is removed, kept as it is, or replaced by another one. A
judgement is an outcome with the diagnostics recorded on the way.
-/

namespace StyleGate

/-- What becomes of a node. -/
inductive Outcome (α : Type) where
  | removed
  | kept
  | replaced (new : α)
deriving DecidableEq, Repr

/-- The node that is left of a given one. -/
def Outcome.survivor {α : Type} (node : α) : Outcome α → Option α
  | removed => none
  | kept => some node
  | replaced new => some new

/-- An outcome, and the diagnostics on the way to it. -/
structure Judgement (α : Type) where
  outcome : Outcome α
  errors : List Diagnostic := []
deriving Repr

namespace Judgement

variable {α : Type}

/-- Keeps a node. -/
def keep : Judgement α := { outcome := .kept }

/-- Removes a node for a reason. -/
def refuse (code : String) (position : Position) : Judgement α :=
  { outcome := .removed, errors := [⟨code, position⟩] }

/-- The judgement with earlier diagnostics in front. -/
def after (j : Judgement α) (earlier : List Diagnostic) : Judgement α :=
  { j with errors := earlier ++ j.errors }

/-- Keeps a node without faults and removes any other. -/
def ofFaults (faults : List Diagnostic) : Judgement α :=
  if faults.isEmpty then keep else { outcome := .removed, errors := faults }

/-- What is left of a list of judged nodes, and their diagnostics. -/
def collect (judged : List (α × Judgement α)) : List α × List Diagnostic :=
  (judged.filterMap fun (node, j) => j.outcome.survivor node, judged.flatMap (·.2.errors))

end Judgement

/-- What is left of a list of nodes when every one of them is judged, and the diagnostics. -/
def sanitizeList {α : Type} (judge : α → Judgement α) (nodes : List α) :
    List α × List Diagnostic :=
  Judgement.collect (nodes.map fun node => (node, judge node))

end StyleGate
