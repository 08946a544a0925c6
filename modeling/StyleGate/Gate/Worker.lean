import StyleGate.Gate.Dispatch

/-!
# Sanitizers at work

A worker is a sanitizer with a state and a log of its own. It records into that log while it looks at a
node, and whoever handed the node over moves the diagnostics to the end of another log and clears the
worker's (`Logged.delegate`). What a worker does may depend on all that it did before; which rules it
handles and where they stand may not, so these are fixed (`RuleWorker`).

`handOut` is the loop over a list of rules. It takes one rule after another (`Handout.next`) and keeps
the highest index that was set so far.
-/

namespace StyleGate

/-- A state, and the diagnostics that were recorded since they were last cleared. -/
structure Logged (σ : Type) where
  state : σ
  log : List Diagnostic := []
deriving DecidableEq, Repr

namespace Logged

variable {σ τ α : Type}

/-- Records a diagnostic. -/
def record (w : Logged σ) (code : String) (position : Position) : Logged σ :=
  { w with log := w.log ++ [⟨code, position⟩] }

/-- Forgets the diagnostics. -/
def clear (w : Logged σ) : Logged σ := { w with log := [] }

/-- The same log around another state. -/
def map (f : σ → τ) (w : Logged σ) : Logged τ := ⟨f w.state, w.log⟩

end Logged

/-- How workers with a state judge nodes: the outcome, and the worker afterwards. -/
abbrev Work (σ α : Type) : Type := Logged σ → α → Outcome α × Logged σ

namespace Logged

variable {σ α : Type}

/-- Hands a node to a worker, and moves its diagnostics to the end of a log. -/
def delegate (work : Work σ α) (log : List Diagnostic) (w : Logged σ) (node : α) :
    Outcome α × List Diagnostic × Logged σ :=
  let (outcome, w) := work w node
  (outcome, log ++ w.log, w.clear)

/-- Hands the nodes of a list to a worker, which keeps its diagnostics: what is left of the list, and
the worker afterwards. -/
def sift (work : Work σ α) (w : Logged σ) : List α → List α × Logged σ
  | [] => ([], w)
  | node :: rest =>
    let (outcome, w) := work w node
    let (left, w) := sift work w rest
    ((outcome.survivor node).toList ++ left, w)

/-- Hands the nodes of a list to a worker, and moves its diagnostics to the end of a log after the
last of them. -/
def delegateAll (work : Work σ α) (log : List Diagnostic) (w : Logged σ) (nodes : List α) :
    List α × List Diagnostic × Logged σ :=
  let (left, w) := w.sift work nodes
  (left, log ++ w.log, w.clear)

end Logged

/-- A worker for rules: which rules it handles, and their place among others. -/
structure RuleWorker (σ : Type) extends Logged σ where
  handles : Rule → Bool
  index : RuleIndex

/-- What is known in the middle of a list of rules that are handed out among workers. -/
structure Handout (σ : Type) where
  workers : List (RuleWorker σ)
  /-- The log of whoever hands the rules out. -/
  log : List Diagnostic
  /-- The highest index that was set so far. -/
  highest : Int32 := Int32.minValue
  /-- What is left of the rules so far. -/
  kept : List Rule := []

namespace Handout

variable {σ : Type}

/-- Drops a rule that goes to no worker. -/
def refuse (h : Handout σ) (code : String) (r : Rule) : Handout σ :=
  { h with log := h.log ++ [⟨code, r.position⟩] }

/-- Hands a rule to the worker at a place. It counts for the order whatever becomes of it. -/
def give (work : Work σ Rule) (h : Handout σ) (k : Nat) (w : RuleWorker σ) (r : Rule) : Handout σ :=
  let (outcome, log, self) := w.toLogged.delegate work h.log r
  { workers := h.workers.set k { w with toLogged := self }
    log
    highest := max h.highest w.index.set
    kept := h.kept ++ (outcome.survivor r).toList }

/-- Takes the next rule. -/
def next (work : Work σ Rule) (h : Handout σ) (r : Rule) : Handout σ :=
  match h.workers.findFinIdx? (·.handles r) with
  | none => h.refuse Diagnostic.unrecognizedRule r
  | some k =>
    if h.workers[k].index.test < h.highest then h.refuse Diagnostic.misorderedRule r
    else h.give work k h.workers[k] r

end Handout

/-- Hands a list of rules out among workers, with the log of whoever does so. -/
def handOut {σ : Type} (work : Work σ Rule) (log : List Diagnostic) (workers : List (RuleWorker σ))
    (rules : List Rule) : Handout σ :=
  rules.foldl (Handout.next work) { workers, log }

end StyleGate
