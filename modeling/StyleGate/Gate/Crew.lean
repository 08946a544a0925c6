import StyleGate.Gate.Stylesheet
import StyleGate.Gate.Worker

/-!
# The workers of a policy

A stylesheet is judged by a crew of workers with states and logs of their own: one for the rules of
each at-rule and one for style rules, and under them workers for preludes, selectors, declarations and
values, and for the rules inside a group. A worker keeps its own helpers from one node to the next.

What helpers hold depends on how deep groups may lie in each other, so the states of workers for rules
are a family (`RuleState`), and so is what such workers do (`ruleWork`).
-/

namespace StyleGate

open Text

namespace Logged

variable {σ : Type}

/-- Records all faults of a node. It is accepted if there are none. -/
def note (w : Logged σ) (faults : List Diagnostic) : Bool × Logged σ :=
  (faults.isEmpty, { w with log := w.log ++ faults })

/-- Removes a node for a reason. -/
def refuse {α : Type} (w : Logged σ) (code : String) (position : Position) : Outcome α × Logged σ :=
  (.removed, w.record code position)

end Logged

/-! ## Values -/

/-- What a worker for values knows: what is allowed, and in how many groups it is. -/
structure ValueState where
  policy : ValuePolicy
  depth : Nat := 0
deriving DecidableEq, Repr

namespace ValueState

/-- One group further in. -/
def enter (s : ValueState) : ValueState := { s with depth := s.depth + 1 }

/-- One group further out. -/
def leave (s : ValueState) : ValueState := { s with depth := s.depth - 1 }

/-- Looks at the contents of a group, one level further in. -/
def checkGroup (w : Logged ValueState) (position : Position)
    (contents : Logged ValueState → Bool × Logged ValueState) : Bool × Logged ValueState :=
  if maxGroupDepth ≤ w.state.depth then w.note [⟨Diagnostic.nestingTooDeep, position⟩]
  else
    let (accepted, w) := contents (w.map enter)
    (accepted, w.map leave)

mutual

/-- Looks at a value: whether it is accepted, and the worker afterwards. -/
def check (w : Logged ValueState) : ComponentValue → Bool × Logged ValueState
  | .token t => w.note (w.state.policy.tokenFaults t)
  | .block opener contents =>
    if opener.kind = .leftBrace then w.note [⟨Diagnostic.unexpectedBlock, opener.position⟩]
    else checkGroup w opener.position fun w => checkAll w contents
  | .function name contents =>
    if sameFolded name.value "url" then w.note (w.state.policy.urlFaults name contents)
    else if !containsFolded w.state.policy.functions name.value then
      w.note [⟨Diagnostic.disallowedFunction, name.position⟩]
    else checkGroup w name.position fun w => checkAll w contents

/-- Looks at every value of a list, also behind one that is not accepted. -/
def checkAll (w : Logged ValueState) : List ComponentValue → Bool × Logged ValueState
  | [] => (true, w)
  | v :: rest =>
    let (first, w) := check w v
    let (others, w) := checkAll w rest
    (first && others, w)

end

end ValueState

/-- How a worker judges values. -/
def valueWork : Work ValueState ComponentValue := fun w v =>
  let (accepted, w) := ValueState.check w v
  (if accepted then .kept else .removed, w)

/-! ## Declarations -/

/-- What a worker for declarations knows, and its worker for values. -/
structure DeclarationState where
  policy : Policy
  values : Logged ValueState
deriving Repr

/-- How a worker judges declarations. -/
def declarationWork : Work DeclarationState Declaration := fun w d =>
  if !w.state.policy.allowsProperty d.property then
    w.refuse Diagnostic.unrecognizedProperty d.position
  else if ComponentValue.allWhitespace d.value then w.refuse Diagnostic.missingValue d.position
  else
    let (left, log, values) := w.state.values.delegateAll valueWork w.log d.value
    let w : Logged DeclarationState := ⟨{ w.state with values }, log⟩
    if left.length ≠ d.value.length then w.refuse Diagnostic.badValueForProperty d.position
    else (.kept, w)

/-- Hands declarations to a worker one by one: what is left of them, whether one was removed, and both
logs. -/
def delegateDeclarations (log : List Diagnostic) (w : Logged DeclarationState) :
    List Declaration → List Declaration × Bool × List Diagnostic × Logged DeclarationState
  | [] => ([], false, log, w)
  | d :: rest =>
    let (outcome, log, w) := w.delegate declarationWork log d
    let (left, dropped, log, w) := delegateDeclarations log w rest
    match outcome.survivor d with
    | some d => (d :: left, dropped, log, w)
    | none => (left, true, log, w)

/-- Judges the declarations in a block. There is no new block if all were kept and none were
skipped. -/
def judgeDeclarationBlock (log : List Diagnostic) (w : Logged DeclarationState) (b : Block) :
    Option Block × List Diagnostic × Logged DeclarationState :=
  let (declarations, errors) := Declaration.readAll b.contentTokens
  let (left, dropped, log, w) := delegateDeclarations (log ++ errors) w declarations
  (if !errors.isEmpty || dropped then some (b.rebuilt (Declaration.tokensAll left)) else none, log, w)

/-- What becomes of a node when its block is exchanged, if it is. -/
def exchangeBlock {α : Type} (replace : Block → Except NodeError α) : Option Block → Outcome α
  | none => .kept
  | some b =>
    match replace b with
    | .ok new => .replaced new
    | .error _ => .removed

/-! ## Style rules -/

/-- The helpers of a worker for style rules. -/
structure StyleState where
  selectors : Logged ValueState
  declarations : Logged DeclarationState
deriving Repr

/-- How a worker judges style rules. -/
def styleWork : Work StyleState Rule := fun w r =>
  match r with
  | .atRule _ => (.removed, w)
  | .qualified r =>
    if ComponentValue.allWhitespace r.prelude then w.refuse Diagnostic.invalidSelector r.position
    else
      let (left, log, selectors) := w.state.selectors.delegateAll valueWork w.log r.prelude
      let w : Logged StyleState := ⟨{ w.state with selectors }, log⟩
      if left.length ≠ r.prelude.length then w.refuse Diagnostic.invalidSelector r.position
      else
        let (block, log, declarations) := judgeDeclarationBlock w.log w.state.declarations r.block
        (exchangeBlock (fun b => (r.withBlock b).map Rule.qualified) block,
          ⟨{ w.state with declarations }, log⟩)

/-! ## At-rules -/

/-- What a worker for an at-rule knows, and its helpers; those for the rules in its block have states
`τ`. -/
structure AtRuleState (τ : Type) where
  entry : AtRulePolicy
  prelude : Logged ValueState
  declarations : Logged DeclarationState
  nested : List (RuleWorker τ)

namespace AtRuleState

variable {τ : Type}

/-- Judges the block of an at-rule. -/
def judgeBlock (work : Work τ Rule) (w : Logged (AtRuleState τ)) (b : Block) :
    Option Block × Logged (AtRuleState τ) :=
  match w.state.entry.block with
  | .rules =>
    let (rules, errors) := Rule.readAll false b.contentTokens
    let done := handOut work (w.log ++ errors) w.state.nested rules
    (if errors.isEmpty && Rule.agreesAll done.kept rules then none
      else some (b.rebuilt (Rule.tokensAll done.kept)),
      ⟨{ w.state with nested := done.workers }, done.log⟩)
  | .declarations | .optional =>
    let (block, log, declarations) := judgeDeclarationBlock w.log w.state.declarations b
    (block, ⟨{ w.state with declarations }, log⟩)
  | .none => (none, w)

end AtRuleState

/-- How a worker judges at-rules, given how its helpers judge the rules in a block. -/
def atRuleWork {τ : Type} (work : Work τ Rule) : Work (AtRuleState τ) Rule := fun w r =>
  match r with
  | .qualified _ => (.removed, w)
  | .atRule r =>
    let (shaped, w) := w.note (Policy.shapeFaults w.state.entry.block r)
    if !shaped then (.removed, w)
    else
      let (left, log, prelude) := w.state.prelude.delegateAll valueWork w.log r.prelude
      let w : Logged (AtRuleState τ) := ⟨{ w.state with prelude }, log⟩
      if left.length ≠ r.prelude.length then w.refuse Diagnostic.invalidAtRulePrelude r.position
      else
        match r.block with
        | none => (.kept, w)
        | some b =>
          let (block, w) := AtRuleState.judgeBlock work w b
          (exchangeBlock (fun b => (r.withBlock (some b)).map Rule.atRule) block, w)

/-! ## Rules -/

/-- The state of a worker that is for style rules or for an at-rule. -/
inductive RuleStateOver (τ : Type) where
  | style (state : StyleState)
  | atRule (state : AtRuleState τ)

/-- The states of workers for rules among which groups of rules may lie in each other `levels` deep. -/
def RuleState : Nat → Type
  | 0 => StyleState
  | levels + 1 => RuleStateOver (RuleState levels)

/-- How a worker judges rules: by the sort of worker it is. -/
def ruleWorkOver {τ : Type} (work : Work τ Rule) : Work (RuleStateOver τ) Rule := fun w r =>
  match w with
  | ⟨.style s, log⟩ =>
    let (outcome, w) := styleWork ⟨s, log⟩ r
    (outcome, w.map .style)
  | ⟨.atRule s, log⟩ =>
    let (outcome, w) := atRuleWork work ⟨s, log⟩ r
    (outcome, w.map .atRule)

/-- How a worker judges rules. -/
def ruleWork : (levels : Nat) → Work (RuleState levels) Rule
  | 0 => styleWork
  | levels + 1 => ruleWorkOver (ruleWork levels)

namespace Policy

variable (p : Policy)

/-- A worker for declarations that did nothing yet. -/
def declarationWorker : Logged DeclarationState :=
  { state := { policy := p, values := { state := { policy := p.values } } } }

/-- A worker for style rules that did nothing yet. -/
def styleWorker : RuleWorker StyleState where
  state := {
    selectors := { state := { policy := p.selectorValues } }
    declarations := p.declarationWorker }
  handles := p.styleSanitizer.handles
  index := p.styleRules.index

/-- The worker for style rules, if they are allowed. -/
def styleWorkers : List (RuleWorker StyleState) :=
  if p.styleRules.enabled then [p.styleWorker] else []

/-- A worker for an at-rule that did nothing yet, with its helpers for the rules in a block. -/
def atRuleWorker {τ : Type} (nested : List (RuleWorker τ)) (entry : AtRulePolicy) :
    RuleWorker (AtRuleState τ) where
  state := {
    entry
    prelude := { state := { policy := p.values } }
    declarations := p.declarationWorker
    nested := if entry.block = .rules then nested else [] }
  handles r := r.name?.any entry.isNamed
  index := entry.index

end Policy

/-- A worker whose state is put into another sort of states. -/
def RuleWorker.lift {σ τ : Type} (f : σ → τ) (w : RuleWorker σ) : RuleWorker τ :=
  { w with toLogged := w.toLogged.map f }

namespace Policy

variable (p : Policy)

/-- Workers for some at-rules and for style rules, with the helpers inside at-rules. -/
def ruleWorkers {τ : Type} (nested : List (RuleWorker τ)) (entries : List AtRulePolicy) :
    List (RuleWorker (RuleStateOver τ)) :=
  entries.map (fun entry => (p.atRuleWorker nested entry).lift .atRule) ++
    p.styleWorkers.map (·.lift .style)

/-- The workers for the rules inside a group in which groups may lie in each other `levels` deep. -/
def groupWorkers : (levels : Nat) → List (RuleWorker (RuleState levels))
  | 0 => p.styleWorkers
  | levels + 1 => p.ruleWorkers (groupWorkers levels) p.groupRules

end Policy

/-! ## Stylesheets -/

/-- A worker for whole stylesheets: its workers for rules, and the diagnostics since they were last
cleared. -/
abbrev SheetWorker : Type := Logged (List (RuleWorker (RuleState (maxGroupRuleDepth + 1))))

namespace SheetWorker

/-- A worker that did nothing yet. -/
def ofPolicy (p : Policy) : SheetWorker :=
  { state := p.ruleWorkers (p.groupWorkers maxGroupRuleDepth) p.atRules }

/-- Judges a stylesheet. -/
def pass (w : SheetWorker) (rules : List Rule) : Outcome (List Rule) × SheetWorker :=
  let done := handOut (ruleWork (maxGroupRuleDepth + 1)) w.log w.state rules
  (if Rule.agreesAll done.kept rules then .kept else .replaced done.kept, ⟨done.workers, done.log⟩)

/-- What a worker for stylesheets is asked to do. -/
inductive Request where
  | pass (rules : List Rule)
  | clear

/-- Does what it is asked. There is an answer if that is to judge a stylesheet. -/
def serve (w : SheetWorker) : Request → Option (Outcome (List Rule)) × SheetWorker
  | .pass rules =>
    let (outcome, w) := w.pass rules
    (some outcome, w)
  | .clear => (none, w.clear)

/-- The worker after it did one thing after another. -/
def after (w : SheetWorker) (requests : List Request) : SheetWorker :=
  requests.foldl (fun w request => (w.serve request).2) w

end SheetWorker

end StyleGate
