import StyleGate.Node

/-!
# Changes to nodes

Nodes are changed where they are. A change runs on the node as its state and may fail on the way; what
it has written until then stays. Parts of a node are reached as through a reference (`Access`), and what
becomes of the part is written back in any case.

An `Edit` is one change to a node. `Rule.setBlock` refuses a block that is not in braces. Whoever has the
reference to the block of a rule, though, may write any block there (`Edit.replaceBlock`).
-/

namespace StyleGate

/-! ## References to parts -/

/-- A part of a state, as a reference gives it: how to see it, if there is one, and how to write it.
To write what is there changes nothing. -/
structure Access (σ τ : Type) where
  part? : σ → Option τ
  put : τ → σ → σ
  put_part : ∀ s t, part? s = some t → put t s = s

/-- Runs something on a part of a state. What becomes of the part is written back, whether this
succeeds or fails. Where there is no such part, something else is done. -/
def Access.within {ε σ τ α : Type} (access : Access σ τ) (x : EStateM ε τ α)
    (otherwise : EStateM ε σ α) : EStateM ε σ α := fun s =>
  match access.part? s with
  | none => otherwise.run s
  | some t =>
    match x.run t with
    | .ok a t => .ok a (access.put t s)
    | .error e t => .error e (access.put t s)

namespace Access

variable {ε σ τ α : Type} {access : Access σ τ} {x : EStateM ε τ α} {otherwise : EStateM ε σ α} {s : σ}

/-- Where there is no such part, the other thing is done. -/
theorem run_within_of_none (h : access.part? s = none) :
    (access.within x otherwise).run s = otherwise.run s := by
  rw [EStateM.run, within, h]

/-- Where there is one, the answer is that of the run on it, and what became of it is written
back. -/
theorem run_within_of_some {t : τ} (h : access.part? s = some t) :
    (access.within x otherwise).run s = match x.run t with
      | .ok a t => .ok a (access.put t s)
      | .error e t => .error e (access.put t s) := by
  rw [EStateM.run, within, h]

end Access

/-! ## Lists -/

/-- A change to a list. -/
inductive ListEdit (α : Type) where
  | add (a : α)
  | insert (index : Nat) (a : α)
  | remove (index : Nat)
  | reverse
  | clear
  /-- Drop what satisfies a test from both ends. -/
  | trim (drop : α → Bool)
  | replace (list : List α)

/-- Why a node cannot be changed. -/
inductive EditError where
  | node (error : NodeError)
  /-- A place past the end of the list. -/
  | outOfRange
  /-- A change that nodes of this sort do not have. -/
  | unsuited
deriving DecidableEq, Repr

/-- Changes a list. Nothing is inserted past its end, and nothing is removed there. -/
def ListEdit.perform {α : Type} : ListEdit α → EStateM EditError (List α) Unit
  | add a => modify (· ++ [a])
  | insert index a => do
    let list ← get
    if index ≤ list.length then set (list.insertIdx index a) else throw .outOfRange
  | remove index => modify (·.eraseIdx index)
  | reverse => modify List.reverse
  | clear => set ([] : List α)
  | trim drop => modify fun list => (list.reverse.dropWhile drop).reverse.dropWhile drop
  | replace other => set other

/-! ## Rules -/

/-- The values in a block. -/
def Block.contentsAccess : Access Block (List ComponentValue) where
  part? b := some b.contents
  put contents b := { b with contents }
  put_part := by rintro b _ ⟨⟩; rfl

/-- Gives an at-rule another block, or none. -/
def AtRule.setBlock (block : Option Block) : EStateM NodeError AtRule Unit := do
  if block.any (!·.isBraces) then throw .atRuleBlockDelimiter
  modify ({ · with block })

/-- Gives a qualified rule another block. -/
def QualifiedRule.setBlock (block : Block) : EStateM NodeError QualifiedRule Unit := do
  if !block.isBraces then throw .qualifiedRuleBlockDelimiter
  modify ({ · with block })

/-- An at-rule gets the block if it can have it, and else stays what it is. -/
theorem AtRule.run_setBlock (block : Option Block) (r : AtRule) :
    (setBlock block).run r = match r.withBlock block with
      | .ok new => .ok () new
      | .error e => .error e r := by
  cases block with
  | none => rfl
  | some b =>
    simp only [setBlock, withBlock, Option.any_some]
    cases b.isBraces with
    | true => rfl
    | false => rfl

/-- So does a qualified rule. -/
theorem QualifiedRule.run_setBlock (block : Block) (r : QualifiedRule) :
    (setBlock block).run r = match r.withBlock block with
      | .ok new => .ok () new
      | .error e => .error e r := by
  simp only [setBlock, withBlock]
  cases block.isBraces with
  | true => rfl
  | false => rfl

namespace Rule

/-- The rule with another prelude. -/
def withPrelude (prelude : List ComponentValue) : Rule → Rule
  | atRule r => .atRule { r with prelude }
  | qualified r => .qualified { r with prelude }

/-- The rule with other comments in front of it. -/
def withComments (comments : List Token) : Rule → Rule
  | atRule r => .atRule { r with comments }
  | qualified r => .qualified { r with comments }

/-- A rule as an at-rule. -/
def atRuleAccess : Access Rule AtRule where
  part? | atRule r => some r
        | qualified _ => none
  put r _ := atRule r
  put_part := by rintro (r | r) _ ⟨⟩; rfl

/-- A rule as a qualified rule. -/
def qualifiedAccess : Access Rule QualifiedRule where
  part? | atRule _ => none
        | qualified r => some r
  put r _ := qualified r
  put_part := by rintro (r | r) _ ⟨⟩; rfl

/-- The block of a rule, which may be written without a look at its opening token. -/
def blockAccess : Access Rule Block where
  part? := block?
  put := putBlock
  put_part := by
    rintro (r | r) b hb
    · obtain ⟨comments, keyword, prelude, block⟩ := r
      obtain rfl : block = some b := hb
      rfl
    · cases hb
      rfl

/-- Gives a rule another block. Only at-rules can be without one. -/
def setBlock (block : Option Block) : EStateM EditError Rule Unit :=
  atRuleAccess.within (EStateM.adaptExcept .node (AtRule.setBlock block)) <|
    qualifiedAccess.within (match block with
      | some b => EStateM.adaptExcept .node (QualifiedRule.setBlock b)
      | none => throw .unsuited) (throw .unsuited)

end Rule

/-! ## Nodes -/

/-- A change to a node. -/
inductive Edit where
  /-- A change to the list of values that the node holds. -/
  | values (edit : ListEdit ComponentValue)
  /-- A change to the contents of a rule's block. An at-rule without one stays as it is. -/
  | block (edit : ListEdit ComponentValue)
  /-- Another block in the place of a rule's block, through the reference to it. An at-rule without a
  block stays as it is. -/
  | replaceBlock (block : Block)
  | declarations (edit : ListEdit Declaration)
  | rules (edit : ListEdit Rule)
  | setBlock (block : Option Block)
  | setImportant (important : Bool)
  | setComments (comments : List Token)

namespace Node

/-- The node with another list of values, if it holds one. -/
def withValues (vs : List ComponentValue) : Node → Node
  | block b => block { b with contents := vs }
  | function f => function { f with contents := vs }
  | values _ => values vs
  | declaration d => declaration { d with value := vs }
  | rule r => rule (r.withPrelude vs)
  | n => n

/-- The list of values that a node holds. -/
def valuesAccess : Access Node (List ComponentValue) where
  part? := values?
  put := withValues
  put_part := by
    rintro (_ | _ | _ | _ | _ | _ | (_ | _) | _) _ ⟨⟩
    all_goals rfl

/-- A node as a declaration. -/
def declarationAccess : Access Node Declaration where
  part? | declaration d => some d
        | _ => none
  put d _ := declaration d
  put_part := by rintro (_ | _ | _ | _ | _ | _ | _ | _) _ ⟨⟩; rfl

/-- A node as a list of declarations. -/
def declarationsAccess : Access Node (List Declaration) where
  part? | declarations ds => some ds
        | _ => none
  put ds _ := declarations ds
  put_part := by rintro (_ | _ | _ | _ | _ | _ | _ | _) _ ⟨⟩; rfl

/-- A node as a rule. -/
def ruleAccess : Access Node Rule where
  part? | rule r => some r
        | _ => none
  put r _ := rule r
  put_part := by rintro (_ | _ | _ | _ | _ | _ | _ | _) _ ⟨⟩; rfl

/-- A node as a list of rules. -/
def rulesAccess : Access Node (List Rule) where
  part? | rules rs => some rs
        | _ => none
  put rs _ := rules rs
  put_part := by rintro (_ | _ | _ | _ | _ | _ | _ | _) _ ⟨⟩; rfl

end Node

/-- Changes a node. -/
def Edit.perform : Edit → EStateM EditError Node Unit
  | values e => Node.valuesAccess.within e.perform (throw .unsuited)
  | block e =>
    Node.ruleAccess.within
      (Rule.blockAccess.within (Block.contentsAccess.within e.perform (pure ())) (pure ()))
      (throw .unsuited)
  | replaceBlock b =>
    Node.ruleAccess.within (Rule.blockAccess.within (set b) (pure ())) (throw .unsuited)
  | declarations e => Node.declarationsAccess.within e.perform (throw .unsuited)
  | rules e => Node.rulesAccess.within e.perform (throw .unsuited)
  | setBlock b => Node.ruleAccess.within (Rule.setBlock b) (throw .unsuited)
  | setImportant important =>
    Node.declarationAccess.within (modify ({ · with important })) (throw .unsuited)
  | setComments comments =>
    Node.ruleAccess.within (modify (·.withComments comments)) (throw .unsuited)

end StyleGate
