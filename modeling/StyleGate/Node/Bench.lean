import StyleGate.Node.Edit

/-!
# Nodes on a bench

Nodes that are built by hand stand on a bench, each under a name. A step makes a new node with one of
the constructors, or changes one that stands there (`Bench.Step`); what goes into a node is a copy of
another one. The nodes in a list can be copied out of it, but not be changed where they are. The list of
values of a node and the block of a rule can also be written as a whole, through a reference.

`Bench.perform` runs on the bench and leaves it as it is when it fails; what it has written until then is
not taken back.
-/

namespace StyleGate

namespace ComponentValue

mutual

/-- The value, with every group in it built by the constructor of such groups. -/
def assemble : ComponentValue → Except NodeError ComponentValue
  | token t => .ok (token t)
  | block opener contents => do
    let b ← Block.ofOpener opener
    let contents ← assembleAll contents
    .ok { b with contents }.value
  | function name contents => do
    let f ← FunctionCall.ofName name
    let contents ← assembleAll contents
    .ok { f with contents }.value

/-- The values of a list, with every group in them built by its constructor. -/
def assembleAll : List ComponentValue → Except NodeError (List ComponentValue)
  | [] => .ok []
  | v :: rest => do
    let v ← assemble v
    let rest ← assembleAll rest
    .ok (v :: rest)

end

end ComponentValue

/-- Nodes by name. -/
abbrev Bench (ι : Type) : Type := List (ι × Node)

namespace Bench

variable {ι α : Type}

/-- A way to come by a new node: a constructor with its arguments, or a copy of a node or of a part of
one. -/
inductive Maker (ι : Type) where
  | token (t : Token)
  | values (vs : List ComponentValue)
  | block (opener : Token)
  | function (name : Token)
  | functionNamed (name : String)
  | atRule (keyword : Token)
  | atRuleNamed (name : String)
  | qualified (position : Position)
  | declaration (name : Token)
  | declarations
  | rules
  | copy (source : ι)
  /-- The list of values that a node holds. -/
  | contents (source : ι)
  /-- One member of the list that a node holds. -/
  | member (source : ι) (index : Nat)
  /-- The block of a rule. -/
  | blockOf (source : ι)
  /-- A list of one value, inside `depth` groups that a token opens. -/
  | nested (source : ι) (opener : Token) (depth : Nat)

/-- A change to a list, with what goes into it by name. -/
inductive ListChange (ι : Type) where
  | add (source : ι)
  | insert (index : Nat) (source : ι)
  | remove (index : Nat)
  | reverse
  | clear
  /-- Drop whitespace from both ends. -/
  | trim
  | replace (source : ι)

/-- A change to a node, with what goes into it by name. -/
inductive Change (ι : Type) where
  /-- A change to the list that the node holds: its members, its contents, its value, its prelude. -/
  | contents (change : ListChange ι)
  /-- A change to the contents of a rule's block. -/
  | block (change : ListChange ι)
  /-- Another block in the place of a rule's block, through the reference to it. -/
  | replaceBlock (source : ι)
  | setBlock (source : Option ι)
  | setImportant (important : Bool)
  | setComments (comments : List Token)

/-- One step of building by hand. -/
inductive Step (ι : Type) where
  | make (name : ι) (maker : Maker ι)
  | change (name : ι) (change : Change ι)

/-- The name that a step gives to a node. -/
def Step.name : Step ι → ι
  | make name _ => name
  | change name _ => name

/-- Why a step fails. -/
inductive StepError where
  | noSuchNode
  | edit (error : EditError)
deriving DecidableEq, Repr

/-- What is read off a bench. -/
def consult (read : Bench ι → Except StepError α) : EStateM StepError (Bench ι) α := do
  MonadExcept.ofExcept (read (← get))

/-- Reading writes nothing. -/
theorem run_consult (read : Bench ι → Except StepError α) (bench : Bench ι) :
    (consult read).run bench = match read bench with
      | .ok a => .ok a bench
      | .error e => .error e bench := by
  have hget : (consult read).run bench =
      (MonadExcept.ofExcept (read bench) : EStateM StepError (Bench ι) α).run bench := rfl
  rw [hget]
  cases read bench <;> rfl

/-- What a constructor answers. -/
def built (result : Except NodeError α) : EStateM StepError (Bench ι) α :=
  MonadExcept.ofExcept (result.mapError fun e => .edit (.node e))

/-- The change to a list, with what goes into it. -/
def ListChange.edit {m : Type → Type} [Monad m] (item : ι → m α) (list : ι → m (List α))
    (isWhitespace : α → Bool) : ListChange ι → m (ListEdit α)
  | add source => do return .add (← item source)
  | insert index source => do return .insert index (← item source)
  | remove index => return .remove index
  | reverse => return .reverse
  | clear => return .clear
  | trim => return .trim isWhitespace
  | replace source => do return .replace (← list source)

variable [DecidableEq ι]

/-- The node with a name. -/
def node (bench : Bench ι) (name : ι) : Except StepError Node :=
  match bench.lookup name with
  | some n => .ok n
  | none => .error .noSuchNode

/-- The bench with a node under a name, in the place of the one that had it. -/
def put (name : ι) (n : Node) : Bench ι → Bench ι
  | [] => [(name, n)]
  | (other, m) :: rest => if name = other then (name, n) :: rest else (other, m) :: put name n rest

/-- A node that is under its name already may be put there again. -/
theorem put_of_lookup {name : ι} {n : Node} {bench : Bench ι} (h : bench.lookup name = some n) :
    put name n bench = bench := by
  induction bench with
  | nil => cases h
  | cons entry rest ih =>
    obtain ⟨other, m⟩ := entry
    rw [put]
    split
    case isTrue heq =>
      subst heq
      rw [List.lookup_cons_self] at h
      rw [Option.some.inj h]
    case isFalse hne =>
      rw [List.lookup_cons, beq_false_of_ne hne] at h
      rw [ih h]

/-- The node with a name, as a reference gives it. -/
def nodeAccess (name : ι) : Access (Bench ι) Node where
  part? := (·.lookup name)
  put := put name
  put_part _ _ := put_of_lookup

/-- The node with a name, as something that not every node is. -/
def view (see : Node → Option α) (name : ι) : EStateM StepError (Bench ι) α := do
  match see (← consult (·.node name)) with
  | some a => return a
  | none => throw (.edit .unsuited)

/-- The node that is made. -/
def Maker.make : Maker ι → EStateM StepError (Bench ι) Node
  | token t => return .token t
  | values vs => return .values (← built (ComponentValue.assembleAll vs))
  | block opener => return .block (← built (Block.ofOpener opener))
  | function name => return .function (← built (FunctionCall.ofName name))
  | functionNamed name => return .function { name := Token.of .function name }
  | atRule keyword => return .rule (.atRule (← built (AtRule.ofKeyword keyword)))
  | atRuleNamed name => return .rule (.atRule (AtRule.ofName name))
  | qualified position => return .rule (.qualified { position })
  | declaration name => return .declaration (← built (Declaration.ofName name))
  | declarations => return .declarations []
  | rules => return .rules []
  | copy source => consult (·.node source)
  | contents source => return .values (← view Node.values? source)
  | member source index => view (fun n => n.members[index]?) source
  | blockOf source => return .block (← view Node.block? source)
  | nested source opener depth => do
    let v ← view Node.value? source
    if opener.kind.opensGroup then return .values [v.nest opener depth]
    else built (.error (.blockDelimiter opener.kind))

/-- The change to a list of values. -/
def valuesEdit : ListChange ι → EStateM StepError (Bench ι) (ListEdit ComponentValue) :=
  ListChange.edit (view Node.value?) (view Node.values?) ComponentValue.isWhitespace

/-- The change to a list of declarations, none of which is whitespace. -/
def declarationsEdit : ListChange ι → EStateM StepError (Bench ι) (ListEdit Declaration) :=
  ListChange.edit (view Node.declaration?) (view Node.declarations?) fun _ => false

/-- The change to a list of rules, none of which is whitespace. -/
def rulesEdit : ListChange ι → EStateM StepError (Bench ι) (ListEdit Rule) :=
  ListChange.edit (view Node.rule?) (view Node.rules?) fun _ => false

/-- The change to a node, with what goes into it. -/
def Change.edit (n : Node) : Change ι → EStateM StepError (Bench ι) Edit
  | contents change =>
    match n with
    | .declarations _ => return .declarations (← declarationsEdit change)
    | .rules _ => return .rules (← rulesEdit change)
    | _ => return .values (← valuesEdit change)
  | block change => return .block (← valuesEdit change)
  | replaceBlock source => return .replaceBlock (← view Node.block? source)
  | setBlock none => return .setBlock none
  | setBlock (some source) => return .setBlock (some (← view Node.block? source))
  | setImportant important => return .setImportant important
  | setComments comments => return .setComments comments

/-- Performs a step. -/
def perform : Step ι → EStateM StepError (Bench ι) Unit
  | .make name maker => do
    let n ← maker.make
    modify (put name n)
  | .change name c => do
    let n ← consult (·.node name)
    let edit ← c.edit n
    (nodeAccess name).within (EStateM.adaptExcept .edit edit.perform) (throw .noSuchNode)

/-- The bench after a step, whether it succeeds or fails. -/
def after (bench : Bench ι) (step : Step ι) : Bench ι :=
  match (perform step).run bench with
  | .ok _ bench => bench
  | .error _ bench => bench

/-- The bench after some steps, from an empty one on. -/
def run (steps : List (Step ι)) : Bench ι := steps.foldl after []

end Bench

end StyleGate
