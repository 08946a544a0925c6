import StyleGate.CommandLine

/-!
# Reading the command line

`Invocation.ofArguments` reads arguments from left to right. An option that takes a value has it
after an equals sign, directly after its letter, or as the next argument; that one counts as a value
only if it does not start with a dash. A value in an argument of its own is looked at when the next
option comes or at the end, so that an unknown argument after it is the first error.
-/

namespace StyleGate

/-- A number below 2^64, perhaps with a plus sign. -/
def threshold? (text : String) : Option Nat :=
  let digits :=
    match text.toList with
    | '+' :: cs => cs
    | cs => cs
  if digits.isEmpty || !digits.all Char.isDigit then none
  else
    let n := digits.foldl (fun n c => n * 10 + (c.toNat - '0'.toNat)) 0
    if n < Nat.pow 2 64 then some n else none

/-- The values in the argument of an option, if they are of its sort. -/
def Flag.accept (f : Flag) (value : String) : Except UsageError (List String) :=
  match f.takes with
  | .nothing => .error .unexpectedValue
  | .path => if value.isEmpty then .error .missingValue else .ok [value]
  | .names => .ok (value.splitOn ",")
  | .number => if (threshold? value).isSome then .ok [value] else .error .invalidNumber

/-- What is known in the middle of the arguments. -/
structure Arguments where
  /-- The options that may stand here. -/
  allowed : List Flag
  /-- The options so far with their values, in order. -/
  given : List (Flag × List String) := []
  /-- The last option, if it takes a value: that value if it has come, not yet looked at. -/
  pending : Option (Flag × Option String) := none
  /-- Two dashes alone stood before, and what follows is no option. -/
  ended : Bool := false
deriving Repr

namespace Arguments

/-- Whether an option was given. -/
def has (a : Arguments) (f : Flag) : Bool := a.given.any (·.1 == f)

/-- All values of an option. -/
def values (a : Arguments) (f : Flag) : List String :=
  a.given.flatMap fun (g, values) => if g = f then values else []

/-- The arguments with an option and its values. Only names may be given several times. -/
def record (a : Arguments) (f : Flag) (value : Option String) : Except UsageError Arguments := do
  if f.takes ≠ .names ∧ a.has f then throw .repeated
  let values ←
    match value with
    | some text => f.accept text
    | none => pure []
  return { a with given := a.given ++ [(f, values)] }

/-- Looks at the pending value. -/
def settle (a : Arguments) : Except UsageError Arguments :=
  match a.pending with
  | none => .ok a
  | some (_, none) => .error .missingValue
  | some (f, some value) => { a with pending := none }.record f (some value)

/-- Takes a switch. -/
def takeSwitch (a : Arguments) (f : Flag) : Except UsageError Arguments := do
  let a ← a.settle
  match f with
  | .help => throw .helpRequested
  | .version => throw .versionRequested
  | f => a.record f none

/-- Takes an option that takes a value, with the one attached to it or without. -/
def takeOption (a : Arguments) (f : Flag) (attached : Option String) :
    Except UsageError Arguments := do
  let a ← a.settle
  match attached with
  | some value => a.record f (some value)
  | none => return { a with pending := some (f, none) }

/-- Takes an argument with two dashes, given what follows them. -/
def takeLong (a : Arguments) (text : List Char) : Except UsageError Arguments :=
  let name := String.ofList (text.takeWhile (· != '='))
  let attached :=
    match text.dropWhile (· != '=') with
    | _ :: value => some (String.ofList value)
    | [] => none
  match a.allowed.find? (·.longName == name) with
  | none => .error .unknownArgument
  | some f =>
    if f.takes = .nothing then
      if attached.isSome then .error .unexpectedValue else a.takeSwitch f
    else a.takeOption f attached

/-- Takes an argument with one dash, given what follows it: switches, and perhaps an option whose
value is the rest. -/
def takeShort (a : Arguments) : List Char → Except UsageError Arguments
  | [] => .ok a
  | c :: rest =>
    match a.allowed.find? (·.shortName == some c) with
    | none => .error .unknownArgument
    | some f =>
      if f.takes = .nothing then do (← a.takeSwitch f).takeShort rest
      else
        match rest with
        | [] => a.takeOption f none
        | '=' :: value => a.takeOption f (some (String.ofList value))
        | value => a.takeOption f (some (String.ofList value))

/-- Takes arguments up to a word that is neither an option nor a value; it comes with the rest. -/
def takeOptions (a : Arguments) :
    List String → Except UsageError (Arguments × Option (String × List String))
  | [] => .ok (a, none)
  | arg :: rest =>
    if a.ended then .ok (a, some (arg, rest))
    else
      match arg.toList with
      | ['-', '-'] => { a with ended := true }.takeOptions rest
      | '-' :: '-' :: text => do (← a.takeLong text).takeOptions rest
      | '-' :: c :: text => do (← a.takeShort (c :: text)).takeOptions rest
      | _ =>
        match a.pending with
        | some (f, none) => { a with pending := some (f, some arg) }.takeOptions rest
        | _ => .ok (a, some (arg, rest))

/-- The options that say where the stylesheet and its policy come from. -/
def source (a : Arguments) : SourceOptions where
  inputFile := (a.values .inputFile).head?
  config := (a.values .config).head?
  enable := a.values .enable
  disable := a.values .disable

/-- The command that the options ask for. -/
def command (a : Arguments) : CommandName → Command
  | .sanitize => .sanitize a.source (a.values .output).head? (a.has .noSummary)
  | .scan =>
    .scan a.source (a.has .jsonStdout) ((a.values .failOverThreshold).head? >>= threshold?)

end Arguments

/-- The answer to a request for help on what follows: only commands have any. -/
def helpOn : List String → UsageError
  | [] => .helpRequested
  | [name] =>
    if name == "help" || (CommandName.ofText? name).isSome then .helpRequested else .unknownCommand
  | _ => .unknownCommand

/-- The invocation in the arguments after the name of the program. -/
def Invocation.ofArguments (args : List String) : Except UsageError Invocation := do
  let (before, word) ← ({ allowed := Flag.beforeCommand } : Arguments).takeOptions args
  match word with
  | none => throw (if before.given.isEmpty then .nothingAsked else .missingCommand)
  | some (word, rest) =>
    match CommandName.ofText? word with
    | some name =>
      if before.ended then throw .unknownArgument
      let (after, word) ← ({ allowed := name.flags } : Arguments).takeOptions rest
      if word.isSome then throw .unknownArgument
      let after ← after.settle
      return {
        quiet := before.has .quiet || after.has .quiet
        debug := before.has .debug || after.has .debug
        command := after.command name }
    | none =>
      if word == "help" then throw (if before.ended then .unknownArgument else helpOn rest)
      throw .unknownCommand

end StyleGate
