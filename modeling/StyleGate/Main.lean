import StyleGate.Directory

/-!
# The executable

Finds out what the program's surroundings are, runs it, and carries out what it leaves behind.
-/

namespace StyleGate.Program

/-- The number of a failed operation. -/
def number? : IO.Error → Option UInt32
  | .noFileOrDirectory _ code _ | .inappropriateType _ code _ | .invalidArgument _ code _ => some code
  | _ => none

/-- The description of a failed operation. -/
def describe (e : IO.Error) : String :=
  match (number? e).bind fun code => PathFault.ofNumber? code.toNat with
  | some f => f.message
  | none => toString e

/-- The result of an operation, or the description of its failure. -/
def attempted {α : Type} (operation : IO α) : IO (Except String α) := do
  try return .ok (← operation)
  catch e => return .error (describe e)

/-- Prints what a run left behind. -/
def emit (t : Trace) : IO UInt32 := do
  IO.eprint t.stderr
  IO.print t.stdout
  return t.code.toUInt32

/-- The files that an invocation reads. -/
def filesOf (args : List String) : List String :=
  match Invocation.ofArguments args with
  | .ok { command := .sanitize source _ _, .. } | .ok { command := .scan source _ _, .. } =>
    source.inputFile.toList ++ source.config.toList
  | .error _ => []

/-- Whether an invocation reads standard input. -/
def readsStdin (args : List String) : Bool :=
  match Invocation.ofArguments args with
  | .ok { command := .sanitize source _ _, .. } | .ok { command := .scan source _ _, .. } =>
    source.inputFile.isNone
  | .error _ => false

/-- Runs the program where it is. -/
def execute (args : List String) : IO UInt32 := do
  let stdin ←
    if readsStdin args then attempted (do (← IO.getStdin).readBinToEnd)
    else pure (.ok ByteArray.empty)
  let files ← (filesOf args).mapM fun (path : String) => do
    return (path, ← attempted (IO.FS.readBinFile path))
  let surroundings : Surroundings := {
    stdin
    file := fun path => (files.lookup path).getD (.error "not read")
    colors := ← (← IO.getStderr).isTty }
  let t := run surroundings args
  match t.written with
  | none => emit t
  | some (path, text) =>
    match ← attempted (IO.FS.writeFile path text) with
    | .ok _ => emit t
    | .error reason =>
      emit (run { surroundings with writable := fun _ => .error reason } args)

end StyleGate.Program

/-- Runs the program for the arguments after its name. -/
def main (args : List String) : IO UInt32 := StyleGate.Program.execute args
