import StyleGate.CommandLine.Reading
import StyleGate.Policy.Layers
import StyleGate.Policy.Standard
import StyleGate.Policy.Yaml
import StyleGate.Report
import StyleGate.Text.Blank
import StyleGate.Text.Terminal

/-!
# The program

`Program.run` goes from arguments to what the program leaves behind: an exit code, what it writes to
its two streams, and perhaps a file. What it finds around itself is given to it as `Surroundings`. It
stops at the first failure, which it prints with its causes.
-/

namespace StyleGate

/-- What the program finds around itself. Where something cannot be had, there is the description of
the reason. -/
structure Surroundings where
  stdin : Except String ByteArray := .ok ByteArray.empty
  /-- What a file holds. -/
  file : String → Except String ByteArray
  /-- Whether a file can be written. -/
  writable : String → Except String Unit := fun _ => .ok ()
  /-- Whether messages are written in colours. -/
  colors : Bool := false

/-- A failure: what failed, its causes from the outermost to the innermost, and the exit code. -/
structure Failure where
  message : String
  causes : List String := []
  code : Nat := 1
deriving DecidableEq, Repr

namespace Failure

/-- The exit code of a breakdown. -/
def breakdown : Nat := 101

/-- The causes, numbered if there are several. -/
def causeLines : List String → List String
  | [cause] => ["    " ++ Text.indented "    " cause]
  | causes => causes.zipIdx.map fun (cause, n) =>
    let number := toString n
    String.ofList (List.replicate (5 - number.length) ' ') ++ number ++ ": " ++
      Text.indented "       " cause

/-- The failure as it is printed. -/
def text (f : Failure) : String :=
  "Error: " ++ f.message ++ "\n" ++
    if f.causes.isEmpty then ""
    else "\nCaused by:\n" ++ String.join ((causeLines f.causes).map (· ++ "\n"))

end Failure

/-- What the program leaves behind. -/
structure Trace where
  code : Nat := 0
  stdout : String := ""
  stderr : String := ""
  /-- The file that was written, and what it holds. -/
  written : Option (String × String) := none
deriving DecidableEq, Repr

namespace Trace

/-- More on standard error. -/
def say (t : Trace) (text : String) : Trace := { t with stderr := t.stderr ++ text }

/-- The end of a program that failed. -/
def fail (t : Trace) (f : Failure) : Trace := { t.say f.text with code := f.code }

end Trace

namespace Program

/-- The name and version of the program. -/
def version : String := "csssan 0.1.0"

/-- The description of the arguments. -/
def usage : String :=
  "Usage: csssan [OPTIONS] <COMMAND>\n\n" ++
  "Commands:\n" ++
  "  sanitize  Sanitizes a stylesheet from a file or stdin, writing the cleaned CSS\n" ++
  "  scan      Reports diagnostics without writing the cleaned CSS\n"

/-- The text in bytes that were read. -/
def decode (bytes : ByteArray) : Except String String :=
  match String.fromUTF8? bytes with
  | some text => .ok text
  | none => .error "stream did not contain valid UTF-8"

/-- Adds to a failure's reason what was attempted. -/
def attempt {α : Type} (message : String) : Except String α → Except Failure α
  | .ok a => .ok a
  | .error reason => .error { message, causes := [reason] }

/-- The stylesheet that is asked for. -/
def readInput (s : Surroundings) (source : SourceOptions) : Except Failure String :=
  match source.inputFile with
  | some path => attempt ("Failed to read input file: " ++ path) (s.file path >>= decode)
  | none => attempt "Failed to read stylesheet from stdin" (s.stdin >>= decode)

/-- The policy in a file. -/
def readPolicy (s : Surroundings) (path : String) : Except Failure Policy := do
  let text ← attempt ("Failed to read policy file " ++ path) (s.file path >>= decode)
  match Policy.ofYaml text with
  | .ok policy =>
    match policy.validate with
    | .ok _ => return policy
    | .error e => throw { message := e.message }
  | .error f =>
    throw {
      message := "Failed to parse policy file " ++ path
      causes := [f.message]
      code := if f.isBreakdown then Failure.breakdown else 1 }

/-- A line of the log. -/
def warning (text : String) : String := Text.plain ("[WARN ] " ++ Text.indented "    " text ++ "\n")

/-- The warnings about names that no at-rule has. -/
def nameWarnings (policy : Policy) (list : String) (names : List String) : List String :=
  (policy.unknownNames names).map fun name =>
    warning ("At-rule '" ++ name ++ "' in the " ++ list ++ " list does not exist.")

/-- The warnings about groups that were not entered. -/
def depthWarnings (sheet : CleanSheet) : List String :=
  (Report.ofCode Diagnostic.nestingTooDeep sheet.parseErrors).map fun d =>
    warning ("Skipping group nested deeper than " ++ toString maxGroupDepth ++ " at " ++
      d.position.label)

/-- A stylesheet that went through the gate, the text it was read from, and the warnings on the
way. -/
structure Cleaned where
  input : String
  sheet : CleanSheet
  warnings : List String

/-- Reads what is asked for and cleans the stylesheet; `task` says what fails if that fails. -/
def clean (s : Surroundings) (source : SourceOptions) (task : String) : Except Failure Cleaned := do
  let input ← readInput s source
  let user ← source.config.mapM (readPolicy s)
  let policy := Policy.standard.merge user
  match (policy.activate source.enable source.disable).clean input with
  | .ok sheet =>
    return {
      input, sheet
      warnings := nameWarnings policy "enable" source.enable ++
        nameWarnings policy "disable" source.disable ++ depthWarnings sheet }
  | .error e => throw { message := task, causes := [InvalidPolicy.refusal, e.message] }

/-- The line of a message. -/
def message (s : Surroundings) (level : MessageLevel) (text : String) : String :=
  level.line Theme.standard s.colors text

/-- Writes what is left of a stylesheet, and the summary. -/
def sanitize (s : Surroundings) (quiet : Bool) (source : SourceOptions) (output : Option String)
    (noSummary : Bool) : Trace :=
  match clean s source "Sanitization failed" with
  | .error f => ({} : Trace).fail f
  | .ok ⟨input, sheet, warnings⟩ =>
    let loud (text : String) := if quiet then "" else text
    let emptied := sheet.css.isEmpty && !Text.allBlank input
    let before := loud (String.join warnings) ++
      if emptied then
        loud (message s .warn "Every rule was removed; the sanitized stylesheet is empty.")
      else ""
    let summary := if noSummary then "" else loud (Report.summary Theme.standard s.colors sheet)
    let text := sheet.css ++ "\n"
    match output with
    | none => { stdout := text, stderr := before ++ summary }
    | some path =>
      let before := before ++
        loud (message s .info ("Writing sanitized stylesheet to file: " ++ path))
      match attempt ("Failed to create output file: " ++ path) (s.writable path) with
      | .ok _ => { stderr := before ++ summary, written := some (path, text) }
      | .error f => { stderr := before : Trace }.fail f

/-- Reports on a stylesheet, and fails over a threshold. -/
def scan (s : Surroundings) (quiet : Bool) (source : SourceOptions) (jsonStdout : Bool)
    (failOver : Option Nat) : Trace :=
  match clean s source "Scan failed" with
  | .error f => ({} : Trace).fail f
  | .ok ⟨_, sheet, warnings⟩ =>
    let loud (text : String) := if quiet then "" else text
    let before := loud (String.join warnings)
    let t : Trace :=
      if jsonStdout then { stdout := (Report.toJson sheet).pretty ++ "\n", stderr := before }
      else { stderr := before ++ loud (Report.summary Theme.standard s.colors sheet) }
    match failOver with
    | none => t
    | some limit =>
      if sheet.count ≤ limit then t
      else
        let count := toString sheet.count
        let limit := toString limit
        (t.say (loud (message s .error
          ("Found " ++ count ++ " diagnostic(s), exceeding the threshold of " ++ limit ++ ".")))).fail
          { message := "Diagnostic count " ++ count ++ " exceeds threshold " ++ limit }

/-- What the program does for an invocation. -/
def perform (s : Surroundings) (i : Invocation) : Trace :=
  match i.command with
  | .sanitize source output noSummary => sanitize s i.quiet source output noSummary
  | .scan source jsonStdout failOver => scan s i.quiet source jsonStdout failOver

/-- What the program does for arguments that are no invocation. -/
def refuse : UsageError → Trace
  | .helpRequested => { stdout := usage }
  | .versionRequested => { stdout := version ++ "\n" }
  | .nothingAsked => { code := 2, stderr := usage }
  | e => { code := 2, stderr := "error: " ++ e.message ++ "\n\n" ++ usage }

/-- What the program does for the arguments after its name. -/
def run (s : Surroundings) (args : List String) : Trace :=
  match Invocation.ofArguments args with
  | .ok i => perform s i
  | .error e => refuse e

end Program

end StyleGate
