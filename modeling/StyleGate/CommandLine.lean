/-!
# The command line

What can be asked of the program: to clean a stylesheet or to scan it, with a policy and its at-rules
enabled and disabled by name. `UsageError` says why arguments do not ask for anything.
-/

namespace StyleGate

/-- Where a stylesheet and its policy come from. Without an input file the stylesheet is read from
standard input, and without a configuration file the policy is the standard one. -/
structure SourceOptions where
  inputFile : Option String := none
  config : Option String := none
  enable : List String := []
  disable : List String := []
deriving DecidableEq, Repr

/-- What is to be done. -/
inductive Command where
  /-- Write what is left of a stylesheet, to a file or to standard output. -/
  | sanitize (source : SourceOptions) (output : Option String) (noSummary : Bool)
  /-- Report on a stylesheet, and fail if there are more diagnostics than a threshold. -/
  | scan (source : SourceOptions) (jsonStdout : Bool) (failOverThreshold : Option Nat)
deriving DecidableEq, Repr

/-- A command with the switches that every command has. -/
structure Invocation where
  quiet : Bool := false
  debug : Bool := false
  command : Command
deriving DecidableEq, Repr

/-- Why arguments are no invocation. -/
inductive UsageError where
  | helpRequested
  | versionRequested
  /-- There is not even a switch. -/
  | nothingAsked
  | missingCommand
  | unknownCommand
  | unknownArgument
  | missingValue
  | invalidNumber
  | repeated
  | unexpectedValue
deriving DecidableEq, Repr

/-- The description of an error. -/
def UsageError.message : UsageError → String
  | helpRequested => "help was asked for"
  | versionRequested => "the version was asked for"
  | nothingAsked => "a command is needed: sanitize or scan"
  | missingCommand => "a command is needed: sanitize or scan"
  | unknownCommand => "unknown command"
  | unknownArgument => "unknown argument"
  | missingValue => "an option needs a value"
  | invalidNumber => "a threshold is a number below 2^64"
  | repeated => "an option stands twice"
  | unexpectedValue => "a switch takes no value"

/-! ## Options -/

/-- An option or a switch. -/
inductive Flag where
  | quiet
  | debug
  | help
  | version
  | inputFile
  | output
  | config
  | enable
  | disable
  | noSummary
  | jsonStdout
  | failOverThreshold
deriving DecidableEq, Repr

/-- What an option takes. -/
inductive FlagValue where
  | nothing
  | path
  /-- Names with commas between them; the option may stand several times. -/
  | names
  | number
deriving DecidableEq, Repr

namespace Flag

/-- The name of an option after two dashes. -/
def longName : Flag → String
  | quiet => "quiet"
  | debug => "debug"
  | help => "help"
  | version => "version"
  | inputFile => "input-file"
  | output => "output"
  | config => "config"
  | enable => "enable"
  | disable => "disable"
  | noSummary => "no-summary"
  | jsonStdout => "json-stdout"
  | failOverThreshold => "fail-over-threshold"

/-- The letter of an option after one dash. -/
def shortName : Flag → Option Char
  | quiet => some 'q'
  | debug => some 'd'
  | help => some 'h'
  | version => some 'V'
  | inputFile => some 'i'
  | output => some 'o'
  | enable => some 'e'
  | disable => some 'x'
  | _ => none

/-- What the option takes. -/
def takes : Flag → FlagValue
  | inputFile | output | config => .path
  | enable | disable => .names
  | failOverThreshold => .number
  | _ => .nothing

end Flag

/-- A command as far as its name. -/
inductive CommandName where
  | sanitize
  | scan
deriving DecidableEq, Repr

namespace CommandName

/-- The command of a name. -/
def ofText? : String → Option CommandName
  | "sanitize" => some sanitize
  | "scan" => some scan
  | _ => none

/-- The options of a command. -/
def flags : CommandName → List Flag
  | sanitize =>
    [.quiet, .debug, .help, .inputFile, .output, .config, .enable, .disable, .noSummary]
  | scan =>
    [.quiet, .debug, .help, .inputFile, .config, .enable, .disable, .jsonStdout,
      .failOverThreshold]

end CommandName

/-- The options in front of a command. -/
def Flag.beforeCommand : List Flag := [.quiet, .debug, .help, .version]

end StyleGate
