import StyleGate.Gate.Stylesheet
import StyleGate.Json
import StyleGate.Theme

/-!
# Reports on a stylesheet

The diagnostics of a stylesheet that went through the gate, grouped by code: as a summary for people
and as a report for machines. Codes are counted for each of the two lists of diagnostics on its own,
in ascending order (`Report.countByCode`). The report adds the two counts up; the summary has a section
for each list and looks up where the diagnostics of every counted code are.
-/

namespace StyleGate

namespace Report

/-- Counts of codes, in ascending order of the codes, with `n` more of a code. -/
def addCount (code : String) (n : Nat) : List (String × Nat) → List (String × Nat)
  | [] => [(code, n)]
  | (c, m) :: rest =>
    if code < c then (code, n) :: (c, m) :: rest
    else if code = c then (c, m + n) :: rest
    else (c, m) :: addCount code n rest

/-- How often each code occurs, in ascending order of the codes. -/
def countByCode (ds : List Diagnostic) : List (String × Nat) :=
  ds.foldl (fun counts d => addCount d.code 1 counts) []

/-- Counts with others added to them. -/
def addCounts (counts more : List (String × Nat)) : List (String × Nat) :=
  more.foldl (fun counts (code, n) => addCount code n counts) counts

/-- The diagnostics of a code. -/
def ofCode (code : String) (ds : List Diagnostic) : List Diagnostic :=
  ds.filter fun d => d.code == code

/-! ## The summary -/

/-- The line of a code: how often it was counted, and where its diagnostics are. -/
def codeLine (theme : Theme) (colors : Bool) (ds : List Diagnostic) (code : String) (n : Nat) :
    String :=
  "  " ++ theme.paint colors .diagnosticCode code ++ " (" ++
    theme.paint colors .summaryOccurrences (toString n) ++ ") at " ++
    theme.paint colors .diagnosticPosition
      (String.intercalate ", " ((ofCode code ds).map fun d => d.position.label)) ++ "\n"

/-- A section of the summary: a title and a line for each code, unless there is nothing to say. -/
def sectionText (theme : Theme) (colors : Bool) (title : String) (ds : List Diagnostic) : String :=
  if ds.isEmpty then ""
  else
    theme.paint colors .header title ++ "\n" ++
      String.join ((countByCode ds).map fun (code, n) => codeLine theme colors ds code n)

/-- What is said of a stylesheet without diagnostics. -/
def nothingFound : String := "No issues found. Stylesheet accepted as-is."

/-- The summary of a stylesheet's diagnostics. -/
def summary (theme : Theme) (colors : Bool) (sheet : CleanSheet) : String :=
  if sheet.isClean then theme.paint colors .success nothingFound ++ "\n"
  else
    sectionText theme colors "Parse errors:" sheet.parseErrors ++
      sectionText theme colors "Sanitization errors:" sheet.sanitizationErrors ++
      toString sheet.count ++ " diagnostic(s) in total.\n"

end Report

/-! ## The report as JSON -/

/-- What is reported to machines. -/
structure ScanReport where
  total : Nat
  /-- How often each code occurs in both lists together, in ascending order of the codes. -/
  counts : List (String × Nat)
  parseErrors : List Diagnostic
  sanitizationErrors : List Diagnostic
deriving Repr

namespace ScanReport

/-- The report on a stylesheet. -/
def ofSheet (sheet : CleanSheet) : ScanReport where
  total := sheet.count
  counts :=
    Report.addCounts (Report.countByCode sheet.parseErrors)
      (Report.countByCode sheet.sanitizationErrors)
  parseErrors := sheet.parseErrors
  sanitizationErrors := sheet.sanitizationErrors

/-- A diagnostic as JSON. -/
def diagnosticToJson (d : Diagnostic) : Json :=
  .object
    [("code", .string d.code), ("line", .int d.position.line), ("column", .int d.position.column)]

/-- The report as JSON. -/
def toJson (r : ScanReport) : Json :=
  .object
    [("total", .int r.total),
     ("counts", .object (r.counts.map fun (code, n) => (code, .int n))),
     ("parse_errors", .array (r.parseErrors.map diagnosticToJson)),
     ("sanitization_errors", .array (r.sanitizationErrors.map diagnosticToJson))]

end ScanReport

/-- The report on a stylesheet as JSON. -/
def Report.toJson (sheet : CleanSheet) : Json := (ScanReport.ofSheet sheet).toJson

end StyleGate
