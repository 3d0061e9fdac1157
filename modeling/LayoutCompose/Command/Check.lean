import LayoutCompose.Command.Session
import LayoutCompose.Text.Json

/-!
# Checking files

Layouts are converted for their diagnostics only. The result is a line with the
numbers, or a list of reports as JSON.
-/

namespace LayoutCompose.Command

inductive Format where
  | text
  | json
  deriving DecidableEq, Repr

structure FileReport where
  path : String
  success : Bool
  warnings : List Diagnostic
  suggestions : List Diagnostic
  deriving DecidableEq, Repr

def FileReport.ofConversion (path : String) (c : Conversion) : FileReport :=
  ⟨path, !c.isFailure, c.warnings, c.suggestions⟩

def diagnosticJson (d : Diagnostic) : JsonValue :=
  .object ([("kind", .string d.kind.name), ("message", .string d.message)] ++
    (d.remedy.map fun remedy => ("remediation", JsonValue.string remedy)).toList)

def FileReport.toJson (r : FileReport) : JsonValue :=
  .object [("file", .string r.path), ("success", .bool r.success),
    ("warnings", .list (r.warnings.map diagnosticJson)),
    ("suggestions", .list (r.suggestions.map diagnosticJson))]

def checkEach (options : Options) : List String → Command (List FileReport)
  | [] => return []
  | path :: rest => do
    let c ← convertLayout options path
    printLines (diagnosticLines path c)
    let reports ← checkEach options rest
    return .ofConversion path c :: reports

def summary (reports : List FileReport) : String :=
  let warnings := (reports.flatMap (·.warnings)).length
  let suggestions := (reports.flatMap (·.suggestions)).length
  "   Checked " ++ toString reports.length ++ " file(s): " ++ toString warnings ++
    " warning(s), " ++ toString suggestions ++ " suggestion(s)\n"

def rendered (format : Format) (reports : List FileReport) : String :=
  match format with
  | .text => summary reports
  | .json => JsonValue.layOut 0 (.list (reports.map FileReport.toJson)) ++ "\n"

def reportEach (options : Options) (format : Format) (paths : List String) : Command Unit := do
  let reports ← checkEach options paths
  print [.text (rendered format reports)]
  let failed := (reports.filter (!·.success)).length
  if 0 < failed then throw (.someMalformed failed)

def check (settings : Settings) (path : String) (format : Format) : Command Unit := do
  reportEach settings.options format (← layoutsOf (← target path))

end LayoutCompose.Command
