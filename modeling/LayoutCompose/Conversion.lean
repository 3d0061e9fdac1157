import LayoutCompose.Code.Import
import LayoutCompose.Code.Line
import LayoutCompose.Code.Name
import LayoutCompose.Code.Source
import LayoutCompose.Code.Tidy
import LayoutCompose.Diagnostic.Survey
import LayoutCompose.Layout.Document

/-!
# Converting a layout

A conversion always gives a source file. If the layout is rejected, the file says why
in its first lines and holds a stub of the function, and the reason is the only
diagnostic.
-/

namespace LayoutCompose

structure Options where
  function : String := Name.defaultFunction
  limits : Limits := {}
  thresholds : Thresholds := {}
  /-- The number of suggestions to keep; all of them if unset. -/
  maxSuggestions : Option Nat := none
  deriving DecidableEq, Repr

structure Conversion where
  /-- The import block, empty if the layout was rejected. -/
  imports : String
  /-- The whole source file. -/
  code : String
  warnings : List Diagnostic
  suggestions : List Diagnostic
  deriving DecidableEq, Repr

namespace Conversion

def isFailure (c : Conversion) : Bool :=
  c.warnings.any (·.kind.isRejection)

def functionCode (name : String) (optIn : Bool) (body : String) : String :=
  (if optIn then "@OptIn(ExperimentalMaterial3Api::class)\n" else "") ++
    "@Composable\nfun " ++ name ++ "() \x7b\n" ++ body ++ "\x7d\n"

def keep (cap : Option Nat) (suggestions : List Diagnostic) : List Diagnostic :=
  match cap with
  | some n => suggestions.take n
  | none => suggestions

def ofElement (options : Options) (root : Element) : Except LayoutError Conversion :=
  match root.code options.limits.maxDepth 1 with
  | .error error => .error error
  | .ok body =>
    let report := root.survey options.thresholds
    let suggestions := keep options.maxSuggestions report.suggestions
    let imports := Import.block root
    let function := Tidy.tidy (functionCode options.function (Import.needsOptIn root) body)
    let listing := Source.listing? report.warnings suggestions
    .ok ⟨imports, Source.assemble imports listing function, report.warnings, suggestions⟩

def tryOfSource (options : Options) (source : String) : Except LayoutError Conversion :=
  match Document.read options.limits source with
  | .error error => .error error
  | .ok document => ofElement options document.root

def headline (error : LayoutError) : String :=
  (if error.isLimit then "XML too large: " else "XML parse error: ") ++ error.message

def hint (error : LayoutError) : String :=
  if error.isLimit then "Split the layout into smaller files or raise max_depth / max_nodes."
  else "Check that every tag is closed and every attribute value is quoted."

def stub (error : LayoutError) (function : String) : String :=
  "// " ++ headline error ++ "\n// " ++ hint error ++
    "\nimport androidx.compose.material3.Text\nimport androidx.compose.runtime.Composable\n\n" ++
    "@Composable\nfun " ++ function ++ "() \x7b\n    Text(\"Conversion failed\")\n\x7d\n"

def ofError (error : LayoutError) (function : String) : Conversion where
  imports := ""
  code := stub error function
  warnings := [{ kind := if error.isLimit then .limit else .malformed, message := headline error }]
  suggestions := []

def ofSource (options : Options) (source : String) : Conversion :=
  match tryOfSource options source with
  | .ok conversion => conversion
  | .error error => ofError error options.function

/-- The source file with its package line, if it is to have one. -/
def withPackage (c : Conversion) (package : Option String) : String :=
  match package with
  | some package => "package " ++ package ++ "\n\n" ++ c.code
  | none => c.code

end Conversion

end LayoutCompose
