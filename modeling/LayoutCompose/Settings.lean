import LayoutCompose.Code.Name
import LayoutCompose.Conversion
import LayoutCompose.Toml.Document

/-!
# Settings

A settings file has two groups, `conversion` and `export`. A group is a table; it may
also be an array with the values in the order of the fields, or a date or time, which
says nothing. Keys that mean nothing here are left alone as long as their numbers can be
read, items after the last field are left alone whatever they are, and what is missing
has its default.
-/

namespace LayoutCompose

structure Settings where
  options : Options := {}
  package : String := Name.defaultPackage
  /-- The name of the file that a single layout is written to. -/
  file : String := Name.defaultFile
  deriving DecidableEq, Repr

namespace Settings

/-- The settings file that is used without being asked for. -/
def defaultPath : String := "xml2compose.toml"

inductive Fault where
  /-- Not a TOML document, or a value of the wrong type. -/
  | malformed
  | badName (fault : Name.Fault)
  | zeroLimit
  deriving DecidableEq, Repr

def Fault.message : Fault → String
  | malformed => "TOML parse error"
  | badName fault => fault.message
  | zeroLimit => "max_depth and max_nodes must be greater than zero"

/-! ## Values of a group -/

/-- What a group says under a name, or at the position of that name. -/
def valueAt? (group : Toml.Value) (position : Nat) (name : String) : Option Toml.Value :=
  match group with
  | .table entries => entries.lookup name
  | .array items => items[position]?
  | _ => none

def text? (value : Option Toml.Value) (default : String) : Option String :=
  match value with
  | none => some default
  | some (.string s) => some s
  | some _ => none

/-- A number of 64 bits without a sign. -/
def count? (value : Toml.Value) : Option Nat :=
  match value with
  | .integer (some (.ofNat n)) => if n < Nat.pow 2 64 then some n else none
  | _ => none

def countOr? (value : Option Toml.Value) (default : Nat) : Option Nat :=
  value.elim (some default) count?

/-- An array has to reach the last field, which has no default of its own. -/
def maxSuggestions? (group : Toml.Value) : Option (Option Nat) :=
  match group with
  | .array items => (items[5]?).bind fun v => (count? v).map some
  | _ =>
    match valueAt? group 5 "max_suggestions" with
    | none => some none
    | some v => (count? v).map some

/-- Whether the values under other names than these can be read. -/
def othersReadable (names : List String) (entries : List (String × Toml.Value)) : Bool :=
  entries.all fun (name, v) => names.contains name || v.isReadable

def isGroup (names : List String) : Toml.Value → Bool
  | .table entries => othersReadable names entries
  | .array _ | .dateTime _ => true
  | _ => false

def optionNames : List String :=
  ["function_name", "max_depth", "max_nodes", "nesting_depth_threshold", "children_threshold",
    "max_suggestions"]

def options? (group : Toml.Value) : Option Options := do
  guard (isGroup optionNames group)
  let function ← text? (valueAt? group 0 "function_name") Name.defaultFunction
  let limits : Limits := {}
  let maxDepth ← countOr? (valueAt? group 1 "max_depth") limits.maxDepth
  let maxElements ← countOr? (valueAt? group 2 "max_nodes") limits.maxElements
  let thresholds : Thresholds := {}
  let nesting ← countOr? (valueAt? group 3 "nesting_depth_threshold") thresholds.nesting
  let children ← countOr? (valueAt? group 4 "children_threshold") thresholds.children
  let maxSuggestions ← maxSuggestions? group
  return ⟨function, ⟨maxDepth, maxElements⟩, ⟨nesting, children⟩, maxSuggestions⟩

def export? (group : Toml.Value) : Option (String × String) := do
  guard (isGroup ["package", "file_name"] group)
  let package ← text? (valueAt? group 0 "package") Name.defaultPackage
  let file ← text? (valueAt? group 1 "file_name") Name.defaultFile
  return (package, file)

def ofTable? (table : List (String × Toml.Value)) : Option Settings := do
  guard (othersReadable ["conversion", "export"] table)
  let options ← (table.lookup "conversion").elim (some {}) options?
  let (package, file) ← (table.lookup "export").elim (some (Name.defaultPackage, Name.defaultFile)) export?
  return ⟨options, package, file⟩

/-! ## Checks -/

def check (s : Settings) : Except Fault Unit := do
  (Name.checkPackage s.package).mapError .badName
  (Name.checkFunction s.options.function).mapError .badName
  if s.options.limits.maxDepth = 0 || s.options.limits.maxElements = 0 then throw .zeroLimit

def read (text : String) : Except Fault Settings :=
  match (Toml.parse? text).bind ofTable? with
  | none => .error .malformed
  | some s => do
    s.check
    return s

end Settings

end LayoutCompose
