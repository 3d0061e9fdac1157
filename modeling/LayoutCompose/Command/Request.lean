import LayoutCompose.Command.Check
import LayoutCompose.Command.Convert

/-!
# Requests

What the arguments of the command line ask for. Options may stand before and after
the path; of an option that is given twice, the last value counts.

There is no request for watching, the third command, which converts the layouts of a path
at once and then again on every change until it is stopped: it is left out.
-/

namespace LayoutCompose.Command

inductive Request where
  | convert (settings : Option String) (args : ConvertArgs)
  | check (settings : Option String) (path : String) (format : Format)
  deriving DecidableEq, Repr

namespace Request

structure Arguments where
  paths : List String := []
  settings : Option String := none
  out : Option String := none
  package : Option String := none
  noPackage : Bool := false
  name : Option String := none
  format : Format := .text

def readArguments (a : Arguments) : List String → Option Arguments
  | [] => some a
  | "--config" :: value :: rest => readArguments { a with settings := some value } rest
  | "--out" :: value :: rest => readArguments { a with out := some value } rest
  | "--package" :: value :: rest => readArguments { a with package := some value } rest
  | "--no-package" :: rest => readArguments { a with noPackage := true } rest
  | "--name" :: value :: rest => readArguments { a with name := some value } rest
  | "--format" :: "text" :: rest => readArguments { a with format := .text } rest
  | "--format" :: "json" :: rest => readArguments { a with format := .json } rest
  | word :: rest =>
    if Text.startsWith "-" word then none
    else readArguments { a with paths := a.paths ++ [word] } rest

/-- The request of a command line; the first word that is no option names the command. -/
def ofArguments? (words : List String) : Option Request := do
  let a ← readArguments {} words
  match a.paths with
  | ["convert", path] => return .convert a.settings ⟨path, a.out, a.package, a.noPackage, a.name⟩
  | ["check", path] => return .check a.settings path a.format
  | _ => none

def usage : String :=
  "usage: layoutcompose convert [--out DIR] [--package NAME | --no-package] [--name NAME] PATH\n" ++
    "       layoutcompose check [--format text|json] PATH\n" ++
    "       either with [--config FILE]\n"

def sources : Request → List String
  | .convert settings args => settings.getD Settings.defaultPath :: args.path :: args.out.toList
  | .check settings path _ => [settings.getD Settings.defaultPath, path]

def run : Request → Command Unit
  | .convert path? args => do Command.convert (← settings path?) args
  | .check path? path format => do Command.check (← settings path?) path format

end Request

end LayoutCompose.Command
