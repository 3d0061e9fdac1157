import LayoutCompose.Command.Session

/-!
# Converting files

One layout goes to the standard output or to a file; a directory goes, layout by
layout, to files of the same arrangement below the output directory. A layout that is
rejected still gives a file, and the command fails when all else is done.
-/

namespace LayoutCompose.Command

def defaultOut : String := "compose-out"

structure ConvertArgs where
  path : String
  out : Option String := none
  package : Option String := none
  noPackage : Bool := false
  /-- The name of the function, for a single layout. -/
  name : Option String := none
  deriving DecidableEq, Repr

def packageOf (settings : Settings) (args : ConvertArgs) : Option String :=
  if args.noPackage then none else some (args.package.getD settings.package)

def packageFor (settings : Settings) (args : ConvertArgs) : Command (Option String) := do
  (packageOf settings args).forM fun package => liftName (Name.checkPackage package)
  return packageOf settings args

/-! ## One layout -/

/-- The options for a single layout, whose function may be named by an argument. -/
def fileOptions (settings : Settings) (args : ConvertArgs) : Options :=
  { settings.options with function := args.name.getD settings.options.function }

def deliver (settings : Settings) (args : ConvertArgs) (path code : String) : Command Unit :=
  match args.out with
  | some out => do
    let target := Path.join out (args.name.elim settings.file (· ++ ".kt"))
    write target code
    print [.text ("   Converted " ++ path ++ " -> " ++ target ++ "\n")]
  | none => print [.text code]

def convertFile (settings : Settings) (args : ConvertArgs) (package : Option String)
    (path : String) : Command Unit := do
  args.name.forM fun name => liftName (Name.checkFunction name)
  let conversion ← convertLayout (fileOptions settings args) path
  printLines (diagnosticLines path conversion)
  deliver settings args path (conversion.withPackage package)
  if conversion.isFailure then throw (.rejected path)

/-! ## The layouts of a directory -/

/-- The options for one layout of a batch: its file gives the function its name. -/
def batchOptions (options : Options) (layout : String) : Options :=
  { options with function := Name.functionFor (Path.stem layout) }

/-- Converts layouts one after the other; the result lists those that were rejected. -/
def convertEach (options : Options) (package : Option String) (root out : String) :
    List String → Command (List String)
  | [] => return []
  | layout :: rest => do
    let conversion ← convertLayout (batchOptions options layout) layout
    printLines (diagnosticLines layout conversion)
    write (Path.outputFor root out layout) (conversion.withPackage package)
    let rejected ← convertEach options package root out rest
    return if conversion.isFailure then layout :: rejected else rejected

def convertDirectory (settings : Settings) (package : Option String) (root out : String) :
    Command Unit := do
  let layouts ← layouts root
  let rejected ← convertEach settings.options package root out layouts
  let converted := layouts.length - rejected.length
  print [.text ("   Converted " ++ toString converted ++ " layout(s) into " ++ out ++ " in "),
    .elapsed, .text "s\n"]
  if !rejected.isEmpty then
    printLines (rejected.map fun layout => "  " ++ layout ++ " - could not be parsed")
    throw (.someRejected rejected.length)

def convert (settings : Settings) (args : ConvertArgs) : Command Unit := do
  let package ← packageFor settings args
  match ← target args.path with
  | .file path => convertFile settings args package path
  | .directory path =>
    if args.name.isSome then throw .nameForDirectory
    convertDirectory settings package path (args.out.getD defaultOut)

end LayoutCompose.Command
