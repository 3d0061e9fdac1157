import LayoutCompose.Conversion
import LayoutCompose.Files.Tree
import LayoutCompose.Settings

/-!
# Sessions

What a command works on: a file tree, and the text that it has put out so far. A
command that fails keeps what it has done before.
-/

namespace LayoutCompose

inductive Output where
  | text (s : String)
  /-- The seconds that the command has taken, which only the one who runs it knows. -/
  | elapsed
  deriving DecidableEq, Repr

structure Session where
  files : FileTree
  output : List Output := []
  /-- The lines on the standard error. -/
  messages : List String := []
  deriving DecidableEq, Repr

inductive Command.Fault where
  | notFound (path : String)
  | notLayout (path : String)
  | noLayouts (path : String)
  | nameForDirectory
  | badName (fault : Name.Fault)
  | unreadable (path : String)
  | notMade (path : String)
  | notWritten (path : String)
  | rejected (path : String)
  | someRejected (count : Nat)
  | someMalformed (count : Nat)
  | noSettings (path : String)
  | unreadableSettings (path : String) (fault : FileTree.Fault)
  | badSettings (path : String) (fault : Settings.Fault)
  deriving DecidableEq, Repr

abbrev Command := ExceptT Command.Fault (StateM Session)

namespace Command

def Fault.message : Fault → String
  | notFound path => "File not found: " ++ path
  | notLayout path => "File must have .xml extension: " ++ path
  | noLayouts path => "No .xml files found in " ++ path
  | nameForDirectory => "--name only applies to a single layout file"
  | badName fault => fault.message
  | unreadable path => "Failed to read " ++ path
  | notMade path => "Failed to create " ++ path
  | notWritten path => "Failed to write " ++ path
  | rejected path => path ++ " could not be converted"
  | someRejected count => toString count ++ " layout(s) failed to convert"
  | someMalformed count => toString count ++ " file(s) failed to parse"
  | noSettings path => "could not find `" ++ path ++ "`"
  | unreadableSettings path fault => "failed to read `" ++ path ++ "`: " ++ fault.message
  | badSettings path fault => "failed to parse `" ++ path ++ "`: " ++ fault.message

def getFiles : Command FileTree := do
  return (← get).files

def print (outputs : List Output) : Command Unit :=
  modify fun s => { s with output := s.output ++ outputs }

def printLines (lines : List String) : Command Unit :=
  modify fun s => { s with messages := s.messages ++ lines }

def liftName (result : Except Name.Fault Unit) : Command Unit :=
  match result with
  | .ok () => pure ()
  | .error fault => throw (.badName fault)

/-! ## Settings -/

def settingsAt (path : String) : Command Settings := do
  match (← getFiles).read path with
  | .error .notFound => throw (.noSettings path)
  | .error fault => throw (.unreadableSettings path fault)
  | .ok text =>
    match Settings.read text with
    | .error fault => throw (.badSettings path fault)
    | .ok settings => return settings

/-- The settings at a given path, else those of the working directory, else the
defaults. -/
def settings (path? : Option String) : Command Settings := do
  match path? with
  | some path => settingsAt path
  | none =>
    if (← getFiles).isPresent Settings.defaultPath then settingsAt Settings.defaultPath
    else return {}

/-! ## Layouts -/

inductive Target where
  | file (path : String)
  | directory (path : String)
  deriving DecidableEq, Repr

def target (path : String) : Command Target := do
  let files ← getFiles
  if files.isDirectory path then return .directory path
  else if !files.isPresent path then throw (.notFound path)
  else if !Path.isLayout path then throw (.notLayout path)
  else return .file path

def layouts (path : String) : Command (List String) := do
  match (← getFiles).layouts path with
  | [] => throw (.noLayouts path)
  | found => return found

def layoutsOf : Target → Command (List String)
  | .file path => pure [path]
  | .directory path => layouts path

def convertLayout (options : Options) (path : String) : Command Conversion := do
  match (← getFiles).read path with
  | .error _ => throw (.unreadable path)
  | .ok source => return .ofSource options source

def label : Diagnostic.Kind → String
  | .malformed | .limit => "error:"
  | .unsupported | .deprecated => "warning:"
  | .performance => "tip:"
  | .bestPractice | .migration => "suggestion:"

/-- The lines about a layout: its path, if there is anything to say, and then one line
for each diagnostic. -/
def diagnosticLines (path : String) (c : Conversion) : List String :=
  let lines := (c.warnings ++ c.suggestions).map fun d => "  " ++ label d.kind ++ " " ++ d.text
  if lines.isEmpty then [] else path :: lines

/-! ## Files -/

def makeDirectories (path : String) : Command Unit := do
  let (files, result) := (← getFiles).makeDirectories path
  modify fun s => { s with files }
  match result with
  | .ok () => return ()
  | .error _ => throw (.notMade path)

/-- Writes a file into a directory that is there. -/
def save (path text : String) : Command Unit := do
  match (← getFiles).write path text with
  | .ok files => modify fun s => { s with files }
  | .error _ => throw (.notWritten path)

def write (path text : String) : Command Unit := do
  (Path.parent? path).forM makeDirectories
  save path text

end Command

end LayoutCompose
