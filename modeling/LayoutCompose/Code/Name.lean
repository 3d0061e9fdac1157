import LayoutCompose.Text.Blank
import LayoutCompose.Text.Search
import LayoutCompose.Text.Uppercase

/-!
# Names in generated code

A file stem such as `activity_main` gives the function `ActivityMainScreen` and the
file `ActivityMainScreen.kt`. Function names and package names given from outside
are checked.
-/

namespace LayoutCompose.Name

def defaultFunction : String := "ComposableScreen"

def defaultFile : String := "ComposableScreen.kt"

def defaultPackage : String := "com.example.app.ui"

def isSeparator (c : Char) : Bool :=
  c == '_' || c == '-' || c == '.' || Text.isBlank c

def capitalize : List Char → List Char
  | [] => []
  | c :: rest => Text.uppercase c ++ rest

/-- The words of a text run together, each with its first letter in upper case. -/
def camelCase (s : String) : String :=
  String.ofList ((s.toList.splitOnP isSeparator).flatMap capitalize)

def functionFor (stem : String) : String :=
  let name := camelCase stem
  match name.toList with
  | [] => defaultFunction
  | c :: _ =>
    let name := if c.isDigit then "Layout" ++ name else name
    if Text.endsWith "Screen" name then name else name ++ "Screen"

def fileFor (stem : String) : String :=
  functionFor stem ++ ".kt"

/-! ## Checks -/

inductive Fault where
  | fewParts (package : String)
  | emptyPart (package : String) (number : Nat)
  | badStart (package part : String)
  | badCharacter (package part : String) (c : Char)
  | badFunction (name : String)
  deriving DecidableEq, Repr

def Fault.aboutPackage (name : String) : String :=
  "Invalid Android package name '" ++ name ++ "'. "

def Fault.message : Fault → String
  | fewParts name => aboutPackage name ++ "Must have at least two parts (e.g., 'com.example')"
  | emptyPart name number => aboutPackage name ++ "Part " ++ toString number ++ " is empty"
  | badStart name part =>
    aboutPackage name ++ "Part '" ++ part ++ "' must start with a lowercase letter"
  | badCharacter name part c =>
    aboutPackage name ++ "Part '" ++ part ++ "' contains invalid character '" ++
      String.ofList [c] ++ "'"
  | badFunction name =>
    "Invalid function name '" ++ name ++ "'. Use letters, digits and underscores"

def isPartCharacter (c : Char) : Bool :=
  c.isLower || c.isDigit || c == '_'

def partFault? (package : String) (number : Nat) (part : String) : Option Fault :=
  match part.toList with
  | [] => some (.emptyPart package number)
  | c :: rest =>
    if !c.isLower then some (.badStart package part)
    else ((c :: rest).find? (!isPartCharacter ·)).map (.badCharacter package part)

/-- The fault of the leftmost faulty part, counting parts from `number`. -/
def firstFault? (package : String) (number : Nat) : List String → Option Fault
  | [] => none
  | part :: rest => (partFault? package number part).or (firstFault? package (number + 1) rest)

/-- A package name has at least two parts between dots. Each starts with a lower-case
letter and goes on with lower-case letters, digits and underscores. -/
def checkPackage (package : String) : Except Fault Unit :=
  let parts := Text.pieces '.' package
  if parts.length < 2 then .error (.fewParts package)
  else match firstFault? package 1 parts with
    | some fault => .error fault
    | none => .ok ()

def isFunctionName : List Char → Bool
  | [] => false
  | c :: rest => (c.isAlpha || c == '_') && rest.all fun c => c.isAlphanum || c == '_'

def checkFunction (name : String) : Except Fault Unit :=
  if isFunctionName name.toList then .ok () else .error (.badFunction name)

end LayoutCompose.Name
