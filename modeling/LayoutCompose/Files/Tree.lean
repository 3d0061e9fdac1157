import LayoutCompose.Files.Path
import LayoutCompose.Files.Place

/-!
# File trees

Files and directories by place. A path is followed piece by piece, and each piece needs
a directory to start from: a slash after the name of a file leads nowhere.

A tree has no links, and it does not know where the working directory is: an absolute path,
a relative one and one that goes up from the working directory lead to different places,
also where they would be three spellings of one directory.
-/

namespace LayoutCompose

inductive Entry where
  /-- A file, with its content if that is text. -/
  | file (content : Option String)
  | directory
  deriving DecidableEq, Repr

structure FileTree where
  entries : List (Place × Entry) := []
  deriving DecidableEq, Repr

namespace FileTree

inductive Fault where
  | notFound
  | notDirectory
  | isDirectory
  | nameTooLong
  | nulCharacter
  | notText
  deriving DecidableEq, Repr

def Fault.message : Fault → String
  | notFound => "No such file or directory (os error 2)"
  | notDirectory => "Not a directory (os error 20)"
  | isDirectory => "Is a directory (os error 21)"
  | nameTooLong => "File name too long (os error 36)"
  | nulCharacter => "file name contained an unexpected NUL byte"
  | notText => "stream did not contain valid UTF-8"

/-! ## Entries -/

/-- Bases are directories that are always there. -/
def get? (t : FileTree) (p : Place) : Option Entry :=
  if p.names.isEmpty then some .directory else t.entries.lookup p

def set (t : FileTree) (p : Place) (e : Entry) : FileTree :=
  ⟨(p, e) :: t.entries.filter (·.1 != p)⟩

theorem lookup_filter_of_ne {p q : Place} (h : q ≠ p) (l : List (Place × Entry)) :
    (l.filter (·.1 != p)).lookup q = l.lookup q := by
  induction l with
  | nil => rfl
  | cons a l ih =>
    obtain ⟨r, e⟩ := a
    by_cases hr : r = p
    · subst hr
      have hq : (q == r) = false := by simpa using h
      simp [List.lookup_cons, hq, ih]
    · by_cases hq : q = r <;> simp [hr, hq, ih, List.lookup_cons]

theorem get?_set (t : FileTree) {p : Place} (e : Entry) (h : p.names ≠ []) :
    (t.set p e).get? p = some e := by
  simp [get?, set, h]

theorem get?_set_of_ne (t : FileTree) {p q : Place} (e : Entry) (h : q ≠ p) :
    (t.set p e).get? q = t.get? q := by
  have hq : (q == p) = false := by simpa using h
  simp [get?, set, List.lookup_cons, hq, lookup_filter_of_ne h]

/-! ## Following paths -/

def maxName : Nat := 255

def maxPath : Nat := 4095

def isLongName (name : String) : Bool := maxName < Text.byteLength name.toList

/-- What is wrong with a path whatever the files are. -/
def pathFault? (path : String) : Option Fault :=
  if path.toList.contains '\x00' then some .nulCharacter
  else if maxPath < Text.byteLength path.toList then some .nameTooLong
  else none

def start (path : String) : Place :=
  if Path.isAbsolute path then ⟨.root, []⟩ else .here

def follow (t : FileTree) : List String → Place → Except Fault Place
  | [], p => .ok p
  | piece :: rest, p =>
    if t.get? p != some .directory then .error .notDirectory
    else if Path.isIdle piece then follow t rest p
    else if piece == ".." then follow t rest p.up
    else if isLongName piece then .error .nameTooLong
    else if t.get? (p.child piece) == none then .error .notFound
    else follow t rest (p.child piece)

/-- The place of a path that leads to something. -/
def find (t : FileTree) (path : String) : Except Fault Place :=
  match pathFault? path with
  | some fault => .error fault
  | none => if path == "" then .error .notFound else t.follow (Path.pieces path) (start path)

def entryAt? (t : FileTree) (path : String) : Option Entry :=
  (t.find path).toOption.bind t.get?

def isPresent (t : FileTree) (path : String) : Bool := (t.entryAt? path).isSome

def isDirectory (t : FileTree) (path : String) : Bool := t.entryAt? path == some .directory

def isFile (t : FileTree) (path : String) : Bool :=
  match t.entryAt? path with
  | some (.file _) => true
  | _ => false

/-! ## Reading -/

def read (t : FileTree) (path : String) : Except Fault String :=
  match t.find path with
  | .error fault => .error fault
  | .ok p =>
    match t.get? p with
    | none => .error .notFound
    | some .directory => .error .isDirectory
    | some (.file none) => .error .notText
    | some (.file (some text)) => .ok text

def namesLe : List String → List String → Bool
  | [], _ => true
  | _ :: _, [] => false
  | a :: as, b :: bs => a < b || (a == b && namesLe as bs)

/-- The names of the files below a directory, by their place relative to it, in the
order of their names from the directory down. -/
def below (t : FileTree) (p : Place) : List (List String) :=
  (t.entries.filterMap fun (q, e) =>
    match e with
    | .file _ => p.namesTo? q
    | .directory => none).mergeSort namesLe

/-- The layouts at a path or below it, as paths that start with that path. -/
def layouts (t : FileTree) (path : String) : List String :=
  let found :=
    match t.find path with
    | .error _ => []
    | .ok p =>
      match t.get? p with
      | some .directory => (t.below p).map fun names => Path.join path ("/".intercalate names)
      | some (.file _) => [path]
      | none => []
  found.filter fun path => t.isFile path && Path.isLayout path

/-! ## Writing -/

/-- Makes the directories that are missing on a way. The tree keeps those that were
made before something else stood in the way. -/
def makeWay : FileTree → List String → Place → FileTree × Except Fault Unit
  | t, [], p => (t, if t.get? p = some .directory then .ok () else .error .notDirectory)
  | t, piece :: rest, p =>
    if t.get? p != some .directory then (t, .error .notDirectory)
    else if Path.isIdle piece then makeWay t rest p
    else if piece == ".." then makeWay t rest p.up
    else if isLongName piece then (t, .error .nameTooLong)
    else if t.get? (p.child piece) == none then
      makeWay (t.set (p.child piece) .directory) rest (p.child piece)
    else makeWay t rest (p.child piece)

def makeDirectories (t : FileTree) (path : String) : FileTree × Except Fault Unit :=
  match pathFault? path with
  | some fault => (t, .error fault)
  | none => t.makeWay (Path.pieces path) (start path)

/-- The place that a new or changed file at a path has. -/
def findTarget (t : FileTree) (path : String) : Except Fault Place :=
  match pathFault? path with
  | some fault => .error fault
  | none =>
    let pieces := Path.pieces path
    match pieces.getLast? with
    | none => .error .notFound
    | some name => do
      let p ← t.follow pieces.dropLast (start path)
      if path == "" then throw .notFound
      if t.get? p != some .directory then throw .notDirectory
      if Path.isIdle name || name == ".." then throw .isDirectory
      if isLongName name then throw .nameTooLong
      if t.get? (p.child name) = some .directory then throw .isDirectory
      return p.child name

def write (t : FileTree) (path text : String) : Except Fault FileTree := do
  let p ← t.findTarget path
  return t.set p (.file (some text))

/-- Takes a file away; a directory stays. No command does so: it is what happens to a tree
between two of them. -/
def remove (t : FileTree) (path : String) : Except Fault FileTree := do
  let p ← t.find path
  if t.get? p = some .directory then throw .isDirectory
  return ⟨t.entries.filter (·.1 != p)⟩

end FileTree

end LayoutCompose
