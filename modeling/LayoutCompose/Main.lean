import LayoutCompose.Command.Request

/-!
# The command line

Loads the files that a request may read into a tree, runs the request on it, and
carries the changes of the tree out.
-/

namespace LayoutCompose.Main

def pathOf (p : Place) : String :=
  match p.base with
  | .root => "/" ++ "/".intercalate p.names
  | .working levels => "/".intercalate (List.replicate levels ".." ++ p.names)

def place (files : FileTree) (path : String) (e : Entry) : FileTree :=
  let files := (Path.parent? path).elim files fun above => (files.makeDirectories above).1
  match e with
  | .directory => (files.makeDirectories path).1
  | .file _ => (files.findTarget path).toOption.elim files fun p => files.set p e

/-- Loads what is at a path, with everything below a directory. -/
partial def load (files : FileTree) (path : String) : IO FileTree := do
  try
    let entries ← (IO.FS.DirEntry.mk path "").root.readDir
    let mut files := place files path .directory
    for e in entries do
      files ← load files (Path.join path e.fileName)
    return files
  catch _ =>
    try
      let bytes ← IO.FS.readBinFile path
      return place files path (.file (String.fromUTF8? bytes))
    catch _ => return files

def store (before after : FileTree) : IO Unit := do
  let changed := after.entries.reverse.filter fun (p, e) => before.get? p != some e
  for (p, e) in changed do
    match e with
    | .directory => IO.FS.createDirAll (pathOf p)
    | .file (some text) => IO.FS.writeFile (pathOf p) text
    | .file none => pure ()

def seconds (milliseconds : Nat) : String :=
  let hundredths := (milliseconds + 5) / 10
  let fraction := hundredths % 100
  toString (hundredths / 100) ++ "." ++ (if fraction < 10 then "0" else "") ++ toString fraction

def printed (elapsed : String) : Output → String
  | .text s => s
  | .elapsed => elapsed

def perform (request : Command.Request) : IO UInt32 := do
  let start ← IO.monoMsNow
  let files ← request.sources.foldlM load {}
  let (result, session) := request.run.run.run { files }
  store files session.files
  for line in session.messages do
    IO.eprintln line
  let elapsed := seconds ((← IO.monoMsNow) - start)
  for output in session.output do
    IO.print (printed elapsed output)
  match result with
  | .ok () => return 0
  | .error fault =>
    IO.eprintln ("error: " ++ fault.message)
    return 1

end LayoutCompose.Main

def main (args : List String) : IO UInt32 :=
  match LayoutCompose.Command.Request.ofArguments? args with
  | some request => LayoutCompose.Main.perform request
  | none => do
    IO.eprint LayoutCompose.Command.Request.usage
    return 2
