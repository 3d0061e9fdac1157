/-!
# TOML values

A document is a table. While it is read, a table also remembers how it came to be,
because that decides who may add to it: a table that a header names is complete with
its section, one that dotted keys made takes more dotted keys, and one that only
stands on the way of a header takes either, but not a dotted key of its own.
-/

namespace LayoutCompose.Toml

inductive Value where
  | string (text : String)
  /-- A whole number; none where its digits make no number that can be used. -/
  | integer (n : Option Int)
  /-- A floating-point number, and whether it is within the range of double precision. -/
  | float (inRange : Bool)
  | boolean (b : Bool)
  | dateTime (text : String)
  | array (items : List Value)
  | table (entries : List (String × Value))

mutual
/-- Whether every number in a value can be used. A document may hold one that cannot,
which matters to those who look at it. -/
def Value.isReadable : Value → Bool
  | .integer n => n.isSome
  | .float inRange => inRange
  | .array items => itemsReadable items
  | .table entries => entriesReadable entries
  | .string _ | .boolean _ | .dateTime _ => true
def itemsReadable : List Value → Bool
  | [] => true
  | v :: rest => v.isReadable && itemsReadable rest
def entriesReadable : List (String × Value) → Bool
  | [] => true
  | (_, v) :: rest => v.isReadable && entriesReadable rest
end

/-- How a table came to be. -/
inductive Origin where
  /-- By a header of its own. -/
  | declared
  /-- On the way of a longer header. -/
  | implied
  /-- By dotted keys. -/
  | dotted
  deriving DecidableEq, Repr

/-- What stands under a key while a document is read. -/
inductive Node where
  /-- A value written after `=`, which takes no additions. -/
  | value (v : Value)
  | table (origin : Origin) (entries : List (String × Node))
  /-- An array of tables, by the entries of each. -/
  | tables (items : List (List (String × Node)))

abbrev Entries := List (String × Node)

namespace Entries

/-- Replaces what stands under a key that is there, or adds the key. -/
def set (key : String) (node : Node) : Entries → Entries
  | [] => [(key, node)]
  | (k, n) :: rest => if k = key then (k, node) :: rest else (k, n) :: set key node rest

/-- Adds a value under a dotted key, given as a path and a last key. -/
def insert (v : Value) (key : String) : List String → Entries → Option Entries
  | [], entries => if (entries.lookup key).isSome then none else some (entries ++ [(key, .value v)])
  | k :: path, entries =>
    match entries.lookup k with
    | none => do
      let inner ← insert v key path []
      return entries ++ [(k, .table .dotted inner)]
    | some (.table .dotted inner) => do
      let inner ← insert v key path inner
      return set k (.table .dotted inner) entries
    | some (.table .implied inner) =>
      if path.isEmpty then none
      else do
        let inner ← insert v key path inner
        return set k (.table .implied inner) entries
    | some (.tables items) =>
      if path.isEmpty then none
      else do
        let last ← items.getLast?
        let last ← insert v key path last
        return set k (.tables (items.dropLast ++ [last])) entries
    | some (.table .declared _) | some (.value _) => none

/-- Changes the entries at the end of the path of a header, making tables on the way. -/
def update (change : Entries → Option Entries) : List String → Entries → Option Entries
  | [], entries => change entries
  | k :: path, entries =>
    match entries.lookup k with
    | none => do
      let inner ← update change path []
      return entries ++ [(k, .table .implied inner)]
    | some (.table origin inner) => do
      let inner ← update change path inner
      return set k (.table origin inner) entries
    | some (.tables items) => do
      let last ← items.getLast?
      let last ← update change path last
      return set k (.tables (items.dropLast ++ [last])) entries
    | some (.value _) => none

end Entries

mutual
def Node.toValue : Node → Value
  | .value v => v
  | .table _ entries => .table (entriesToValue entries)
  | .tables items => .array (itemsToValue items)
def entriesToValue : List (String × Node) → List (String × Value)
  | [] => []
  | (key, node) :: rest => (key, node.toValue) :: entriesToValue rest
def itemsToValue : List (List (String × Node)) → List Value
  | [] => []
  | entries :: rest => .table (entriesToValue entries) :: itemsToValue rest
end

structure Binding where
  /-- The keys before the last one. -/
  path : List String
  key : String
  value : Value

def bindAll (bindings : List Binding) (entries : Entries) : Option Entries :=
  bindings.foldlM (fun entries b => entries.insert b.value b.key b.path) entries

inductive Header where
  /-- A header in single brackets, which opens a table. -/
  | single (path : List String) (key : String)
  /-- A header in double brackets, which adds a table to an array. -/
  | double (path : List String) (key : String)

structure Section where
  header : Header
  bindings : List Binding

def openTable (key : String) (bindings : List Binding) (entries : Entries) : Option Entries :=
  match entries.lookup key with
  | none => do
    let inner ← bindAll bindings []
    return entries ++ [(key, .table .declared inner)]
  | some (.table .implied inner) => do
    let inner ← bindAll bindings inner
    return entries.set key (.table .declared inner)
  | some _ => none

def addTable (key : String) (bindings : List Binding) (entries : Entries) : Option Entries :=
  match entries.lookup key with
  | none => do
    let inner ← bindAll bindings []
    return entries ++ [(key, .tables [inner])]
  | some (.tables items) => do
    let inner ← bindAll bindings []
    return entries.set key (.tables (items ++ [inner]))
  | some _ => none

def addSection (entries : Entries) (s : Section) : Option Entries :=
  match s.header with
  | .single path key => entries.update (openTable key s.bindings) path
  | .double path key => entries.update (addTable key s.bindings) path

def assemble (first : List Binding) (sections : List Section) : Option (List (String × Value)) := do
  let entries ← bindAll first []
  let entries ← sections.foldlM addSection entries
  return entriesToValue entries

end LayoutCompose.Toml
