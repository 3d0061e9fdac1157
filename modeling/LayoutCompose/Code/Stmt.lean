import LayoutCompose.Code.Modifier
import LayoutCompose.Code.Name
import LayoutCompose.Layout.Error

/-!
# Statements of the generated function

An element becomes comments and one composable call. An included layout and a
fragment leave a comment only, and a merge is replaced by its children. Nesting is
bounded, so that a tree built by hand cannot grow without limit either.
-/

namespace LayoutCompose

inductive Stmt where
  /-- A line comment. -/
  | comment (text : String)
  | call (call : Call) (chain : List Modifier) (body : List Stmt)
  /-- One entry of a lazy container. -/
  | item (body : List Stmt)

namespace Stmt

def includeComment (e : Element) : String :=
  match e.get? "layout" with
  | some layout =>
    let name := (Text.after? "@layout/" layout).getD layout
    "TODO: <include layout=\"" ++ Comment.oneLine layout ++
      "\"/> - call the composable converted from that layout, e.g. " ++ Name.camelCase name ++ "()"
  | none => "TODO: <include> without a layout attribute"

def mergeComment : String :=
  "<merge>: these children belong to the layout that includes this one"

def fragmentComment (e : Element) : String :=
  let name := ((e.getBare? "name").map fun n => " " ++ Comment.oneLine n).getD ""
  "TODO: fragment" ++ name ++ " - port its UI to a composable or host it with AndroidView"

def remarks (ps : Properties) (call : Call) : List Stmt :=
  (ps.previewComments ++ call.remark.toList).map fun text => comment (Comment.oneLine text)

def ofCall (e : Element) (body : List Stmt) : List Stmt :=
  let ps := e.properties
  let call := Call.ofWidget (Widget.ofTag e.tag) ps
  remarks ps call ++ [.call call (Modifier.chain ps call) body]

def wrapsItems (e : Element) : Bool :=
  (Call.ofWidget (Widget.ofTag e.tag) e.properties).composable.wrapsItems

def wrap (items : Bool) (body : List Stmt) : List Stmt :=
  if items then [item body] else body

mutual
def ofElement (maxDepth depth : Nat) : Element → Except LayoutError (List Stmt)
  | ⟨tag, attributes, children⟩ =>
    let e : Element := ⟨tag, attributes, []⟩
    if maxDepth < depth then .error (.tooDeep maxDepth)
    else match Widget.ofTag tag with
      | .included => .ok [comment (includeComment e)]
      | .fragment => .ok [comment (fragmentComment e)]
      | .merged =>
        match ofChildren maxDepth (depth + 1) false children with
        | .error error => .error error
        | .ok body => .ok (comment mergeComment :: body)
      | _ =>
        match ofChildren maxDepth (depth + 1) (wrapsItems e) children with
        | .error error => .error error
        | .ok body => .ok (ofCall e body)
/-- The statements of all children, in items if asked for. -/
def ofChildren (maxDepth depth : Nat) (items : Bool) :
    List Element → Except LayoutError (List Stmt)
  | [] => .ok []
  | e :: rest =>
    match ofElement maxDepth depth e with
    | .error error => .error error
    | .ok first =>
      match ofChildren maxDepth depth items rest with
      | .error error => .error error
      | .ok others => .ok (wrap items first ++ others)
end

end Stmt

end LayoutCompose
