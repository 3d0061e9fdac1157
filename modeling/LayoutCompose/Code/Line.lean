import LayoutCompose.Code.Stmt

/-!
# Lines of code

Statements are laid out in lines, and each line is indented by four spaces for every
level. Text from a layout may bring line breaks of its own into a line.
-/

namespace LayoutCompose

structure Line where
  level : Nat
  text : String
  deriving DecidableEq, Repr

namespace Line

def indentation (level : Nat) : String :=
  String.ofList (List.replicate (4 * level) ' ')

/-- The line as written when the outermost level is `base`. -/
def render (base : Nat) (line : Line) : String :=
  indentation (base + line.level) ++ line.text ++ "\n"

/-- The lines of a text; a carriage return before a line feed belongs to the break. -/
def split (text : String) : List String :=
  let pieces := text.toList.splitOn '\n'
  let lines := pieces.dropLast.map dropReturn ++ lastLine (pieces.getLastD [])
  lines.map String.ofList
where
  dropReturn (line : List Char) : List Char :=
    if line.getLast? == some '\r' then line.dropLast else line
  lastLine (line : List Char) : List (List Char) :=
    if line.isEmpty then [] else [line]

/-! ## Calls -/

def argumentTexts (call : Call) : List String :=
  call.arguments.map fun (key, code) => key ++ " = " ++ code

/-- The lines of the modifier argument, which is the last one. -/
def modifierLines (level : Nat) (chain : List Modifier) : List Line :=
  if chain.isEmpty then []
  else if Modifier.isInline chain then
    [⟨level, "modifier = Modifier" ++ Modifier.inlineCode chain⟩]
  else ⟨level, "modifier = Modifier"⟩ :: chain.map fun m => ⟨level + 1, m.code⟩

/-- One line for each text, with a comma after each but the last; `more` tells that
another argument follows. -/
def argumentLines (level : Nat) (more : Bool) : List String → List Line
  | [] => []
  | text :: rest =>
    ⟨level, if rest.isEmpty && !more then text else text ++ ","⟩ :: argumentLines level more rest

def hasArguments (call : Call) (chain : List Modifier) : Bool :=
  !call.arguments.isEmpty || !chain.isEmpty

inductive Block where
  /-- The call has no block. -/
  | absent
  | empty
  | filled
  deriving DecidableEq, Repr

def Block.of (call : Call) (bodyEmpty : Bool) : Block :=
  if !bodyEmpty || call.content.isSome then .filled
  else if call.composable.needsBlock then .empty
  else .absent

def Block.afterName : Block → String
  | .absent => "()"
  | .empty => " \x7b\x7d"
  | .filled => " \x7b"

def Block.afterArguments : Block → String
  | .absent => ")"
  | .empty => ") \x7b\x7d"
  | .filled => ") \x7b"

/-- The lines of a call up to its block. -/
def headLines (level : Nat) (call : Call) (chain : List Modifier) (block : Block) : List Line :=
  if hasArguments call chain then
    ⟨level, call.composable.name ++ "("⟩ ::
      argumentLines (level + 1) (!chain.isEmpty) (argumentTexts call) ++
      modifierLines (level + 1) chain ++ [⟨level, block.afterArguments⟩]
  else [⟨level, call.composable.name ++ block.afterName⟩]

def contentLines (level : Nat) (call : Call) : List Line :=
  match call.content with
  | some content => (split content).map fun text => ⟨level, text⟩
  | none => []

def ofCall (level : Nat) (call : Call) (chain : List Modifier) (body : List Line) : List Line :=
  let block := Block.of call body.isEmpty
  headLines level call chain block ++
    if block = .filled then contentLines (level + 1) call ++ body ++ [⟨level, "\x7d"⟩] else []

mutual
def ofStmt (level : Nat) : Stmt → List Line
  | .comment text => [⟨level, "// " ++ text⟩]
  | .call call chain body => ofCall level call chain (ofBody (level + 1) body)
  | .item body => ⟨level, "item \x7b"⟩ :: ofBody (level + 1) body ++ [⟨level, "\x7d"⟩]
def ofBody (level : Nat) : List Stmt → List Line
  | [] => []
  | s :: rest => ofStmt level s ++ ofBody level rest
end

end Line

def Element.code (e : Element) (maxDepth base : Nat) : Except LayoutError String :=
  match Stmt.ofElement maxDepth 1 e with
  | .error error => .error error
  | .ok body => .ok (String.join ((Line.ofBody 0 body).map (Line.render base)))

end LayoutCompose
