/-!
# Comments in generated code

Text from a layout goes into comments unchanged, except that nothing in it may end
the comment: a block comment breaks up every `*/`, and a line comment shows a line
break as `\n`.
-/

namespace LayoutCompose.Comment

def breakEnds : List Char → List Char
  | [] => []
  | '*' :: '/' :: rest => '*' :: ' ' :: '/' :: breakEnds rest
  | c :: rest => c :: breakEnds rest

theorem not_mem_breakEnds (hc : c ≠ ' ') (h : c ∉ l) : c ∉ breakEnds l := by
  fun_induction breakEnds l <;> grind

/-- Writes `\n` for each line break; a carriage return with a line feed is one. -/
def foldBreaks : List Char → List Char
  | [] => []
  | '\r' :: '\n' :: rest => '\\' :: 'n' :: foldBreaks rest
  | c :: rest =>
    if c == '\n' || c == '\r' then '\\' :: 'n' :: foldBreaks rest else c :: foldBreaks rest

theorem not_mem_foldBreaks (l : List Char) : '\n' ∉ foldBreaks l ∧ '\r' ∉ foldBreaks l := by
  fun_induction foldBreaks l <;> grind

def guarded (text : String) : String :=
  String.ofList (breakEnds text.toList)

def oneLine (text : String) : String :=
  String.ofList (foldBreaks text.toList)

def todo (text : String) : String :=
  "/* TODO: " ++ guarded text ++ " */"

end LayoutCompose.Comment
