import LayoutCompose.Markup.Ending
import LayoutCompose.Markup.Fault
import LayoutCompose.Text.Search

/-!
# Reading markup event by event

A reader stands at a byte offset of a text and knows which elements are open. A
step skips spaces and takes the next event: a stretch of text, or one piece of
markup. Only tags matter to a layout; the other events are read over. A closing
tag must name the innermost open element.
-/

namespace LayoutCompose.Markup

inductive Event where
  /-- Text, a comment, character data, a document type or an instruction. -/
  | ignored
  /-- A start tag with its content. -/
  | opening (content : List Char)
  /-- A start tag that closes itself. -/
  | childless (content : List Char)
  | closing (name : String)
  deriving DecidableEq, Repr

structure Reader where
  /-- Bytes read so far; a byte order mark does not count. -/
  offset : Nat
  rest : List Char
  /-- The names of the open elements, innermost first. -/
  unclosed : List String

namespace Reader

def byteOrderMark : Char := '\uFEFF'

def ofSource (source : String) : Reader :=
  match source.toList with
  | c :: rest => if c == byteOrderMark then ⟨0, rest, []⟩ else ⟨0, c :: rest, []⟩
  | [] => ⟨0, [], []⟩

/-- A fault and the byte offset that it is reported at. -/
abbrev Located := Fault × Nat

def finish (start : Nat) (content rest : List Char) (unclosed : List String) (event : Event) :
    Event × Reader :=
  (event, ⟨start + Text.byteLength content + 2, rest, unclosed⟩)

/-- The name in a closing tag: spaces after it do not count, unless it has nothing else. -/
def closingName (content : List Char) : List Char :=
  let name := content.drop 1
  if name.all isSpace then name else (name.reverse.dropWhile isSpace).reverse

def beginsWith (lead : String) (content : List Char) : Bool :=
  lead.toList.isPrefixOf content

/-- Markup that starts with `<!`; `cs` starts at the `!`. -/
def readDeclaration (start : Nat) (unclosed : List String) (cs : List Char) :
    Except Located (Event × Reader) :=
  match cs.drop 1 with
  | '-' :: _ =>
    match Ending.comment.split cs with
    | none => .error (.unclosedComment, start)
    | some (content, rest) =>
      if beginsWith "!--" content then .ok (finish start content rest unclosed .ignored)
      else .error (.unclosedComment, start)
  | '[' :: _ =>
    match Ending.characterData.split cs with
    | none => .error (.unclosedCharacterData, start)
    | some (content, rest) =>
      if beginsWith "![CDATA[" content then .ok (finish start content rest unclosed .ignored)
      else .error (.unclosedCharacterData, start)
  | c :: _ =>
    if c == 'D' || c == 'd' then
      match Ending.doctype.split cs with
      | none => .error (.unclosedDoctype, start)
      | some (content, rest) =>
        if !beginsWith "!DOCTYPE" (content.map Char.toUpper) then
          .error (.unclosedDoctype, start)
        else if (content.drop 8).all isSpace then
          .error (.doctypeWithoutName, start + Text.byteLength content + 1)
        else .ok (finish start content rest unclosed .ignored)
    else .error (.unknownDeclaration, start)
  | [] => .error (.unknownDeclaration, start)

def readInstruction (start : Nat) (unclosed : List String) (cs : List Char) :
    Except Located (Event × Reader) :=
  match Ending.instruction.split cs with
  | none => .error (.unclosedInstruction, start)
  | some (content, rest) =>
    if content.length = 1 then .error (.unclosedInstruction, start)
    else .ok (finish start content rest unclosed .ignored)

def readClosing (start : Nat) (unclosed : List String) (cs : List Char) :
    Except Located (Event × Reader) :=
  match Ending.tag.split cs with
  | none => .error (.unclosedTag, start)
  | some (content, rest) =>
    let name := String.ofList (closingName content)
    match unclosed with
    | [] => .error (.unmatchedClose name, start)
    | innermost :: outer =>
      if innermost = name then .ok (finish start content rest outer (.closing name))
      else .error (.mismatchedClose innermost name, start)

/-- A start tag. A final `/` makes it childless. -/
def readOpening (start : Nat) (unclosed : List String) (cs : List Char) :
    Except Located (Event × Reader) :=
  match Ending.tag.split cs with
  | none => .error (.unclosedTag, start)
  | some (content, rest) =>
    if content.getLast? = some '/' then
      .ok (finish start content rest unclosed (.childless content.dropLast))
    else
      let name := String.ofList (content.takeWhile (!isSpace ·))
      .ok (finish start content rest (name :: unclosed) (.opening content))

/-- The markup whose `<` is at byte `start`; `cs` follows that character. -/
def readMarkup (start : Nat) (unclosed : List String) (cs : List Char) :
    Except Located (Event × Reader) :=
  match cs with
  | [] => .error (.unclosedTag, start)
  | '!' :: _ => readDeclaration start unclosed cs
  | '?' :: _ => readInstruction start unclosed cs
  | '/' :: _ => readClosing start unclosed cs
  | _ => readOpening start unclosed cs

def next (r : Reader) : Except Located (Option (Event × Reader)) :=
  let start := r.offset + Text.byteLength (r.rest.takeWhile isSpace)
  match r.rest.dropWhile isSpace with
  | [] => .ok none
  | c :: cs =>
    if c == '<' then
      match readMarkup start r.unclosed cs with
      | .error fault => .error fault
      | .ok found => .ok (some found)
    else
      let text := (c :: cs).takeWhile (· != '<')
      let rest := (c :: cs).dropWhile (· != '<')
      .ok (some (.ignored, ⟨start + Text.byteLength text, rest, r.unclosed⟩))

theorem readDeclaration_rest_length {start : Nat} {unclosed : List String} {cs : List Char}
    {e : Event} {r : Reader} (h : readDeclaration start unclosed cs = .ok (e, r)) :
    r.rest.length < cs.length := by
  grind [readDeclaration, finish, → Ending.length_lt_of_split]

theorem readInstruction_rest_length {start : Nat} {unclosed : List String} {cs : List Char}
    {e : Event} {r : Reader} (h : readInstruction start unclosed cs = .ok (e, r)) :
    r.rest.length < cs.length := by
  grind [readInstruction, finish, → Ending.length_lt_of_split]

theorem readClosing_rest_length {start : Nat} {unclosed : List String} {cs : List Char}
    {e : Event} {r : Reader} (h : readClosing start unclosed cs = .ok (e, r)) :
    r.rest.length < cs.length := by
  grind [readClosing, finish, → Ending.length_lt_of_split]

theorem readOpening_rest_length {start : Nat} {unclosed : List String} {cs : List Char}
    {e : Event} {r : Reader} (h : readOpening start unclosed cs = .ok (e, r)) :
    r.rest.length < cs.length := by
  grind [readOpening, finish, → Ending.length_lt_of_split]

theorem readMarkup_rest_length {start : Nat} {unclosed : List String} {cs : List Char}
    {e : Event} {r : Reader} (h : readMarkup start unclosed cs = .ok (e, r)) :
    r.rest.length < cs.length := by
  unfold readMarkup at h
  split at h
  · cases h
  · exact readDeclaration_rest_length h
  · exact readInstruction_rest_length h
  · exact readClosing_rest_length h
  · exact readOpening_rest_length h

/-- Every event takes at least one character off the text. -/
theorem next_rest_length {r r' : Reader} {e : Event} (h : r.next = .ok (some (e, r'))) :
    r'.rest.length < r.rest.length := by
  unfold next at h
  have hs := (List.dropWhile_suffix isSpace (l := r.rest)).length_le
  simp only at h
  split at h
  · simp at h
  · rename_i c cs hd
    rw [hd] at hs
    simp only [List.length_cons] at hs
    split at h
    · split at h
      · cases h
      · rename_i hm
        simp only [Except.ok.injEq, Option.some.injEq] at h
        subst h
        have := readMarkup_rest_length hm
        omega
    · rename_i hc
      simp only [Except.ok.injEq, Option.some.injEq, Prod.mk.injEq] at h
      have ht := (List.dropWhile_suffix (· != '<') (l := cs)).length_le
      have hn : (c != '<') = true := by simpa using hc
      rw [← h.2]
      simp only [List.dropWhile_cons, hn, if_true]
      omega

end Reader

end LayoutCompose.Markup
