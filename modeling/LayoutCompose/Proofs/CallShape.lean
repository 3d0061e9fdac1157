import LayoutCompose.Proofs.LineTexts

/-!
# The calls of a layout, read back from its code

The call shape of a layout is the forest of the composables that its elements become. A line of
code by itself tells whether it starts a call, ends one or does neither, so a reader with a stack
of open calls finds the shape in the text. Two layouts with the same code have the same shape: no
element is lost, repeated or moved.
-/

namespace LayoutCompose

open Text (IsLine IsWord isLine_ofList isWord_ofList)

-- ---------------------------------------------------------------------------
-- Shapes
-- ---------------------------------------------------------------------------

inductive CallShape where
  | node (composable : Composable) (children : List CallShape)

mutual
/-- The calls of an element: an included layout and a fragment have none, and a merge stands for
its children. -/
def Element.callShapes : Element → List CallShape
  | ⟨tag, attributes, children⟩ =>
    match Widget.ofTag tag with
    | .included | .fragment => []
    | .merged => callShapesAll children
    | _ => [.node (Element.call ⟨tag, attributes, []⟩).composable (callShapesAll children)]
def Element.callShapesAll : List Element → List CallShape
  | [] => []
  | e :: rest => e.callShapes ++ callShapesAll rest
end

-- ---------------------------------------------------------------------------
-- Marks
-- ---------------------------------------------------------------------------

namespace Composable

def all : List Composable := [
  column, row, box, lazyVerticalGrid, text, button, image, textField, checkbox, radioButton, toggle,
  linearProgress, circularProgress, slider, dropdownMenuBox, androidView]

def ofName? (name : String) : Option Composable := all.find? (·.name == name)

theorem mem_all (c : Composable) : c ∈ all := by
  cases c <;> decide

theorem name_injective {c d : Composable} (h : c.name = d.name) : c = d := by
  cases c <;> cases d <;> simp [name] at h ⊢

theorem ofName?_name (c : Composable) : ofName? c.name = some c := by
  cases hfind : ofName? c.name with
  | none => exact absurd (List.find?_eq_none.mp hfind c (mem_all c)) (by simp)
  | some d =>
    have hname : d.name = c.name := by simpa using List.find?_some hfind
    rw [name_injective hname]

end Composable

inductive Tail where
  | opens
  | whole
  | closes
  | other
  deriving DecidableEq

def Tail.signs : List String :=
  ["(", " \x7b", "()", " \x7b\x7d", ")", "\x7d", ") \x7b\x7d"]

def Tail.ofText (rest : String) : Tail :=
  if rest ∈ ["(", " \x7b"] then .opens
  else if rest ∈ ["()", " \x7b\x7d"] then .whole
  else if rest ∈ [")", "\x7d", ") \x7b\x7d"] then .closes
  else .other

theorem Tail.ofText_of_ne (h : ∀ sign ∈ signs, rest.toList ≠ sign.toList) :
    ofText rest = .other := by
  have hne : ∀ sign ∈ signs, rest ≠ sign := fun sign hsign heq => h sign hsign (heq ▸ rfl)
  simp_all [ofText, signs]

/-- What a line does to the calls that are open. -/
inductive Mark where
  | starts (c : Composable)
  | whole (c : Composable)
  | item
  | ends
  | none

namespace Mark

def ofParts (word : String) (tail : Tail) : Mark :=
  match Composable.ofName? word, tail with
  | some c, .opens => starts c
  | some c, .whole => whole c
  | .none, .opens => if word = "item" then item else none
  | .none, .closes => if word = "" then ends else none
  | _, _ => none

def ofLine (line : List Char) : Mark :=
  let text := line.dropWhile (· == ' ')
  ofParts (String.ofList (text.takeWhile Char.isAlpha))
    (.ofText (String.ofList (text.dropWhile Char.isAlpha)))

end Mark

-- ---------------------------------------------------------------------------
-- Reading
-- ---------------------------------------------------------------------------

namespace CallShape

structure Frame where
  composable : Option Composable
  found : List CallShape

/-- The calls that a frame stands for; an item stands for what is in it. -/
def Frame.shapes (frame : Frame) : List CallShape :=
  match frame.composable with
  | some c => [node c frame.found]
  | none => frame.found

def Frame.add (frame : Frame) (shapes : List CallShape) : Frame :=
  { frame with found := frame.found ++ shapes }

def step (stack : List Frame) : Mark → Option (List Frame)
  | .starts c => some (⟨some c, []⟩ :: stack)
  | .item => some (⟨none, []⟩ :: stack)
  | .none => some stack
  | .whole c =>
    match stack with
    | frame :: rest => some (frame.add [node c []] :: rest)
    | [] => none
  | .ends =>
    match stack with
    | inner :: outer :: rest => some (outer.add inner.shapes :: rest)
    | _ => none

def run (stack : List Frame) : List Mark → Option (List Frame)
  | [] => some stack
  | mark :: marks => (step stack mark).bind fun stack => run stack marks

def read (text : String) : Option (List CallShape) :=
  match run [⟨none, []⟩] ((text.toList.splitOn '\n').map Mark.ofLine) with
  | some [frame] => some frame.found
  | _ => none

theorem run_append (stack : List Frame) (a b : List Mark) :
    run stack (a ++ b) = (run stack a).bind fun stack => run stack b := by
  induction a generalizing stack with
  | nil => rfl
  | cons mark a ih =>
    rw [List.cons_append, run, run, Option.bind_assoc]
    simp only [ih]

/-- The texts add calls to the innermost frame, whatever is open around it. -/
def Runs (texts : List String) (shapes : List CallShape) : Prop :=
  ∀ frame rest, run (frame :: rest) (texts.map fun text => Mark.ofLine text.toList) =
    some (frame.add shapes :: rest)

theorem runs_nil : Runs [] [] := by
  intro frame rest
  simp [run, Frame.add]

theorem Runs.append (ha : Runs a x) (hb : Runs b y) : Runs (a ++ b) (x ++ y) := by
  intro frame rest
  rw [List.map_append, run_append, ha, Option.bind_some, hb]
  simp [Frame.add]

theorem runs_none (h : Mark.ofLine text.toList = .none) : Runs [text] [] := by
  intro frame rest
  simp [run, step, h, Frame.add]

theorem runs_nones {texts : List String} (h : ∀ text ∈ texts, Mark.ofLine text.toList = .none) :
    Runs texts [] := by
  induction texts with
  | nil => exact runs_nil
  | cons text texts ih =>
    obtain ⟨htext, htexts⟩ := List.forall_mem_cons.mp h
    exact (runs_none htext).append (ih htexts)

theorem runs_whole (h : Mark.ofLine text.toList = .whole c) : Runs [text] [node c []] := by
  intro frame rest
  simp [run, step, h]

/-- What stands between the first and the last line of a frame is in it. -/
theorem Runs.enclose {composable : Option Composable}
    (hfirst : ∀ stack, step stack (Mark.ofLine first.toList) = some (⟨composable, []⟩ :: stack))
    (h : Runs texts shapes) (hlast : Mark.ofLine last.toList = .ends) :
    Runs (first :: texts ++ [last]) (Frame.shapes ⟨composable, shapes⟩) := by
  intro frame rest
  rw [List.cons_append, List.map_cons, run, hfirst, Option.bind_some, List.map_append,
    run_append, h, Option.bind_some, List.map_singleton, hlast]
  simp [run, step, Frame.add]

theorem Runs.call (hfirst : Mark.ofLine first.toList = .starts c) (h : Runs texts shapes)
    (hlast : Mark.ofLine last.toList = .ends) :
    Runs (first :: texts ++ [last]) [node c shapes] :=
  Runs.enclose (fun _ => by rw [hfirst]; rfl) h hlast

theorem Runs.item (hfirst : Mark.ofLine first.toList = .item) (h : Runs texts shapes)
    (hlast : Mark.ofLine last.toList = .ends) : Runs (first :: texts ++ [last]) shapes :=
  Runs.enclose (fun _ => by rw [hfirst]; rfl) h hlast

theorem Runs.eq_nil (h : Runs [] shapes) : shapes = [] := by
  have hrun := h ⟨none, []⟩ []
  simpa [run, Frame.add] using hrun.symm

end CallShape

-- ---------------------------------------------------------------------------
-- Marks of lines
-- ---------------------------------------------------------------------------

def Text.Starts (c : Char) (text : String) : Prop := text.toList.head? = some c

theorem Text.starts_ofList (c : Char) (l : List Char) : Starts c (String.ofList (c :: l)) := by
  rw [Starts, String.toList_ofList, List.head?_cons]

theorem Text.Starts.append (h : Starts c text) (rest : String) : Starts c (text ++ rest) := by
  rw [Starts, String.toList_append, List.head?_append, h, Option.some_or]

namespace Mark

theorem ofLine_indentation (n : Nat) (text : String) :
    ofLine (Line.indentation n ++ text).toList = ofLine text.toList := by
  have hspaces : ∀ c ∈ List.replicate (4 * n) ' ', (c == ' ') = true := by simp
  rw [String.toList_append, Line.indentation, String.toList_ofList, ofLine, ofLine,
    List.dropWhile_append_of_pos hspaces]

theorem ofLine_append (word rest : String) (hword : ∀ c ∈ word.toList, c.isAlpha = true)
    (hstart : (word ++ rest).toList.head? ≠ some ' ')
    (hrest : ∀ c ∈ rest.toList.head?, c.isAlpha = false) :
    ofLine (word ++ rest).toList = ofParts word (.ofText rest) := by
  have hstrip : (word ++ rest).toList.dropWhile (· == ' ') = (word ++ rest).toList := by
    cases hl : (word ++ rest).toList with
    | nil => rfl
    | cons c l =>
      have hc : c ≠ ' ' := by simpa [hl] using hstart
      rw [List.dropWhile_cons_of_neg (by simpa using hc)]
  have hsplit : rest.toList.takeWhile Char.isAlpha = [] ∧
      rest.toList.dropWhile Char.isAlpha = rest.toList := by
    cases hl : rest.toList with
    | nil => exact ⟨rfl, rfl⟩
    | cons c l =>
      have hc : ¬ c.isAlpha = true := by simpa [hl] using hrest
      exact ⟨List.takeWhile_cons_of_neg hc, List.dropWhile_cons_of_neg hc⟩
  rw [ofLine, hstrip, String.toList_append, List.takeWhile_append_of_pos hword,
    List.dropWhile_append_of_pos hword, hsplit.1, hsplit.2]
  simp

theorem ofLine_word (hword : IsWord word) (hrest : ∀ c ∈ rest.toList.head?, c.isAlpha = false) :
    ofLine (word ++ rest).toList = ofParts word (.ofText rest) := by
  refine ofLine_append word rest hword.2 ?_ hrest
  cases hl : word.toList with
  | nil => exact absurd hl hword.1
  | cons c l =>
    have hc := hword.2 c (by simp [hl])
    rw [String.toList_append, hl]
    rintro ⟨⟩
    simp at hc

theorem ofLine_sign (h : ∀ c ∈ text.toList.head?, c.isAlpha = false ∧ c ≠ ' ') :
    ofLine text.toList = ofParts "" (.ofText text) := by
  have hstart : text.toList.head? ≠ some ' ' := fun hspace => (h ' ' hspace).2 rfl
  simpa using ofLine_append "" text (by simp) (by simpa using hstart) fun c hc => (h c hc).1

theorem ofParts_other (word : String) : ofParts word .other = none := by
  unfold ofParts
  split <;> simp_all

def Idle (text : String) : Prop := ofLine text.toList = none

theorem idle_of_word (hword : IsWord word) (hrest : ∀ c ∈ rest.toList.head?, c.isAlpha = false)
    (h : ∀ sign ∈ Tail.signs, rest.toList ≠ sign.toList) : Idle (word ++ rest) := by
  rw [Idle, ofLine_word hword hrest, Tail.ofText_of_ne h, ofParts_other]

theorem idle_argument (hkey : IsWord key) (code : String) : Idle (key ++ " = " ++ code) := by
  rw [String.append_assoc]
  exact idle_of_word hkey (by simp) (by simp [Tail.signs])

theorem idle_sign (h : Text.Starts '.' text ∨ Text.Starts '/' text) : Idle text := by
  unfold Text.Starts at h
  have hne : ∀ sign ∈ Tail.signs, text.toList ≠ sign.toList := by
    intro sign hsign heq
    rw [heq] at h
    simp only [Tail.signs, List.mem_cons, List.not_mem_nil, or_false] at hsign
    rcases hsign with rfl | rfl | rfl | rfl | rfl | rfl | rfl <;> simp at h
  rw [Idle, ofLine_sign ?_, Tail.ofText_of_ne hne, ofParts_other]
  intro c hc
  rcases h with h | h <;> cases h.symm.trans hc <;> decide

theorem idle_label {code : String} (h : code ≠ "") : Idle ("Text(" ++ code ++ ")") := by
  have hword : IsWord "Text" := isWord_ofList (by decide)
  have htext : "Text(" ++ code ++ ")" = "Text" ++ ("(" ++ code ++ ")") := by
    rw [← String.toList_inj]
    simp
  rw [htext]
  exact idle_of_word hword (by simp) (by simp [Tail.signs, h])

theorem isWord_composable (c : Composable) : IsWord c.name := by
  cases c <;> exact isWord_ofList (by decide)

theorem ofLine_composable (c : Composable) {rest : String}
    (hrest : ∀ a ∈ rest.toList.head?, a.isAlpha = false) :
    ofLine (c.name ++ rest).toList = match Tail.ofText rest with
      | .opens => starts c
      | .whole => whole c
      | _ => none := by
  rw [ofLine_word (isWord_composable c) hrest]
  unfold ofParts
  rw [c.ofName?_name]
  cases Tail.ofText rest <;> rfl

end Mark

open Text (Starts starts_ofList)

theorem Modifier.starts_code (m : Modifier) : Starts '.' m.code ∨ Starts '/' m.code := by
  cases m with
  | fillMaxSize | fillMaxWidth | fillMaxHeight | zeroSize | focusable =>
    exact .inl (starts_ofList _ _)
  | width d | height d | padding d => exact .inl (((starts_ofList _ _).append _).append _)
  | edgePadding edges | widthIn edges | heightIn edges =>
    exact .inl (((starts_ofList _ _).append _).append _)
  | scroll axis => cases axis <;> exact .inl (starts_ofList _ _)
  | background color => exact .inl (((starts_ofList _ _).append _).append _)
  | alpha code => exact .inl (((starts_ofList _ _).append _).append _)
  | clickable code => exact .inl ((starts_ofList _ _).append _)
  | rotate x | scale x => exact .inl (((starts_ofList _ _).append _).append _)
  | scaleAxes x y =>
    exact .inl (((((starts_ofList _ _).append _).append _).append _).append _)
  | task text => exact .inr (((starts_ofList _ _).append _).append _)

theorem Text.ofList_append_ne (c : Char) (l : List Char) (rest : String) :
    String.ofList (c :: l) ++ rest ≠ "" := by
  simp

theorem Text.append_ofList_ne (lead : String) (c : Char) (l : List Char) :
    lead ++ String.ofList (c :: l) ≠ "" := by
  simp

theorem Expr.code_ne (expr : Expr) : expr.code ≠ "" := by
  cases expr with
  | resource family name => exact Text.append_ofList_ne _ _ _
  | argb color => exact Text.append_ofList_ne _ _ _
  | namedColor name => exact Text.ofList_append_ne _ _ _
  | themeColor role => exact Text.ofList_append_ne _ _ _
  | dp n => exact Text.append_ofList_ne _ _ _

theorem Property.textCode_ne (p : Property) : p.textCode ≠ "" := by
  unfold Property.textCode
  split
  case h_1 expr _ => exact expr.code_ne
  case h_2 => simp
  all_goals simp [Literal.quote]

-- ---------------------------------------------------------------------------
-- Lines of calls
-- ---------------------------------------------------------------------------

namespace Line

open CallShape

variable {e : Element} {level : Nat} {chain : List Modifier}

def texts (lines : List Line) : List String := lines.map (·.text)

theorem texts_append (a b : List Line) : texts (a ++ b) = texts a ++ texts b := List.map_append

theorem idle_argumentLines (hcall : ∀ a ∈ call.arguments, IsWord a.1) :
    ∀ line ∈ argumentLines level more (argumentTexts call), Mark.Idle line.text := by
  refine forall_argumentLines ?_
  rw [argumentTexts, List.forall_mem_map]
  intro a ha
  refine ⟨Mark.idle_argument (hcall a ha) a.2, ?_⟩
  rw [String.append_assoc]
  exact Mark.idle_argument (hcall a ha) (a.2 ++ ",")

theorem idle_modifierLines (level : Nat) (chain : List Modifier) :
    ∀ line ∈ modifierLines level chain, Mark.Idle line.text := by
  have hargument : ∀ rest, Mark.Idle ("modifier = Modifier" ++ rest) := by
    intro rest
    have hkey : IsWord "modifier" := isWord_ofList (by decide)
    have htext : "modifier = Modifier" ++ rest = "modifier" ++ " = " ++ ("Modifier" ++ rest) := by
      rw [← String.toList_inj]
      simp
    rw [htext]
    exact Mark.idle_argument hkey _
  exact forall_modifierLines (by simpa using hargument "") (hargument _)
    fun m _ => Mark.idle_sign m.starts_code

theorem ofLine_brace : Mark.ofLine "\x7d".toList = .ends := by rfl

-- the call is open since its name, and its block is still to come
theorem idle_brace : Mark.Idle ") \x7b" := by rfl

theorem ofLine_item : Mark.ofLine "item \x7b".toList = .item := by rfl

theorem idle_inner (hcall : ∀ a ∈ call.arguments, IsWord a.1) (level : Nat) (more : Bool)
    (chain : List Modifier) :
    ∀ text ∈ texts (argumentLines level more (argumentTexts call) ++ modifierLines level chain),
      Mark.Idle text := by
  rw [texts, List.forall_mem_map, List.forall_mem_append]
  exact ⟨idle_argumentLines hcall, idle_modifierLines level chain⟩

/-- The head of a call with a block opens it and does nothing else. -/
theorem texts_headLines_filled (hcall : ∀ a ∈ call.arguments, IsWord a.1) (level : Nat)
    (chain : List Modifier) :
    ∃ first inner, texts (headLines level call chain .filled) = first :: inner ∧
      Mark.ofLine first.toList = .starts call.composable ∧ ∀ text ∈ inner, Mark.Idle text := by
  have hopen : Mark.ofLine (call.composable.name ++ "(").toList = .starts call.composable :=
    Mark.ofLine_composable call.composable (by simp)
  have hblock : Mark.ofLine (call.composable.name ++ " \x7b").toList = .starts call.composable :=
    Mark.ofLine_composable call.composable (by simp)
  unfold headLines
  split
  · refine ⟨_, texts (argumentLines (level + 1) (!chain.isEmpty) (argumentTexts call) ++
      modifierLines (level + 1) chain) ++ [") \x7b"], ?_, hopen, ?_⟩
    · simp [texts, Block.afterArguments]
    · rw [List.forall_mem_append, List.forall_mem_singleton]
      exact ⟨idle_inner hcall _ _ _, idle_brace⟩
  · exact ⟨_, [], rfl, hblock, List.forall_mem_nil _⟩

theorem runs_headLines (hcall : ∀ a ∈ call.arguments, IsWord a.1) (hblock : block ≠ .filled) :
    Runs (texts (headLines level call chain block)) [.node call.composable []] := by
  have hopen : Mark.ofLine (call.composable.name ++ "(").toList = .starts call.composable :=
    Mark.ofLine_composable call.composable (by simp)
  have hclose : Mark.ofLine block.afterArguments.toList = .ends := by
    cases block with
    | filled => exact absurd rfl hblock
    | absent | empty => rfl
  have hwhole : Mark.ofLine (call.composable.name ++ block.afterName).toList =
      .whole call.composable := by
    cases block with
    | filled => exact absurd rfl hblock
    | absent => exact Mark.ofLine_composable call.composable (by simp [Block.afterName])
    | empty => exact Mark.ofLine_composable call.composable (by simp [Block.afterName])
  unfold headLines
  split
  · have hinner := runs_nones (idle_inner hcall (level + 1) (!chain.isEmpty) chain)
    simpa [texts] using hinner.call hopen hclose
  · exact runs_whole hwhole

theorem idle_content (h : (Call.ofWidget widget ps).content = some content) :
    Mark.Idle content := by
  rcases Call.content_cases h with ⟨p, -, rfl⟩ | ⟨text, -, rfl⟩
  · exact Mark.idle_label p.textCode_ne
  · exact Mark.idle_sign (.inr ((starts_ofList _ _).append _))

/-- The lines of a call add the call with the calls of its body. -/
theorem runs_ofCall (he : e.OneLine) (hbody : Runs (texts body) shapes) :
    Runs (texts (ofCall level e.call (Modifier.chain e.properties e.call) body))
      [.node e.call.composable shapes] := by
  have hcall : ∀ a ∈ e.call.arguments, IsWord a.1 :=
    fun _ ha => Call.isWord_key ha
  simp only [ofCall]
  split
  case isTrue hfilled =>
    obtain ⟨first, inner, htexts, hfirst, hinner⟩ :=
      texts_headLines_filled hcall level (Modifier.chain e.properties e.call)
    have hcontent : Runs (texts (contentLines (level + 1) e.call)) [] := by
      refine runs_nones ?_
      rw [contentLines_eq he, texts, List.forall_mem_map, List.forall_mem_map]
      exact fun content hcontent => idle_content (Option.mem_toList.mp hcontent)
    have hrun := ((runs_nones hinner).append (hcontent.append hbody)).call hfirst ofLine_brace
    rw [hfilled, texts_append, htexts, texts_append, texts_append]
    simpa [texts] using hrun
  case isFalse hblock =>
    -- without a block there are no lines below the call, and so no calls
    have hempty : body = [] := by
      by_contra hne
      exact hblock (by simp [Block.of, hne])
    subst hempty
    rw [hbody.eq_nil, List.append_nil]
    exact runs_headLines hcall hblock

end Line

-- ---------------------------------------------------------------------------
-- Trees
-- ---------------------------------------------------------------------------

namespace Element

variable {e : Element}

theorem forall_contains {P : Element → Prop} {tag : String} {attributes : List Attribute}
    {children : List Element} :
    (∀ d, Contains ⟨tag, attributes, children⟩ d → P d) ↔
      P ⟨tag, attributes, children⟩ ∧ ∀ c ∈ children, ∀ d, c.Contains d → P d := by
  constructor
  · exact fun h => ⟨h _ .root, fun c hc d hd => h d (.child hc hd)⟩
  · rintro ⟨hroot, hchildren⟩ d hd
    cases hd with
    | root => exact hroot
    | child hc hd => exact hchildren _ hc d hd

theorem callShapes_of_isOpaque (h : (Widget.ofTag e.tag).isOpaque = true) : e.callShapes = [] := by
  obtain ⟨tag, attributes, children⟩ := e
  unfold callShapes
  cases hw : Widget.ofTag tag <;> simp_all [Widget.isOpaque]

theorem callShapes_of_merged (h : Widget.ofTag e.tag = .merged) :
    e.callShapes = callShapesAll e.children := by
  obtain ⟨tag, attributes, children⟩ := e
  unfold callShapes
  rw [h]

theorem callShapes_of_isCall (h : (Widget.ofTag e.tag).isCall = true) :
    e.callShapes = [.node e.call.composable (callShapesAll e.children)] := by
  obtain ⟨tag, attributes, children⟩ := e
  unfold callShapes
  cases hw : Widget.ofTag tag <;> simp_all [Widget.isCall, call, properties]

end Element

namespace Stmt

open CallShape (Runs runs_nil runs_none)

def Shows (body : List Stmt) (shapes : List CallShape) : Prop :=
  ∀ level, Runs (Line.texts (Line.ofBody level body)) shapes

theorem Shows.append (ha : Shows a x) (hb : Shows b y) : Shows (a ++ b) (x ++ y) := by
  intro level
  rw [Line.ofBody_append, Line.texts_append]
  exact (ha level).append (hb level)

theorem shows_nil : Shows [] [] := fun _ => runs_nil

theorem shows_comment (text : String) : Shows [comment text] [] :=
  fun _ => runs_none (Mark.idle_sign (.inr ((starts_ofList _ _).append _)))

theorem shows_remarks (ps : Properties) (call : Call) : Shows (remarks ps call) [] := by
  unfold remarks
  induction ps.previewComments ++ call.remark.toList with
  | nil => exact shows_nil
  | cons text texts ih => exact (shows_comment _).append ih

theorem shows_ofCall {e : Element} (he : e.OneLine) (hbody : Shows body shapes) :
    Shows (ofCall e body) [.node e.call.composable shapes] := by
  refine (shows_remarks _ _).append fun level => ?_
  simp only [Line.ofBody, Line.ofStmt, List.append_nil]
  exact Line.runs_ofCall he (hbody (level + 1))

theorem shows_wrap (items : Bool) (hbody : Shows body shapes) :
    Shows (wrap items body) shapes := by
  unfold wrap
  split
  · intro level
    have hitem := (hbody (level + 1)).item Line.ofLine_item Line.ofLine_brace
    simpa [Line.ofBody, Line.ofStmt, Line.texts] using hitem
  · exact hbody

theorem passes_shows :
    Passes (fun e body => (∀ d, e.Contains d → d.OneLine) → Shows body e.callShapes)
      (fun _ children body => (∀ c ∈ children, ∀ d, c.Contains d → d.OneLine) →
        Shows body (Element.callShapesAll children)) where
  included htag _ := by
    rw [Element.callShapes_of_isOpaque (by rw [htag]; rfl)]
    exact shows_comment _
  fragment htag _ := by
    rw [Element.callShapes_of_isOpaque (by rw [htag]; rfl)]
    exact shows_comment _
  merged htag hbody he := by
    rw [Element.callShapes_of_merged htag]
    exact (shows_comment mergeComment).append (hbody fun c hc d hd => he d (.child hc hd))
  call htag hbody he := by
    rw [Element.callShapes_of_isCall htag]
    exact shows_ofCall (he _ .root) (hbody fun c hc d hd => he d (.child hc hd))
  nil _ := shows_nil
  cons hfirst hothers h := by
    obtain ⟨he, hrest⟩ := List.forall_mem_cons.mp h
    rw [Element.callShapesAll]
    exact (shows_wrap _ (hfirst he)).append (hothers hrest)

end Stmt

theorem CallShape.read_of_runs {lines : List Line} (h : ∀ line ∈ lines, IsLine line.text)
    (hruns : Runs (Line.texts lines) shapes) (base : Nat) :
    read (Line.written base lines) = some shapes := by
  have hmarks : ((Line.written base lines).toList.splitOn '\n').map Mark.ofLine =
      (Line.texts lines).map (fun text => Mark.ofLine text.toList) ++ [Mark.none] := by
    have hlast : Mark.ofLine [] = .none := rfl
    rw [Line.splitOn_written, Line.rows_of_isLine h, List.map_append, List.map_singleton, hlast,
      List.map_map, Line.texts, List.map_map]
    simp only [Function.comp_def, Mark.ofLine_indentation]
  have hrun := hruns ⟨none, []⟩ []
  rw [read, hmarks, run_append, hrun]
  simp only [Option.bind_some, run, step, Frame.add, List.nil_append]

/-- The call shape of a layout without line feeds in its values can be read from its code, so
layouts with the same code have the same call shape. -/
theorem Element.callShapes_eq_of_code_eq {e e' : Element} (he : ∀ d, e.Contains d → d.OneLine)
    (he' : ∀ d, e'.Contains d → d.OneLine) (hcode : e.code maxDepth base = .ok text)
    (hcode' : e'.code maxDepth' base' = .ok text) :
    CallShape.read text = some e.callShapes ∧ e.callShapes = e'.callShapes := by
  have hread : ∀ {e : Element} {maxDepth base : Nat}, (∀ d, e.Contains d → d.OneLine) →
      e.code maxDepth base = .ok text → CallShape.read text = some e.callShapes := by
    intro e maxDepth base he hcode
    rw [Element.code] at hcode
    split at hcode <;> cases hcode
    case h_2 body hbody =>
      exact CallShape.read_of_runs (Stmt.passes_lined.ofElement e hbody he 0)
        (Stmt.passes_shows.ofElement e hbody he 0) base
  have hshape := hread he hcode
  exact ⟨hshape, Option.some.inj (hshape.symm.trans (hread he' hcode'))⟩

def panel : Element :=
  ⟨"GridLayout", [⟨"android:padding", "8dp"⟩], [
    ⟨"merge", [], [⟨"Button", [⟨"android:text", "Text("⟩], []⟩]⟩,
    ⟨"include", [⟨"layout", "@layout/row"⟩], [⟨"TextView", [], []⟩]⟩,
    ⟨"Space", [], []⟩]⟩

def qualifiedPanel : Element :=
  ⟨"androidx.gridlayout.widget.GridLayout", [⟨"android:padding", "8dp"⟩], [
    ⟨"merge", [], [⟨"MaterialButton", [⟨"android:text", "Text("⟩], []⟩]⟩,
    ⟨"include", [⟨"layout", "@layout/row"⟩], []⟩,
    ⟨"View", [], []⟩]⟩

theorem Element.callShapes_panel :
    (∀ d, panel.Contains d → d.OneLine) ∧ (∀ d, qualifiedPanel.Contains d → d.OneLine) ∧
      ∃ text, panel.code 3 1 = .ok text ∧ qualifiedPanel.code 5 1 = .ok text ∧
        CallShape.read text = some panel.callShapes ∧
        panel.callShapes = qualifiedPanel.callShapes := by
  have hpadding : IsLine "8dp" := isLine_ofList (by decide)
  have htext : IsLine "Text(" := isLine_ofList (by decide)
  have hlayout : IsLine "@layout/row" := isLine_ofList (by decide)
  have hpanel : ∀ d, panel.Contains d → d.OneLine := by
    simp only [panel, Element.forall_contains, List.forall_mem_cons, Element.OneLine]
    simp [hpadding, htext, hlayout]
  have hqualified : ∀ d, qualifiedPanel.Contains d → d.OneLine := by
    simp only [qualifiedPanel, Element.forall_contains, List.forall_mem_cons, Element.OneLine]
    simp [hpadding, htext, hlayout]
  obtain ⟨text, hcode⟩ : ∃ text, panel.code 3 1 = .ok text := ⟨_, rfl⟩
  have hsame : qualifiedPanel.code 5 1 = .ok text := by
    rw [← hcode]
    rfl
  exact ⟨hpanel, hqualified, text, hcode, hsame,
    Element.callShapes_eq_of_code_eq hpanel hqualified hcode hsame⟩

end LayoutCompose
