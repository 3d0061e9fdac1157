import LayoutCompose.Proofs.BalancedCode
import Mathlib.Data.List.Basic

/-!
# Code on lines of its own

Every line of the generated code is one line of the text if the values of the layout have no line
feed. A value goes into the code by itself, inside a literal or inside a comment, and none of
these adds a line feed.
-/

namespace LayoutCompose

open Text (IsLine IsWord isLine_ofList isLine_of_plain)

-- ---------------------------------------------------------------------------
-- Values
-- ---------------------------------------------------------------------------

theorem Text.isLine_of_after? (hafter : after? lead text = some rest) (h : IsLine text) :
    IsLine rest := by
  intro hfeed
  rw [IsLine, after?_eq_some_iff.mp hafter, String.toList_append] at h
  exact h (List.mem_append_right _ hfeed)

theorem Literal.not_mem_body (h : '\n' ∉ l) : '\n' ∉ body l := by
  have hplain : ∀ c, c ≠ '\n' → '\n' ∉ plain c := by
    intro c hc
    unfold plain
    split <;> simp_all [Ne.symm]
  have hescaped : ∀ c, c ≠ '\n' → '\n' ∉ escaped c := by
    intro c hc
    unfold escaped
    split <;> simp_all [Ne.symm]
  fun_induction body l with
  | case1 | case2 => decide
  | case3 c rest ih =>
    simp only [List.mem_cons, not_or] at h
    rw [List.mem_append, not_or]
    exact ⟨hescaped c (Ne.symm h.2.1), ih h.2.2⟩
  | case4 c rest _ _ ih =>
    rw [List.mem_cons, not_or] at h
    rw [List.mem_append, not_or]
    exact ⟨hplain c (Ne.symm h.1), ih h.2⟩

theorem Literal.isLine_quote (h : IsLine raw) : IsLine (quote raw) := by
  refine isLine_ofList ?_
  simp [not_mem_body h]

theorem Text.isLine_numeral (h : ∀ c ∈ code.toList, Number.isNumeralChar c = true) :
    IsLine code :=
  isLine_of_plain (Scan.plain_of_isNumeralChar h)

theorem Text.isLine_int (n : Int) : IsLine (toString n) :=
  isLine_numeral fun _ hc => Number.isNumeralChar_of_mem_int hc

theorem Text.isLine_literal (x : Number.Binary64) : IsLine x.literal :=
  isLine_numeral fun _ hc => x.isNumeralChar_of_mem_literal hc

theorem Meaning.isLine_task (h : ofValue value = .unresolved task reason) (hvalue : IsLine value) :
    IsLine task := by
  have hsuits := h ▸ suits_ofValue value
  cases hsuits with
  | unresolved hlead => exact .append (not_mem_taskLead hlead).2 hvalue

namespace Element

def OneLine (e : Element) : Prop := ∀ a ∈ e.attributes, IsLine a.value

variable {e : Element} {p : Property}

theorem OneLine.lines (he : e.OneLine) : e.properties.Lines := by
  intro p hp
  obtain ⟨a, ha, hraw, -⟩ := e.meaning_of_mem hp
  rw [hraw]
  exact he a ha

theorem isLine_code (he : e.OneLine) (hp : p ∈ e.properties) (hcode : p.meaning = .code expr) :
    IsLine expr.code := by
  rcases e.meaning_eq_code hp hcode with ⟨family, name, rfl, a, ha, hname⟩ | hclosed
  · have haccessor : IsLine family.accessor := by
      cases family <;> exact isLine_ofList (by decide)
    have hfamily : IsLine family.family := by
      cases family <;> exact isLine_ofList (by decide)
    have hstart := (haccessor.append (isLine_ofList (by decide) : IsLine "(R.")).append hfamily
    have hname : IsLine name := Text.isLine_of_after? hname (he a ha)
    exact (hstart.append (isLine_ofList (by decide))).between hname (isLine_ofList (by decide))
  · exact isLine_of_plain hclosed.plain

theorem isLine_todo (he : e.OneLine) (hp : p ∈ e.properties)
    (htask : p.meaning = .unresolved task reason) : IsLine (Comment.todo task) := by
  obtain ⟨a, ha, -, hmeaning⟩ := e.meaning_of_mem hp
  rw [htask] at hmeaning
  rcases hmeaning with hpreview | hvalue
  · cases hpreview
  · exact Comment.isLine_todo (Meaning.isLine_task hvalue.symm (he a ha))

theorem isLine_textCode (he : e.OneLine) (hp : p ∈ e.properties) : IsLine p.textCode := by
  unfold Property.textCode
  split
  case h_1 expr hcode => exact isLine_code he hp hcode
  case h_2 htask => exact .append (isLine_ofList (by decide)) (isLine_todo he hp htask)
  all_goals exact Literal.isLine_quote (he.lines p hp)

theorem isLine_colorCode (he : e.OneLine) (hp : p ∈ e.properties) : IsLine p.colorCode := by
  have hunspecified : IsLine "Color.Unspecified " := isLine_ofList (by decide)
  unfold Property.colorCode
  split
  case h_1 expr hcode => exact isLine_code he hp hcode
  case h_2 htask => exact hunspecified.append (isLine_todo he hp htask)
  all_goals
    exact hunspecified.append (Comment.isLine_todo
      ((isLine_ofList (by decide)).between (he.lines p hp) (isLine_ofList (by decide))))

theorem isLine_painter (he : e.OneLine) : IsLine (Call.painter e.properties) := by
  have hplaceholder : ∀ task, IsLine task → IsLine (Call.placeholderPainter task) :=
    fun _ htask => .append (isLine_ofList (by decide)) (Comment.isLine_todo htask)
  unfold Call.painter
  split
  · exact hplaceholder _ (isLine_ofList (by decide))
  case h_2 source hsource =>
    have hmem : source ∈ e.properties := by
      rcases Option.or_eq_some_iff.mp hsource with hsrc | ⟨-, hcompat⟩
      · exact Properties.mem_of_get? hsrc
      · exact Properties.mem_of_get? hcompat
    split
    case h_1 hcode => exact isLine_code he hmem hcode
    case h_2 hcode => exact isLine_code he hmem hcode
    case h_3 => exact hplaceholder _ (.append (isLine_ofList (by decide)) (he.lines source hmem))

theorem isLine_dimension (he : e.OneLine) (h : Modifier.Gives e.properties d) : IsLine d.code := by
  obtain ⟨key, hkey⟩ := h
  obtain ⟨raw, hraw, hread⟩ := Option.bind_eq_some_iff.mp hkey
  rw [Dimension.read?] at hread
  split at hread
  case h_1 name hname =>
    cases hread
    exact (isLine_ofList (by decide)).between (Text.isLine_of_after? hname (he.lines.raw hraw))
      (isLine_ofList (by decide))
  case h_2 =>
    obtain ⟨n, -, rfl⟩ := Option.map_eq_some_iff.mp hread
    exact (Text.isLine_int n).append (isLine_ofList (by decide))

-- ---------------------------------------------------------------------------
-- Arguments and modifiers
-- ---------------------------------------------------------------------------

theorem isLine_form (he : e.OneLine) (h : Call.Form e.properties widget a) : IsLine a.2 := by
  have hlambda : ∀ {code}, IsLine code → IsLine (Call.lambda code) :=
    fun h => (isLine_ofList (by decide)).between h (isLine_ofList (by decide))
  cases h with
  | fixed kind hcode => exact kind.isLine _ hcode
  | count n => exact Text.isLine_int n
  | size n => exact (Text.isLine_int n).append (isLine_ofList (by decide))
  | cells n =>
    exact (isLine_ofList (by decide)).between (Text.isLine_int n) (isLine_ofList (by decide))
  | literal x => exact Text.isLine_literal x
  | progress x => exact hlambda (Text.isLine_literal x)
  | task hline => exact hlambda (Comment.isLine_todo (hline he.lines))
  | text _ hp => exact isLine_textCode he (Properties.mem_of_get? hp)
  | label hp =>
    have htext := isLine_textCode he (Properties.mem_of_get? hp)
    exact hlambda ((isLine_ofList (by decide)).between htext (isLine_ofList (by decide)))
  | color hp => exact isLine_colorCode he (Properties.mem_of_get? hp)
  | painter => exact isLine_painter he

theorem isLine_edgesCode (he : e.OneLine) {edges : List Edge}
    (h : ∀ edge ∈ edges, edge.1 ∈ Modifier.edgeNames ∧ Modifier.Gives e.properties edge.2) :
    IsLine (Modifier.edgesCode edges) := by
  refine Text.isLine_intercalate (isLine_ofList (by decide)) ?_
  rw [List.forall_mem_map]
  intro edge hedge
  obtain ⟨hlabel, hgives⟩ := h edge hedge
  have hlabel : IsLine edge.1 := (Modifier.isWord_edgeNames _ hlabel).isLine
  exact hlabel.between (isLine_ofList (by decide)) (isLine_dimension he hgives)

/-- The code of a modifier is one line. -/
theorem isLine_modifier (he : e.OneLine) {m : Modifier} (h : m.Sourced e.properties) :
    IsLine m.code := by
  have hclose : IsLine ")" := isLine_ofList (by decide)
  cases m with
  | fillMaxSize | fillMaxWidth | fillMaxHeight | zeroSize | focusable =>
    exact isLine_ofList (by decide)
  | width d | height d | padding d =>
    exact (isLine_ofList (by decide)).between (isLine_dimension he h) hclose
  | edgePadding edges | widthIn edges | heightIn edges =>
    exact (isLine_ofList (by decide)).between (isLine_edgesCode he h) hclose
  | scroll axis => cases axis <;> exact isLine_ofList (by decide)
  | background color =>
    obtain ⟨p, hp, hcode, -⟩ := h
    exact (isLine_ofList (by decide)).between (isLine_code he (Properties.mem_of_get? hp) hcode)
      hclose
  | alpha code => exact (isLine_ofList (by decide)).between (Text.isLine_numeral h) hclose
  | clickable code =>
    obtain ⟨task, rfl, htask⟩ := h
    have htodo := Comment.isLine_todo (htask he.lines)
    exact .append (isLine_ofList (by decide))
      ((isLine_ofList (by decide)).between htodo (isLine_ofList (by decide)))
  | rotate x | scale x => exact (isLine_ofList (by decide)).between (Text.isLine_literal x) hclose
  | scaleAxes x y =>
    have hstart : IsLine ".scale(scaleX = " := isLine_ofList (by decide)
    have hmiddle : IsLine ", scaleY = " := isLine_ofList (by decide)
    exact (hstart.between (Text.isLine_literal x) hmiddle).between (Text.isLine_literal y) hclose
  | task text => exact Comment.isLine_todo (h he.lines)

theorem isLine_inlineCode (he : e.OneLine) {chain : List Modifier}
    (h : ∀ m ∈ chain, m.Sourced e.properties) : IsLine (Modifier.inlineCode chain) := by
  fun_induction Modifier.inlineCode chain with
  | case1 => exact isLine_ofList (by decide)
  | case2 m => exact isLine_modifier he (h m (List.mem_singleton_self m))
  | case3 m next rest ih =>
    obtain ⟨hm, hrest⟩ := List.forall_mem_cons.mp h
    refine (isLine_modifier he hm).between ?_ (ih hrest)
    split <;> exact isLine_ofList (by decide)

theorem isLine_content (he : e.OneLine) (h : e.call.content = some content) :
    IsLine content ∧ content ≠ "" := by
  rcases Call.content_cases h with ⟨p, hp, rfl⟩ | ⟨text, htext, rfl⟩
  · have htext := isLine_textCode he (Properties.mem_of_get? hp)
    exact ⟨(isLine_ofList (by decide)).between htext (isLine_ofList (by decide)), by simp⟩
  · exact ⟨.append (isLine_ofList (by decide)) htext.isLine, by simp⟩

end Element

-- ---------------------------------------------------------------------------
-- Lines of calls
-- ---------------------------------------------------------------------------

namespace Line

variable {e : Element} {level : Nat} {chain : List Modifier}

/-- What starts a block is one line. -/
theorem contentLines_eq (he : e.OneLine) (level : Nat) :
    contentLines level e.call = e.call.content.toList.map (Line.mk level) := by
  unfold contentLines
  split
  case h_1 content hcontent =>
    obtain ⟨hline, hne⟩ := e.isLine_content he hcontent
    rw [split_of_isLine hline hne, hcontent]
    rfl
  case h_2 hcontent =>
    rw [hcontent]
    rfl

/-- The texts that can stand on the lines of a call, apart from those of its body, have a
property. -/
structure CallTexts (P : String → Prop) (call : Call) (chain : List Modifier) : Prop where
  opening : P (call.composable.name ++ "(")
  whole : ∀ block : Block, P (call.composable.name ++ block.afterName)
  argument : ∀ text ∈ argumentTexts call, P text ∧ P (text ++ ",")
  modifier : P "modifier = Modifier"
  inline : P ("modifier = Modifier" ++ Modifier.inlineCode chain)
  link : ∀ m ∈ chain, P m.code
  closing : ∀ block : Block, P block.afterArguments
  content : ∀ text, call.content = some text → P text
  brace : P "\x7d"

variable {P : String → Prop}

theorem CallTexts.headLines (h : CallTexts P call chain) (level : Nat) (block : Block) :
    ∀ line ∈ headLines level call chain block, P line.text := by
  unfold Line.headLines
  split
  · simp only [List.cons_append, List.forall_mem_cons, List.forall_mem_append]
    exact ⟨h.opening, ⟨forall_argumentLines h.argument,
      forall_modifierLines h.modifier h.inline h.link⟩, h.closing block, List.forall_mem_nil _⟩
  · exact List.forall_mem_singleton.mpr (h.whole block)

theorem CallTexts.ofCall (h : CallTexts P e.call chain) (he : e.OneLine)
    (hbody : ∀ line ∈ body, P line.text) :
    ∀ line ∈ ofCall level e.call chain body, P line.text := by
  simp only [Line.ofCall]
  rw [List.forall_mem_append]
  refine ⟨h.headLines level _, ?_⟩
  split
  · rw [List.forall_mem_append, List.forall_mem_append, List.forall_mem_singleton,
      contentLines_eq he, List.forall_mem_map]
    exact ⟨⟨fun text htext => h.content text (Option.mem_toList.mp htext), hbody⟩, h.brace⟩
  · simp

theorem isLine_argumentTexts (he : e.OneLine) : ∀ text ∈ argumentTexts e.call, IsLine text := by
  unfold argumentTexts
  rw [List.forall_mem_map]
  intro a ha
  exact (Call.isWord_key ha).isLine.between (isLine_ofList (by decide))
    (e.isLine_form he ((Call.formed_arguments _ _).form a ha))

theorem isLine_composable (c : Composable) : IsLine c.name := by
  cases c <;> exact isLine_ofList (by decide)

theorem isLine_callTexts (he : e.OneLine) (h : ∀ m ∈ chain, m.Sourced e.properties) :
    CallTexts IsLine e.call chain where
  opening := (isLine_composable _).append (isLine_ofList (by decide))
  whole block := (isLine_composable _).append (by cases block <;> exact isLine_ofList (by decide))
  argument text htext :=
    have hline := isLine_argumentTexts he text htext
    ⟨hline, hline.append (isLine_ofList (by decide))⟩
  modifier := isLine_ofList (by decide)
  inline := .append (isLine_ofList (by decide)) (e.isLine_inlineCode he h)
  link m hm := e.isLine_modifier he (h m hm)
  closing block := by cases block <;> exact isLine_ofList (by decide)
  content _ htext := (e.isLine_content he htext).1
  brace := isLine_ofList (by decide)

/-- The rows of text that lines take up. A line with line feeds in it takes up several. -/
def rows (base : Nat) (lines : List Line) : List (List Char) :=
  lines.flatMap fun line => (indentation (base + line.level) ++ line.text).toList.splitOn '\n'

theorem rows_append (base : Nat) (a b : List Line) :
    rows base (a ++ b) = rows base a ++ rows base b := List.flatMap_append

theorem splitOn_written (base : Nat) (lines : List Line) :
    (written base lines).toList.splitOn '\n' = rows base lines ++ [[]] := by
  induction lines with
  | nil => rfl
  | cons line lines ih =>
    have htext : (written base (line :: lines)).toList =
        (indentation (base + line.level) ++ line.text).toList ++ '\n' ::
          (written base lines).toList := by
      rw [written_cons, render]
      simp
    rw [htext, List.splitOn_append_cons_self, ih, rows, rows, List.flatMap_cons, List.append_assoc]

theorem isLine_row (n : Nat) {text : String} (h : IsLine text) : IsLine (indentation n ++ text) :=
  .append (fun hfeed => by simpa using mem_indentation hfeed) h

theorem rows_singleton (base level : Nat) {text : String} (h : IsLine text) :
    rows base [⟨level, text⟩] = [(indentation (base + level) ++ text).toList] := by
  have hfree : '\n' ∉ (indentation (base + level) ++ text).toList := isLine_row _ h
  rw [rows, List.flatMap_singleton, List.splitOn_eq_singleton hfree]

theorem rows_of_isLine {lines : List Line} (h : ∀ line ∈ lines, IsLine line.text) (base : Nat) :
    rows base lines =
      lines.map fun line => (indentation (base + line.level) ++ line.text).toList := by
  induction lines with
  | nil => rfl
  | cons line lines ih =>
    obtain ⟨hline, hlines⟩ := List.forall_mem_cons.mp h
    rw [← List.singleton_append, rows_append, rows_singleton base line.level hline, ih hlines]
    rfl

end Line

-- ---------------------------------------------------------------------------
-- Trees
-- ---------------------------------------------------------------------------

namespace Stmt

/-- A property of an element and its statements that passes from the children to their parent,
with the property of all children that carries it. -/
structure Passes (M : Element → List Stmt → Prop) (N : Bool → List Element → List Stmt → Prop) :
    Prop where
  included : Widget.ofTag e.tag = .included → M e [comment (includeComment e)]
  fragment : Widget.ofTag e.tag = .fragment → M e [comment (fragmentComment e)]
  merged : Widget.ofTag e.tag = .merged → N false e.children body →
    M e (comment mergeComment :: body)
  call : (Widget.ofTag e.tag).isCall = true → N e.call.composable.wrapsItems e.children body →
    M e (ofCall e body)
  nil : N items [] []
  cons : M e first → N items rest others → N items (e :: rest) (wrap items first ++ others)

variable {M : Element → List Stmt → Prop} {N : Bool → List Element → List Stmt → Prop}

mutual

theorem Passes.ofElement (hpasses : Passes M N) (e : Element)
    (h : Stmt.ofElement maxDepth depth e = .ok body) : M e body := by
  obtain ⟨tag, attributes, children⟩ := e
  rw [Stmt.ofElement] at h
  split at h
  · cases h
  split at h
  case h_1 htag =>
    cases h
    exact hpasses.included (e := ⟨tag, attributes, children⟩) htag
  case h_2 htag =>
    cases h
    exact hpasses.fragment (e := ⟨tag, attributes, children⟩) htag
  case h_3 htag =>
    split at h <;> cases h
    case h_2 body hbody =>
      exact hpasses.merged (e := ⟨tag, attributes, children⟩) htag
        (hpasses.ofChildren children hbody)
  case h_4 hincluded hfragment hmerged =>
    split at h <;> cases h
    case h_2 body hbody =>
      refine hpasses.call (e := ⟨tag, attributes, children⟩) ?_ (hpasses.ofChildren children hbody)
      cases hw : Widget.ofTag tag <;> simp_all [Widget.isCall]

theorem Passes.ofChildren (hpasses : Passes M N) (children : List Element)
    (h : Stmt.ofChildren maxDepth depth items children = .ok body) : N items children body := by
  cases children with
  | nil =>
    cases h
    exact hpasses.nil
  | cons e rest =>
    rw [Stmt.ofChildren] at h
    split at h
    · cases h
    case h_2 first hfirst =>
      split at h <;> cases h
      case h_2 others hothers =>
        exact hpasses.cons (hpasses.ofElement e hfirst) (hpasses.ofChildren rest hothers)

end

def Each (P : String → Prop) (body : List Stmt) : Prop :=
  ∀ level, ∀ line ∈ Line.ofBody level body, P line.text

variable {P : String → Prop}

theorem Each.append (ha : Each P a) (hb : Each P b) : Each P (a ++ b) := by
  intro level
  rw [Line.ofBody_append, List.forall_mem_append]
  exact ⟨ha level, hb level⟩

theorem each_nil : Each P [] := fun level => by simp [Line.ofBody]

theorem each_comment (h : P ("// " ++ text)) : Each P [comment text] := by
  intro level
  simpa [Line.ofBody, Line.ofStmt] using h

theorem each_remarks (h : ∀ text, Text.Unbroken text → P ("// " ++ text)) (ps : Properties)
    (call : Call) : Each P (remarks ps call) := by
  unfold remarks
  induction ps.previewComments ++ call.remark.toList with
  | nil => exact each_nil
  | cons text texts ih => exact (each_comment (h _ (Comment.unbroken_oneLine text))).append ih

theorem each_wrap (hopen : P "item \x7b") (hclose : P "\x7d") (items : Bool) (hbody : Each P body) :
    Each P (wrap items body) := by
  unfold wrap
  split
  · intro level
    simp only [Line.ofBody, Line.ofStmt, List.append_nil, List.cons_append, List.forall_mem_cons,
      List.forall_mem_append]
    exact ⟨hopen, hbody (level + 1), hclose, List.forall_mem_nil _⟩
  · exact hbody

/-- A property of all comments, items and calls without line feeds is one of all lines. -/
theorem passes_each (hcomment : ∀ text, Text.Unbroken text → P ("// " ++ text))
    (hopen : P "item \x7b") (hclose : P "\x7d")
    (hcall : ∀ e : Element, e.OneLine →
      Line.CallTexts P e.call (Modifier.chain e.properties e.call)) :
    Passes (fun e body => (∀ d, e.Contains d → d.OneLine) → Each P body)
      (fun _ children body =>
        (∀ c ∈ children, ∀ d, c.Contains d → d.OneLine) → Each P body) where
  included _ _ := each_comment (hcomment _ (Line.unbroken_includeComment _))
  fragment _ _ := each_comment (hcomment _ (Line.unbroken_fragmentComment _))
  merged _ hbody he := by
    have hmerge : Text.Unbroken mergeComment := Text.unbroken_ofList (by decide)
    exact (each_comment (hcomment _ hmerge)).append (hbody fun c hc d hd => he d (.child hc hd))
  call _ hbody he := by
    refine (each_remarks hcomment _ _).append fun level => ?_
    simp only [Line.ofBody, Line.ofStmt, List.append_nil]
    have hroot := he _ .root
    exact (hcall _ hroot).ofCall hroot (hbody (fun c hc d hd => he d (.child hc hd)) (level + 1))
  nil _ := each_nil
  cons hfirst hothers h := by
    obtain ⟨he, hrest⟩ := List.forall_mem_cons.mp h
    exact (each_wrap hopen hclose _ (hfirst he)).append (hothers hrest)

/-- All lines of the statements are lines of the text. -/
theorem passes_lined :
    Passes (fun e body => (∀ d, e.Contains d → d.OneLine) → Each IsLine body)
      (fun _ children body =>
        (∀ c ∈ children, ∀ d, c.Contains d → d.OneLine) → Each IsLine body) :=
  passes_each (fun _ h => .append (isLine_ofList (by decide)) h.isLine) (isLine_ofList (by decide))
    (isLine_ofList (by decide)) fun _ he => Line.isLine_callTexts he (Modifier.sourced_chain _ _)

end Stmt

end LayoutCompose
