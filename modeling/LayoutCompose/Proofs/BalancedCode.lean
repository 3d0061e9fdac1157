import LayoutCompose.Proofs.CodeForms

/-!
# Generated code is balanced

Every argument, modifier and comment of a statement is closed by itself, whatever text of
the layout is in it. The lines of a tree are then balanced by induction on the tree.
-/

namespace LayoutCompose

theorem Name.unbroken_camelCase (s : String) : Text.Unbroken (camelCase s) :=
  ⟨not_mem_camelCase (by decide) (by decide) (.inl (by decide)),
    not_mem_camelCase (by decide) (by decide) (.inl (by decide))⟩

-- ---------------------------------------------------------------------------
-- Values
-- ---------------------------------------------------------------------------

def Resource.isNameChar (c : Char) : Bool :=
  c.isAlphanum || c == '_' || c == '.'

/-- A value that refers to a resource goes on with the name of one. -/
def Attribute.NamesResource (a : Attribute) : Prop :=
  ∀ family : Resource, ∀ name ∈ Text.after? ("@" ++ family.family ++ "/") a.value,
    ∀ c ∈ name.toList, Resource.isNameChar c = true

instance (a : Attribute) : Decidable a.NamesResource :=
  decidable_of_iff (∀ family ∈ Resource.all,
      ∀ name ∈ Text.after? ("@" ++ family.family ++ "/") a.value,
        ∀ c ∈ name.toList, Resource.isNameChar c = true)
    ⟨fun h family => h family (by cases family <;> decide), fun h family _ => h family⟩

def Element.NamesResources (e : Element) : Prop := ∀ a ∈ e.attributes, a.NamesResource

open Scan

theorem complete_name {name : String} (h : ∀ c ∈ name.toList, Resource.isNameChar c = true) :
    Complete name := by
  refine complete_of_flat fun c hc => ?_
  have hc := h c hc
  simp only [Resource.isNameChar, Bool.or_eq_true, beq_iff_eq] at hc
  rcases hc with (halphanum | rfl) | rfl
  · exact isFlat_of_isAlphanum halphanum
  all_goals decide

theorem complete_word (h : Text.IsWord word) : Complete word :=
  complete_of_flat fun c hc => isFlat_of_isAlphanum (by simp [Char.isAlphanum, h.2 c hc])

theorem complete_numeral {code : String}
    (h : ∀ c ∈ code.toList, Number.isNumeralChar c = true) : Complete code :=
  complete_of_flat fun c hc => isFlat_of_isNumeralChar (h c hc)

theorem complete_int (n : Int) : Complete (toString n) :=
  complete_numeral fun _ hc => Number.isNumeralChar_of_mem_int hc

theorem complete_literal (x : Number.Binary64) : Complete x.literal :=
  complete_numeral fun _ hc => x.isNumeralChar_of_mem_literal hc

namespace Expr

theorem complete_resource (family : Resource) {name : String}
    (hname : ∀ c ∈ name.toList, Resource.isNameChar c = true) :
    Complete (Expr.resource family name).code := by
  have haccessor : Complete family.accessor := by
    cases family <;> exact complete_ofList (by decide)
  have hfamily : Complete family.family := by
    cases family <;> exact complete_ofList (by decide)
  have hpath : Complete (family.family ++ "." ++ name) :=
    (hfamily.append (complete_ofList (by decide))).append (complete_name hname)
  change Complete (family.accessor ++ "(R." ++ family.family ++ "." ++ name ++ ")")
  simpa only [String.append_assoc] using
    haccessor.append (hpath.wrap (wraps_ofList (by decide) : Wraps "(R." ")"))

theorem complete_argb (color : Argb) : Complete (Expr.argb color).code := by
  have hwraps : Wraps "Color(0x" ")" := wraps_ofList (by decide)
  refine Complete.wrap hwraps (complete_of_flat fun c hc => ?_)
  rw [String.toList_ofList] at hc
  obtain ⟨d, rfl⟩ := Argb.exists_hexDigit_of_mem hc
  clear hc
  revert d
  decide

theorem IsClosed.complete {expr : Expr} (h : expr.IsClosed) : Complete expr.code := by
  rcases h with ⟨color, rfl⟩ | htabled
  · exact complete_argb color
  have hword : Complete expr.word := by
    refine complete_of_flat fun c hc => isFlat_of_isAlphanum ?_
    simp [Char.isAlphanum, isAlpha_word htabled c hc]
  cases expr with
  | resource family name => exact (ne_resource htabled family name rfl).elim
  | argb color => exact complete_argb color
  | namedColor name => exact .append (complete_ofList (by decide)) hword
  | themeColor role => exact .append (complete_ofList (by decide)) hword
  | dp n => exact .append (complete_int n) (complete_ofList (by decide))

end Expr

namespace Element

variable {e : Element} {p : Property} {key raw : String}

theorem complete_code (he : e.NamesResources) (hp : p ∈ e.properties)
    (hcode : p.meaning = .code expr) : Complete expr.code := by
  rcases e.meaning_eq_code hp hcode with ⟨family, name, rfl, a, ha, hname⟩ | hclosed
  · exact Expr.complete_resource family (he a ha family name hname)
  · exact hclosed.complete

theorem complete_textCode (he : e.NamesResources) (hp : p ∈ e.properties) :
    Complete p.textCode := by
  have hempty : Complete "\"\" " := complete_ofList (by decide)
  unfold Property.textCode
  split
  case h_1 expr hcode => exact complete_code he hp hcode
  case h_2 => exact hempty.append (complete_todo _)
  all_goals exact complete_quote _

theorem complete_colorCode (he : e.NamesResources) (hp : p ∈ e.properties) :
    Complete p.colorCode := by
  have hunspecified : Complete "Color.Unspecified " := complete_ofList (by decide)
  unfold Property.colorCode
  split
  case h_1 expr hcode => exact complete_code he hp hcode
  all_goals exact hunspecified.append (complete_todo _)

theorem complete_painter (he : e.NamesResources) : Complete (Call.painter e.properties) := by
  have hplaceholder : Complete "painterResource(R.drawable.ic_placeholder) " :=
    complete_ofList (by decide)
  unfold Call.painter
  split
  · exact hplaceholder.append (complete_todo _)
  case h_2 source hsource =>
    have hmem : source ∈ e.properties := by
      rcases Option.or_eq_some_iff.mp hsource with hsrc | ⟨-, hcompat⟩
      · exact Properties.mem_of_get? hsrc
      · exact Properties.mem_of_get? hcompat
    split
    case h_1 hcode => exact complete_code he hmem hcode
    case h_2 hcode => exact complete_code he hmem hcode
    case h_3 => exact hplaceholder.append (complete_todo _)

theorem complete_dimension (he : e.NamesResources) (h : Modifier.Gives e.properties d) :
    Complete d.code := by
  obtain ⟨key, hkey⟩ := h
  obtain ⟨raw, hraw, hread⟩ := Option.bind_eq_some_iff.mp hkey
  obtain ⟨p, hp, rfl⟩ := Option.map_eq_some_iff.mp hraw
  obtain ⟨a, ha, hvalue, -⟩ := e.meaning_of_mem (Properties.mem_of_get? hp)
  rw [hvalue, Dimension.read?] at hread
  split at hread
  case h_1 name hname =>
    cases hread
    have hwraps : Wraps "dimensionResource(R.dimen." ")" := wraps_ofList (by decide)
    exact (complete_name (he a ha .dimen name hname)).wrap hwraps
  case h_2 =>
    obtain ⟨n, -, rfl⟩ := Option.map_eq_some_iff.mp hread
    have hunit : Complete ".dp" := complete_ofList (by decide)
    exact (complete_int n).append hunit

end Element

-- ---------------------------------------------------------------------------
-- Modifiers
-- ---------------------------------------------------------------------------

namespace Modifier

variable {e : Element}

theorem complete_edgesCode (he : e.NamesResources) {edges : List Edge}
    (h : ∀ edge ∈ edges, edge.1 ∈ edgeNames ∧ Gives e.properties edge.2) :
    Complete (edgesCode edges) := by
  have hequals : Complete " = " := complete_ofList (by decide)
  have hcomma : Complete ", " := complete_ofList (by decide)
  have hedge : ∀ edge : Edge, edge.1 ∈ edgeNames ∧ Gives e.properties edge.2 →
      Complete (edge.1 ++ " = " ++ edge.2.code) := fun edge hedge =>
    ((complete_word (isWord_edgeNames _ hedge.1)).append hequals).append
      (e.complete_dimension he hedge.2)
  unfold edgesCode
  induction edges with
  | nil => decide
  | cons edge edges ih =>
    obtain ⟨hfirst, hrest⟩ := List.forall_mem_cons.mp h
    cases edges with
    | nil => simpa using hedge edge hfirst
    | cons next edges =>
      rw [List.map_cons, List.map_cons, String.intercalate_cons_cons]
      exact ((hedge edge hfirst).append hcomma).append (ih hrest)

theorem Sourced.complete (he : e.NamesResources) {m : Modifier} (h : m.Sourced e.properties) :
    Complete m.code := by
  cases m with
  | fillMaxSize | fillMaxWidth | fillMaxHeight | zeroSize | focusable =>
    exact complete_ofList (by decide)
  | width d | height d | padding d =>
    exact (e.complete_dimension he h).wrap (wraps_ofList (by decide))
  | edgePadding edges | widthIn edges | heightIn edges =>
    exact (complete_edgesCode he h).wrap (wraps_ofList (by decide))
  | scroll axis => cases axis <;> exact complete_ofList (by decide)
  | background color =>
    obtain ⟨p, hp, hcode, -⟩ := h
    exact (e.complete_code he (Properties.mem_of_get? hp) hcode).wrap (wraps_ofList (by decide))
  | alpha code => exact (complete_numeral h).wrap (wraps_ofList (by decide))
  | clickable code =>
    obtain ⟨task, rfl, -⟩ := h
    have hwraps : Wraps "\x7b " " \x7d" := wraps_ofList (by decide)
    exact .append (complete_ofList (by decide)) ((complete_todo task).wrap hwraps)
  | rotate x | scale x => exact (complete_literal x).wrap (wraps_ofList (by decide))
  | scaleAxes x y =>
    have hwraps : Wraps ".scale(scaleX = " ")" := wraps_ofList (by decide)
    have hcomma : Complete ", scaleY = " := complete_ofList (by decide)
    have hboth := ((complete_literal x).append hcomma).append (complete_literal y)
    change Complete (".scale(scaleX = " ++ x.literal ++ ", scaleY = " ++ y.literal ++ ")")
    simpa only [String.append_assoc] using hboth.wrap hwraps
  | task text => exact complete_todo text

theorem complete_inlineCode {chain : List Modifier} (h : ∀ m ∈ chain, Complete m.code) :
    Complete (inlineCode chain) := by
  fun_induction inlineCode chain with
  | case1 => decide
  | case2 m => exact h m (List.mem_singleton_self m)
  | case3 m next rest ih =>
    obtain ⟨hm, hrest⟩ := List.forall_mem_cons.mp h
    refine (hm.append ?_).append (ih hrest)
    split <;> decide

end Modifier

-- ---------------------------------------------------------------------------
-- Arguments
-- ---------------------------------------------------------------------------

namespace Call

variable {e : Element}

theorem complete_lambda (h : Complete code) : Complete (lambda code) :=
  .wrap (wraps_ofList (by decide) : Wraps "\x7b " " \x7d") h

theorem Fixed.complete (kind : Fixed) : ∀ code ∈ kind.codes, Complete code := by
  cases kind <;>
    repeat first
      | exact List.forall_mem_nil _
      | refine List.forall_mem_cons.mpr ⟨complete_ofList (by decide), ?_⟩

theorem Form.complete (he : e.NamesResources) (h : Form e.properties widget a) :
    Complete a.2 := by
  cases h with
  | fixed kind hcode => exact kind.complete _ hcode
  | count n => exact complete_int n
  | size n => exact (complete_int n).append (complete_ofList (by decide))
  | cells n => exact (complete_int n).wrap (wraps_ofList (by decide))
  | literal x => exact complete_literal x
  | progress x => exact complete_lambda (complete_literal x)
  | task => exact complete_lambda (complete_todo _)
  | text _ hp => exact e.complete_textCode he (Properties.mem_of_get? hp)
  | label hp =>
    have htext := e.complete_textCode he (Properties.mem_of_get? hp)
    exact complete_lambda (htext.wrap (wraps_ofList (by decide) : Wraps "Text(" ")"))
  | color hp => exact e.complete_colorCode he (Properties.mem_of_get? hp)
  | painter => exact e.complete_painter he

/-- Whatever a layout holds, the arguments of its calls are complete. -/
theorem complete_arguments (he : e.NamesResources) (widget : Widget) :
    ∀ a ∈ (ofWidget widget e.properties).arguments, Complete a.1 ∧ Complete a.2 :=
  fun a ha => ⟨complete_word (isWord_key ha), ((formed_arguments widget _).form a ha).complete he⟩

end Call

-- ---------------------------------------------------------------------------
-- Lines of calls
-- ---------------------------------------------------------------------------

namespace Line

variable {base level : Nat} {call : Call} {chain : List Modifier}

theorem turns_contentLines {e : Element} (he : e.NamesResources) (widget : Widget) :
    Turns [] (written base (contentLines level (Call.ofWidget widget e.properties))) [] := by
  unfold contentLines
  split
  case h_1 content hcontent =>
    rcases Call.content_cases hcontent with ⟨p, hp, rfl⟩ | ⟨text, htext, rfl⟩
    · have hlabel := e.complete_textCode he (Properties.mem_of_get? hp)
      exact turns_split (hlabel.wrap (wraps_ofList (by decide) : Wraps "Text(" ")"))
    · rw [split_of_isLine (.append (Text.isLine_ofList (by decide)) htext.isLine) (by simp)]
      exact turns_comment htext.isLine
  case h_2 => exact ⟨rfl, rfl⟩

theorem complete_argumentLines {texts : List String} (h : ∀ text ∈ texts, Complete text) :
    ∀ line ∈ argumentLines level more texts, Complete line.text := by
  have hcomma : Complete "," := complete_ofList (by decide)
  exact forall_argumentLines fun text htext => ⟨h text htext, (h text htext).append hcomma⟩

theorem complete_modifierLines (h : ∀ m ∈ chain, Complete m.code) :
    ∀ line ∈ modifierLines level chain, Complete line.text := by
  have hstart : Complete "modifier = Modifier" := complete_ofList (by decide)
  exact forall_modifierLines hstart (hstart.append (Modifier.complete_inlineCode h))
    h

/-- The brackets that the head of a call leaves open. -/
def Block.due : Block → List Char
  | .filled => ['\x7d']
  | .absent | .empty => []

theorem complete_composable (c : Composable) : Complete c.name := by
  cases c <;> exact complete_ofList (by decide)

theorem turns_headLines (hcall : ∀ a ∈ call.arguments, Complete a.1 ∧ Complete a.2)
    (hchain : ∀ m ∈ chain, Complete m.code) (block : Block) :
    Turns [] (written base (headLines level call chain block)) block.due := by
  have hname := complete_composable call.composable
  unfold headLines
  split
  · have hopen : Turns [] "(" [')'] := by decide
    have hclose : Turns [')'] block.afterArguments block.due := by cases block <;> decide
    have htexts : ∀ text ∈ argumentTexts call, Complete text := by
      intro text htext
      obtain ⟨a, ha, rfl⟩ := List.mem_map.mp htext
      obtain ⟨hkey, hcode⟩ := hcall a ha
      exact (hkey.append (by decide)).append hcode
    have hfirst : Turns [] (written base [⟨level, call.composable.name ++ "("⟩]) [')'] :=
      turns_line (hname.toTurns.append hopen)
    have harguments : Turns [')'] (written base
        (argumentLines (level + 1) (!chain.isEmpty) (argumentTexts call))) [')'] :=
      turns_complete (complete_argumentLines htexts)
    have hmodifiers : Turns [')'] (written base (modifierLines (level + 1) chain)) [')'] :=
      turns_complete (complete_modifierLines hchain)
    exact turns_append (turns_append (turns_append (a := [_]) hfirst harguments) hmodifiers)
      (turns_line hclose)
  · have hafter : Turns [] block.afterName block.due := by cases block <;> decide
    exact turns_line (hname.toTurns.append hafter)

theorem turns_ofCall (hcall : ∀ a ∈ call.arguments, Complete a.1 ∧ Complete a.2)
    (hchain : ∀ m ∈ chain, Complete m.code)
    (hcontent : Turns [] (written base (contentLines (level + 1) call)) [])
    (hbody : Turns [] (written base body) []) :
    Turns [] (written base (ofCall level call chain body)) [] := by
  have hclose : Turns ['\x7d'] "\x7d" [] := by decide
  simp only [ofCall]
  generalize Block.of call body.isEmpty = block
  have hhead : Turns [] (written base (headLines level call chain block)) block.due :=
    turns_headLines hcall hchain block
  cases block with
  | filled =>
    -- the brace of the block stays due throughout the block
    have hcontent := hcontent.frame ['\x7d']
    have hbody := hbody.frame ['\x7d']
    rw [if_pos rfl]
    exact turns_append hhead (turns_append (turns_append hcontent hbody) (turns_line hclose))
  | absent | empty => simpa [Block.due] using hhead

-- ---------------------------------------------------------------------------
-- Trees
-- ---------------------------------------------------------------------------

theorem ofBody_append (level : Nat) (a b : List Stmt) :
    ofBody level (a ++ b) = ofBody level a ++ ofBody level b := by
  induction a with
  | nil => rfl
  | cons s a ih => simp [ofBody, ih]

theorem turns_ofBody_append (ha : Turns [] (written base (ofBody level a)) [])
    (hb : Turns [] (written base (ofBody level b)) []) :
    Turns [] (written base (ofBody level (a ++ b))) [] := by
  rw [ofBody_append]
  exact turns_append ha hb

theorem turns_ofBody_comment {text : String} (h : Text.IsLine text) :
    Turns [] (written base (ofBody level [.comment text])) [] :=
  turns_comment h

theorem turns_ofBody_wrap (items : Bool)
    (h : ∀ level, Turns [] (written base (ofBody level body)) []) :
    Turns [] (written base (ofBody level (Stmt.wrap items body))) [] := by
  unfold Stmt.wrap
  split
  · have hopen : Turns [] "item \x7b" ['\x7d'] := by decide
    have hclose : Turns ['\x7d'] "\x7d" [] := by decide
    have hbody := (h (level + 1)).frame ['\x7d']
    simp only [ofBody, ofStmt, List.append_nil]
    exact turns_append (turns_append (a := [_]) (turns_line hopen) hbody) (turns_line hclose)
  · exact h level

theorem unbroken_includeComment (e : Element) : Text.Unbroken (Stmt.includeComment e) := by
  unfold Stmt.includeComment
  split
  case h_1 layout _ =>
    have hstart : Text.Unbroken "TODO: <include layout=\"" := Text.unbroken_ofList (by decide)
    have hmiddle : Text.Unbroken
        "\"/> - call the composable converted from that layout, e.g. " :=
      Text.unbroken_ofList (by decide)
    exact (((hstart.append (Comment.unbroken_oneLine layout)).append hmiddle).append
      (Name.unbroken_camelCase _)).append (Text.unbroken_ofList (by decide))
  case h_2 => exact Text.unbroken_ofList (by decide)

theorem unbroken_fragmentComment (e : Element) : Text.Unbroken (Stmt.fragmentComment e) := by
  have hname : Text.Unbroken
      (((e.getBare? "name").map fun n => " " ++ Comment.oneLine n).getD "") := by
    cases e.getBare? "name" with
    | none => exact Text.unbroken_ofList (by decide)
    | some name => exact .append (Text.unbroken_ofList (by decide)) (Comment.unbroken_oneLine name)
  exact .append (.append (Text.unbroken_ofList (by decide)) hname)
    (Text.unbroken_ofList (by decide))

theorem turns_remarks (ps : Properties) (call : Call) :
    Turns [] (written base (ofBody level (Stmt.remarks ps call))) [] := by
  unfold Stmt.remarks
  induction ps.previewComments ++ call.remark.toList with
  | nil => exact ⟨rfl, rfl⟩
  | cons text texts ih =>
    exact turns_ofBody_append (a := [_])
      (turns_ofBody_comment (Comment.unbroken_oneLine text).isLine) ih

theorem turns_ofBody_ofCall {e : Element} (he : e.NamesResources)
    (hbody : ∀ level, Turns [] (written base (ofBody level body)) []) :
    Turns [] (written base (ofBody level (Stmt.ofCall e body))) [] := by
  refine turns_ofBody_append (turns_remarks _ _) ?_
  simp only [ofBody, ofStmt, List.append_nil]
  exact turns_ofCall (Call.complete_arguments he _)
    (fun m hm => (Modifier.sourced_chain _ _ m hm).complete he) (turns_contentLines he _)
    (hbody (level + 1))

mutual

theorem turns_ofElement (e : Element) (he : ∀ d, e.Contains d → d.NamesResources)
    (hok : Stmt.ofElement maxDepth depth e = .ok body) (level : Nat) :
    Turns [] (written base (ofBody level body)) [] := by
  obtain ⟨tag, attributes, children⟩ := e
  -- a call is made from the element without its children
  have hself : Element.NamesResources ⟨tag, attributes, []⟩ := he ⟨tag, attributes, children⟩ .root
  have hchildren : ∀ c ∈ children, ∀ d, c.Contains d → d.NamesResources :=
    fun c hc d hd => he d (.child hc hd)
  rw [Stmt.ofElement] at hok
  split at hok
  · cases hok
  split at hok
  case h_1 =>
    cases hok
    exact turns_ofBody_comment (unbroken_includeComment _).isLine
  case h_2 =>
    cases hok
    exact turns_ofBody_comment (unbroken_fragmentComment _).isLine
  case h_3 =>
    split at hok <;> cases hok
    case h_2 body hbody =>
      exact turns_ofBody_append (a := [_]) (turns_ofBody_comment (Text.isLine_ofList (by decide)))
        (turns_ofChildren children hchildren hbody level)
  case h_4 =>
    split at hok <;> cases hok
    case h_2 body hbody =>
      exact turns_ofBody_ofCall hself (turns_ofChildren children hchildren hbody)

theorem turns_ofChildren (children : List Element)
    (h : ∀ c ∈ children, ∀ d, c.Contains d → d.NamesResources)
    (hok : Stmt.ofChildren maxDepth depth items children = .ok body) (level : Nat) :
    Turns [] (written base (ofBody level body)) [] := by
  cases children with
  | nil =>
    cases hok
    exact ⟨rfl, rfl⟩
  | cons e rest =>
    obtain ⟨he, hrest⟩ := List.forall_mem_cons.mp h
    rw [Stmt.ofChildren] at hok
    split at hok
    · cases hok
    case h_2 first hfirst =>
      split at hok <;> cases hok
      case h_2 others hothers =>
        exact turns_ofBody_append (turns_ofBody_wrap items (turns_ofElement e he hfirst))
          (turns_ofChildren rest hrest hothers level)

end

end Line

/-- If all references to resources in a layout go on with resource names, then its code is
balanced, whatever else stands in its tags and attributes. -/
theorem Element.balanced_code {root : Element} (h : ∀ e, root.Contains e → e.NamesResources)
    (hcode : root.code maxDepth base = .ok text) : Balanced text := by
  rw [Element.code] at hcode
  split at hcode <;> cases hcode
  case h_2 body hbody => exact (Line.turns_ofElement root h hbody 0).balanced

/-- Texts that would end a literal or a comment early, next to a proper reference. -/
def awkwardLayout : Element :=
  ⟨"GridLayout", [⟨"android:background", "@color/panel_1.dark"⟩, ⟨"tools:text", "// \x7b\n("⟩], [
    ⟨"Button", [⟨"android:text", "?attr/*/ \r\n) \" \x7b"⟩, ⟨"android:layout_margin", "*/ ("⟩], []⟩,
    ⟨"TextView", [⟨"android:text", "\\\" [\" \\"⟩], []⟩,
    ⟨"include", [⟨"layout", "@layout/a\nb("⟩], []⟩]⟩

theorem awkwardLayout_balanced :
    (∀ e, awkwardLayout.Contains e → e.NamesResources) ∧
      ∃ text, awkwardLayout.code 2 1 = .ok text ∧ Balanced text := by
  have hnames : ∀ e, awkwardLayout.Contains e → e.NamesResources := by
    intro e he
    cases he with
    | root =>
      unfold Element.NamesResources
      decide
    | child hc hd =>
      simp only [awkwardLayout, List.mem_cons, List.not_mem_nil, or_false] at hc
      rcases hc with rfl | rfl | rfl <;> cases hd with
      | root =>
        unfold Element.NamesResources
        decide
      | child hc => simp at hc
  obtain ⟨text, htext⟩ : ∃ text, awkwardLayout.code 2 1 = .ok text := ⟨_, rfl⟩
  exact ⟨hnames, text, htext, Element.balanced_code hnames htext⟩

end LayoutCompose
