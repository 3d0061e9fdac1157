import LayoutCompose.Proofs.CallShape

/-!
# Named arguments

Every composable has its parameters in a fixed order, and a call gives some of them in that
order, so that no parameter is given twice. The modifier is none of them and comes last. The
text of a call lists exactly these arguments, each with a value.
-/

namespace LayoutCompose

open Text (IsWord isWord_ofList)

theorem Text.IsWord.isFunctionName (h : IsWord text) : Name.isFunctionName text.toList = true := by
  obtain ⟨hne, halpha⟩ := h
  cases hl : text.toList with
  | nil => exact absurd hl hne
  | cons c rest =>
    rw [hl, List.forall_mem_cons] at halpha
    simp only [Name.isFunctionName, halpha.1, Bool.true_or, Bool.true_and, List.all_eq_true]
    intro d hd
    simp [Char.isAlphanum, halpha.2 d hd]

-- ---------------------------------------------------------------------------
-- Parameters
-- ---------------------------------------------------------------------------

namespace Composable

theorem nodup_parameters (c : Composable) : c.parameters.Nodup := by
  cases c <;> decide

theorem modifier_not_mem_parameters (c : Composable) : "modifier" ∉ c.parameters := by
  cases c <;> decide

end Composable

-- ---------------------------------------------------------------------------
-- Values
-- ---------------------------------------------------------------------------

open Text (ofList_append_ne append_ofList_ne)

theorem Number.toString_int_ne (n : Int) : toString n ≠ "" := by
  cases n with
  | ofNat n =>
    have hrepr : toString (Int.ofNat n) = n.repr := rfl
    rw [hrepr]
    exact Nat.repr_ne_empty
  | negSucc n => exact ofList_append_ne _ _ _

theorem Property.colorCode_ne (p : Property) : p.colorCode ≠ "" := by
  unfold Property.colorCode
  split
  case h_1 expr _ => exact expr.code_ne
  all_goals exact ofList_append_ne _ _ _

namespace Call

theorem lambda_ne (code : String) : lambda code ≠ "" := append_ofList_ne _ _ _

theorem painter_ne (ps : Properties) : painter ps ≠ "" := by
  unfold painter
  split
  · exact ofList_append_ne _ _ _
  · split
    · exact Expr.code_ne _
    · exact Expr.code_ne _
    · exact ofList_append_ne _ _ _

theorem Form.ne (h : Form ps widget a) : a.2 ≠ "" := by
  have hcodes : ∀ kind : Fixed, "" ∉ kind.codes := by
    intro kind
    cases kind <;> decide
  cases h with
  | fixed kind hcode => exact ne_of_mem_of_not_mem hcode (hcodes kind)
  | count n => exact Number.toString_int_ne n
  | size n | cells n | literal x => exact append_ofList_ne _ _ _
  | progress x | task | label => exact lambda_ne _
  | @text _ _ p => exact p.textCode_ne
  | @color p => exact p.colorCode_ne
  | painter => exact painter_ne ps

end Call

-- ---------------------------------------------------------------------------
-- The argument list of a call
-- ---------------------------------------------------------------------------

namespace Line

def modifierCode (level : Nat) (chain : List Modifier) : String :=
  "Modifier" ++
    if Modifier.isInline chain then Modifier.inlineCode chain
    else String.join (chain.map fun m => "\n" ++ indentation (level + 1) ++ m.code)

def namedArguments (level : Nat) (call : Call) (chain : List Modifier) : List Argument :=
  call.arguments ++ if chain.isEmpty then [] else [("modifier", modifierCode level chain)]

def argumentCode (level : Nat) (a : Argument) : String :=
  indentation level ++ (a.1 ++ " = " ++ a.2)

def headCode (level : Nat) (name : String) (arguments : List Argument) (block : Block) : String :=
  if arguments.isEmpty then indentation level ++ (name ++ block.afterName) ++ "\n"
  else
    indentation level ++ (name ++ "(") ++ "\n" ++
      ",\n".intercalate (arguments.map (argumentCode (level + 1))) ++ "\n" ++
      (indentation level ++ block.afterArguments ++ "\n")

variable (base level : Nat)

theorem written_argumentLines (more : Bool) {texts : List String} (h : texts ≠ []) :
    written base (argumentLines level more texts) =
      ",\n".intercalate (texts.map (indentation (base + level) ++ ·)) ++
        (if more then ",\n" else "\n") := by
  induction texts with
  | nil => exact absurd rfl h
  | cons text rest ih =>
    rw [argumentLines, written_cons]
    cases rest with
    | nil =>
      cases more <;> simp [argumentLines, written, render, String.append_assoc]
    | cons next rest =>
      rw [ih (by simp)]
      simp [render, String.append_assoc]

/-- A line feed after each link but none before the first is one before each but none after the
last. -/
theorem feed_written (chain : List Modifier) :
    "\n" ++ written base (chain.map fun m => ⟨level, m.code⟩) =
      String.join (chain.map fun m => "\n" ++ indentation (base + level) ++ m.code) ++ "\n" := by
  induction chain with
  | nil => rfl
  | cons m chain ih =>
    rw [List.map_cons, written_cons, List.map_cons, String.join_cons, String.append_assoc, ← ih]
    simp only [render, String.append_assoc]

theorem written_modifierLines {chain : List Modifier} (h : chain ≠ []) :
    written base (modifierLines level chain) =
      argumentCode (base + level) ("modifier", modifierCode (base + level) chain) ++ "\n" := by
  have hlead : "modifier = Modifier" = "modifier" ++ " = " ++ "Modifier" := rfl
  rw [modifierLines, if_neg (by simpa using h)]
  split
  · rename_i hinline
    rw [written_singleton, render, argumentCode, modifierCode, if_pos hinline, hlead]
    simp only [String.append_assoc]
  · rename_i hlong
    have hfeed := feed_written base (level + 1) chain
    rw [written_cons, render, argumentCode, modifierCode, if_neg hlong, hlead]
    simp only [String.append_assoc, Nat.add_assoc] at hfeed ⊢
    rw [hfeed]

theorem map_argumentCode (call : Call) :
    call.arguments.map (argumentCode level) =
      (argumentTexts call).map (indentation level ++ ·) := by
  rw [argumentTexts, List.map_map]
  rfl

theorem namedArguments_nil (call : Call) : namedArguments level call [] = call.arguments :=
  List.append_nil _

theorem namedArguments_of_ne (call : Call) {chain : List Modifier} (h : chain ≠ []) :
    namedArguments level call chain =
      call.arguments ++ [("modifier", modifierCode level chain)] := by
  rw [namedArguments, if_neg (by simpa using h)]

theorem hasArguments_iff (call : Call) (chain : List Modifier) :
    hasArguments call chain = true ↔ namedArguments level call chain ≠ [] := by
  cases chain with
  | nil => simp [hasArguments, namedArguments_nil]
  | cons m chain => simp [hasArguments, namedArguments_of_ne]

theorem written_namedArguments {call : Call} {chain : List Modifier}
    (h : namedArguments (base + level) call chain ≠ []) :
    written base (argumentLines level (!chain.isEmpty) (argumentTexts call) ++
        modifierLines level chain) =
      ",\n".intercalate ((namedArguments (base + level) call chain).map
        (argumentCode (base + level))) ++ "\n" := by
  rw [written_append]
  by_cases hchain : chain = []
  · subst hchain
    rw [namedArguments_nil] at h ⊢
    have htexts : argumentTexts call ≠ [] := by simpa [argumentTexts] using h
    have hmodifier : written base (modifierLines level []) = "" := rfl
    rw [written_argumentLines base level _ htexts, hmodifier, map_argumentCode, String.append_empty]
    rfl
  · have hmore : (!chain.isEmpty) = true := by simpa using hchain
    rw [namedArguments_of_ne _ call hchain, written_modifierLines base level hchain, hmore,
      List.map_append, List.map_singleton]
    by_cases harguments : call.arguments = []
    · have hnone : written base (argumentLines level true (argumentTexts call)) = "" := by
        rw [argumentTexts, harguments]
        rfl
      rw [hnone, harguments, String.empty_append]
      rfl
    · have htexts : argumentTexts call ≠ [] := by simpa [argumentTexts] using harguments
      rw [written_argumentLines base level true htexts, map_argumentCode,
        String.intercalate_append_of_ne_nil (by simpa using htexts) (by simp),
        String.intercalate_singleton, if_pos rfl]
      simp only [String.append_assoc]

theorem written_headLines (call : Call) (chain : List Modifier) (block : Block) :
    written base (headLines level call chain block) =
      headCode (base + level) call.composable.name
        (namedArguments (base + level + 1) call chain) block := by
  unfold headLines headCode
  by_cases h : namedArguments (base + level + 1) call chain = []
  · have hnone : ¬ hasArguments call chain = true := by
      rw [hasArguments_iff (base + level + 1), h]
      simp
    rw [if_neg hnone, if_pos (by simpa using h), written_singleton]
    rfl
  · have hsome := (hasArguments_iff (base + level + 1) call chain).mpr h
    rw [if_pos hsome, if_neg (by simpa using h), List.append_assoc, List.cons_append, written_cons,
      ← List.append_assoc, written_append, written_namedArguments base (level + 1) h,
      written_singleton]
    simp only [render, String.append_assoc, Nat.add_assoc]

end Line

-- ---------------------------------------------------------------------------
-- Well-named argument lists
-- ---------------------------------------------------------------------------

namespace Call

structure WellNamed (arguments : List Argument) : Prop where
  distinct : (arguments.map (·.1)).Nodup
  identifiers : ∀ a ∈ arguments, Name.isFunctionName a.1.toList = true
  filled : ∀ a ∈ arguments, a.2 ≠ ""

theorem wellNamed_arguments (widget : Widget) (ps : Properties) :
    WellNamed (ofWidget widget ps).arguments where
  distinct := (Composable.nodup_parameters _).sublist (formed_arguments widget ps).inOrder
  identifiers _ ha := (isWord_key ha).isFunctionName
  filled a ha := ((formed_arguments widget ps).form a ha).ne

theorem modifier_not_mem_arguments (widget : Widget) (ps : Properties) :
    "modifier" ∉ (ofWidget widget ps).arguments.map (·.1) :=
  fun h => Composable.modifier_not_mem_parameters _ ((formed_arguments widget ps).inOrder.subset h)

theorem WellNamed.namedArguments {call : Call} (h : WellNamed call.arguments)
    (hmodifier : "modifier" ∉ call.arguments.map (·.1)) (level : Nat) (chain : List Modifier) :
    WellNamed (Line.namedArguments level call chain) := by
  by_cases hchain : chain = []
  · rw [hchain, Line.namedArguments_nil]
    exact h
  rw [Line.namedArguments_of_ne level call hchain]
  constructor
  case distinct =>
    rw [List.map_append, List.map_singleton]
    refine List.nodup_append.mpr ⟨h.distinct, by simp, ?_⟩
    rintro key hkey other hother rfl
    obtain rfl : key = "modifier" := List.mem_singleton.mp hother
    exact hmodifier hkey
  case identifiers =>
    have hname : Name.isFunctionName "modifier".toList = true := by decide
    exact List.forall_mem_append.mpr ⟨h.identifiers, List.forall_mem_singleton.mpr hname⟩
  case filled =>
    exact List.forall_mem_append.mpr
      ⟨h.filled, List.forall_mem_singleton.mpr (Text.ofList_append_ne _ _ _)⟩

end Call

-- ---------------------------------------------------------------------------
-- Scrolling
-- ---------------------------------------------------------------------------

theorem Tag.frameworkName_scrolling (tag : String) :
    (frameworkName tag = "ScrollView" ↔ shortName tag ∈ ["ScrollView", "NestedScrollView"]) ∧
      (frameworkName tag = "HorizontalScrollView" ↔ shortName tag = "HorizontalScrollView") := by
  unfold frameworkName
  split <;> simp_all

theorem Widget.ofTag_scrolling (tag : String) :
    (ofTag tag = .scrollView ↔ Tag.shortName tag ∈ ["ScrollView", "NestedScrollView"]) ∧
      (ofTag tag = .horizontalScrollView ↔ Tag.shortName tag = "HorizontalScrollView") := by
  obtain ⟨hvertical, hhorizontal⟩ := Tag.frameworkName_scrolling tag
  rw [← hvertical, ← hhorizontal]
  unfold ofTag
  split <;> simp_all

namespace Call

def Scrolls (tag : String) : Axis → Composable → Prop
  | .vertical, composable =>
    composable = .column ∧ Tag.shortName tag ∈ ["ScrollView", "NestedScrollView"]
  | .horizontal, composable =>
    composable = .row ∧ Tag.shortName tag = "HorizontalScrollView"

theorem scroll_ofWidget (widget : Widget) (ps : Properties) (axis : Axis) :
    (ofWidget widget ps).scroll = some axis ↔
      axis = .vertical ∧ widget = .scrollView ∨
        axis = .horizontal ∧ widget = .horizontalScrollView := by
  cases widget with
  | linearLayout =>
    rw [ofWidget]
    split <;> simp [row, column]
  | scrollView | horizontalScrollView => simp [ofWidget, eq_comm]
  | _ =>
    constructor
    · intro h
      cases h
    · rintro (⟨-, ⟨⟩⟩ | ⟨-, ⟨⟩⟩)

theorem scroll_iff (tag : String) (ps : Properties) (axis : Axis) :
    (ofWidget (Widget.ofTag tag) ps).scroll = some axis ↔
      Scrolls tag axis (ofWidget (Widget.ofTag tag) ps).composable := by
  obtain ⟨hvertical, hhorizontal⟩ := Widget.ofTag_scrolling tag
  rw [scroll_ofWidget]
  cases axis with
  | vertical =>
    rw [Scrolls, ← hvertical]
    constructor
    · rintro (⟨-, htag⟩ | ⟨⟨⟩, -⟩)
      exact ⟨by rw [htag]; rfl, htag⟩
    · exact fun h => .inl ⟨rfl, h.2⟩
  | horizontal =>
    rw [Scrolls, ← hhorizontal]
    constructor
    · rintro (⟨⟨⟩, -⟩ | ⟨-, htag⟩)
      exact ⟨by rw [htag]; rfl, htag⟩
    · exact fun h => .inr ⟨rfl, h.2⟩

end Call

-- ---------------------------------------------------------------------------
-- The calls of a tree
-- ---------------------------------------------------------------------------

namespace Stmt

mutual
def calls : Stmt → List (Call × List Modifier)
  | .comment _ => []
  | .call c chain body => (c, chain) :: callsAll body
  | .item body => callsAll body
def callsAll : List Stmt → List (Call × List Modifier)
  | [] => []
  | s :: rest => s.calls ++ callsAll rest
end

theorem callsAll_append (a b : List Stmt) : callsAll (a ++ b) = callsAll a ++ callsAll b := by
  induction a with
  | nil => simp [callsAll]
  | cons s a ih => simp [callsAll, ih]

theorem callsAll_remarks (ps : Properties) (call : Call) : callsAll (remarks ps call) = [] := by
  unfold remarks
  induction ps.previewComments ++ call.remark.toList with
  | nil => rfl
  | cons text texts ih => exact ih

theorem callsAll_wrap (items : Bool) (body : List Stmt) :
    callsAll (wrap items body) = callsAll body := by
  cases items <;> simp [wrap, callsAll, calls]

def Generated (body : List Stmt) : Prop :=
  ∀ entry ∈ callsAll body, ∃ e : Element, entry = (e.call, Modifier.chain e.properties e.call)

theorem Generated.append (ha : Generated a) (hb : Generated b) : Generated (a ++ b) := by
  rw [Generated, callsAll_append, List.forall_mem_append]
  exact ⟨ha, hb⟩

theorem callsAll_ofCall (e : Element) (body : List Stmt) :
    callsAll (ofCall e body) = (e.call, Modifier.chain e.properties e.call) :: callsAll body := by
  rw [ofCall, callsAll_append, callsAll_remarks]
  simp [callsAll, calls, Element.call]

theorem generated_ofCall (e : Element) (hbody : Generated body) : Generated (ofCall e body) := by
  rw [Generated, callsAll_ofCall, List.forall_mem_cons]
  exact ⟨⟨e, rfl⟩, hbody⟩

theorem passes_generated :
    Passes (fun _ body => Generated body) (fun _ _ body => Generated body) where
  included _ := fun _ h => nomatch h
  fragment _ := fun _ h => nomatch h
  merged _ hbody := hbody
  call _ hbody := generated_ofCall _ hbody
  nil := fun _ h => nomatch h
  cons hfirst hothers := by
    refine Generated.append ?_ hothers
    rw [Generated, callsAll_wrap]
    exact hfirst

end Stmt

/-- The text of a call begins with the list of its arguments. -/
theorem Line.written_ofStmt_call (base level : Nat) (call : Call) (chain : List Modifier)
    (inner : List Stmt) :
    ∃ block rest, written base (ofStmt level (.call call chain inner)) =
      headCode (base + level) call.composable.name (namedArguments (base + level + 1) call chain)
        block ++ rest := by
  rw [ofStmt, ofCall, written_append, written_headLines]
  exact ⟨_, _, rfl⟩

/-- The call of a tag has an identifier as its name and gives different parameters, each an
identifier with a value and none the modifier; only the two kinds of scroll view scroll. Every
call of a tree is written with such a list of arguments, with its modifiers as the last. -/
theorem calls_wellNamed (tag : String) (ps : Properties) (maxDepth : Nat) (e : Element) :
    let call := Call.ofWidget (Widget.ofTag tag) ps
    (Name.isFunctionName call.composable.name.toList = true ∧ Call.WellNamed call.arguments ∧
      "modifier" ∉ call.arguments.map (·.1) ∧
      ∀ axis, call.scroll = some axis ↔ Call.Scrolls tag axis call.composable) ∧
    ∀ depth body, Stmt.ofElement maxDepth depth e = .ok body →
      ∀ c chain, (c, chain) ∈ Stmt.callsAll body → ∀ base level inner,
        Call.WellNamed (Line.namedArguments (base + level + 1) c chain) ∧
        ∃ block rest, Line.written base (Line.ofStmt level (.call c chain inner)) =
          Line.headCode (base + level) c.composable.name
            (Line.namedArguments (base + level + 1) c chain) block ++ rest := by
  refine ⟨⟨(Mark.isWord_composable _).isFunctionName, Call.wellNamed_arguments _ ps,
    Call.modifier_not_mem_arguments _ ps, Call.scroll_iff tag ps⟩, ?_⟩
  intro depth body hbody c chain hmem base level inner
  obtain ⟨d, hd⟩ := Stmt.passes_generated.ofElement e hbody (c, chain) hmem
  obtain ⟨rfl, rfl⟩ := Prod.mk.inj hd
  exact ⟨(Call.wellNamed_arguments _ _).namedArguments (Call.modifier_not_mem_arguments _ _) _ _,
    Line.written_ofStmt_call base level _ _ inner⟩

def oneLineField : Element where
  tag := "EditText"
  attributes :=
    [⟨"android:singleLine", "true"⟩, ⟨"android:maxLines", "1"⟩, ⟨"android:padding", "8dp"⟩]

theorem calls_wellNamed_oneLineField :
    Stmt.ofElement 1 1 oneLineField = .ok (Stmt.ofCall oneLineField []) ∧
      Call.WellNamed (Line.namedArguments 2 oneLineField.call
        (Modifier.chain oneLineField.properties oneLineField.call)) := by
  have hbody : Stmt.ofElement 1 1 oneLineField = .ok (Stmt.ofCall oneLineField []) := rfl
  have hmem : (oneLineField.call, Modifier.chain oneLineField.properties oneLineField.call) ∈
      Stmt.callsAll (Stmt.ofCall oneLineField []) := by
    rw [Stmt.callsAll_ofCall]
    exact List.mem_cons_self
  exact ⟨hbody, ((calls_wellNamed "EditText" [] 1 oneLineField).2 1 _ hbody _ _ hmem 1 0 []).1⟩

end LayoutCompose
