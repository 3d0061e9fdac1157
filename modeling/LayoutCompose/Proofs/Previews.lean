import LayoutCompose.Code.Import
import LayoutCompose.Code.Line
import LayoutCompose.Proofs.BalancedCode
import LayoutCompose.Proofs.Imports
import LayoutCompose.Proofs.Lookup
import LayoutCompose.Proofs.Survey
import Mathlib.Data.List.Basic

/-!
# Preview attributes leave comments only

Attributes in the `tools:` namespace are taken out of a tree by `withoutPreviews`. What looks
up a property finds the same one afterwards, so that calls, modifiers, imports and warnings stay.
The statements of the two trees are the same up to comments that stand for previews, and each
of these comments is a line of its own in the generated text.
-/

namespace LayoutCompose

-- ---------------------------------------------------------------------------
-- Properties
-- ---------------------------------------------------------------------------

namespace Properties

def visible (ps : Properties) : Properties := ps.filter (!·.isPreview)

@[simp] theorem get?_visible (ps : Properties) (key : String) :
    ps.visible.get? key = ps.get? key := by
  rw [visible, get?, get?, List.find?_filter]
  congr 1
  funext p
  cases p.isPreview <;> simp [Bool.beq_eq_decide_eq]

theorem agree_visible (ps : Properties) : ps.visible.Agree ps :=
  fun key _ => ps.get?_visible key

@[simp] theorem previewComments_visible (ps : Properties) : ps.visible.previewComments = [] := by
  simp [previewComments, visible, List.filter_filter]

end Properties

theorem Meaning.ofValue_ne_preview (value : String) : ofValue value ≠ .preview := by
  intro h
  have hsuits := h ▸ suits_ofValue value
  cases hsuits

theorem Property.isPreview_ofAttribute (a : Attribute) :
    (ofAttribute a).isPreview = Attribute.isPreview a.name := by
  rw [Attribute.isPreview, Text.startsWith_eq, ofAttribute]
  cases Text.after? "tools:" a.name with
  | some key => rfl
  | none => simp [isPreview, Meaning.ofValue_ne_preview]

-- ---------------------------------------------------------------------------
-- Elements
-- ---------------------------------------------------------------------------

namespace Element

mutual
def withoutPreviews : Element → Element
  | ⟨tag, attributes, children⟩ =>
    ⟨tag, attributes.filter (!Attribute.isPreview ·.name), withoutPreviewsAll children⟩
def withoutPreviewsAll : List Element → List Element
  | [] => []
  | e :: rest => e.withoutPreviews :: withoutPreviewsAll rest
end

@[simp] theorem tag_withoutPreviews (e : Element) : e.withoutPreviews.tag = e.tag := by
  cases e
  rw [withoutPreviews]

@[simp] theorem attributes_withoutPreviews (e : Element) :
    e.withoutPreviews.attributes = e.attributes.filter (!Attribute.isPreview ·.name) := by
  cases e
  rw [withoutPreviews]

@[simp] theorem children_withoutPreviews (e : Element) :
    e.withoutPreviews.children = withoutPreviewsAll e.children := by
  cases e
  rw [withoutPreviews]

theorem withoutPreviewsAll_append (l m : List Element) :
    withoutPreviewsAll (l ++ m) = withoutPreviewsAll l ++ withoutPreviewsAll m := by
  induction l with
  | nil => rw [withoutPreviewsAll, List.nil_append, List.nil_append]
  | cons e l ih =>
    rw [List.cons_append, withoutPreviewsAll, ih, withoutPreviewsAll, List.cons_append]

theorem properties_filter (tag : String) (attributes : List Attribute) (children : List Element) :
    (Element.mk tag (attributes.filter (!Attribute.isPreview ·.name)) children).properties =
      (Element.mk tag attributes []).properties.visible := by
  rw [properties, properties, Properties.visible, List.filter_map, List.filter_filter,
    List.filter_filter]
  congr 2
  funext a
  simp [Property.isPreview_ofAttribute, Bool.and_comm]

theorem properties_withoutPreviews (e : Element) :
    e.withoutPreviews.properties = e.properties.visible := by
  cases e
  rw [withoutPreviews, properties_filter]
  rfl

end Element

-- ---------------------------------------------------------------------------
-- Calls and modifiers
-- ---------------------------------------------------------------------------

theorem Call.ofWidget_visible (widget : Widget) (ps : Properties) :
    ofWidget widget ps.visible = ofWidget widget ps :=
  ofWidget_congr ps.agree_visible widget

theorem Modifier.chain_visible (ps : Properties) (call : Call) :
    chain ps.visible call = chain ps call :=
  chain_congr ps.agree_visible call

-- ---------------------------------------------------------------------------
-- Imports
-- ---------------------------------------------------------------------------

namespace Import

theorem ofResources_visible (ps : Properties) : ofResources ps.visible = ofResources ps := by
  rw [ofResources, ofResources, Properties.visible, List.filterMap_filter]
  congr 1
  funext p
  cases h : p.meaning <;> simp [Property.isPreview, h]

theorem ofElement_withoutPreviews (e : Element) : ofElement e.withoutPreviews = ofElement e := by
  simp only [ofElement, Element.tag_withoutPreviews, e.properties_withoutPreviews,
    ofResources_visible, ofWidget_congr e.properties.agree_visible,
    ofModifiers_congr e.properties.agree_visible]

theorem gather_withoutPreviews (pending : List Element) (found : List Import) :
    gather (Element.withoutPreviewsAll pending) found = gather pending found := by
  fun_induction gather pending found with
  | case1 found => rw [Element.withoutPreviewsAll, gather]
  | case2 e pending found h ih | case3 e pending found h ih =>
    rw [Element.withoutPreviewsAll, gather, Element.tag_withoutPreviews, h]
    exact ih
  | case4 e pending found h ih =>
    rw [Element.withoutPreviewsAll, gather, Element.tag_withoutPreviews, h,
      Element.children_withoutPreviews, ← Element.withoutPreviewsAll_append]
    exact ih
  | case5 e pending found h₁ h₂ h₃ ih =>
    rw [Element.withoutPreviewsAll, gather, Element.tag_withoutPreviews,
      Element.children_withoutPreviews, ← Element.withoutPreviewsAll_append,
      ofElement_withoutPreviews, ih]
    split
    case h_1 h => exact (h₁ h).elim
    case h_2 h => exact (h₂ h).elim
    case h_3 h => exact (h₃ h).elim
    case h_4 => rfl

theorem ofLayout_withoutPreviews (root : Element) :
    ofLayout root.withoutPreviews = ofLayout root := by
  have hgather := gather_withoutPreviews [root] always
  rw [Element.withoutPreviewsAll, Element.withoutPreviewsAll] at hgather
  rw [ofLayout, ofLayout, hgather]

end Import

-- ---------------------------------------------------------------------------
-- Warnings
-- ---------------------------------------------------------------------------

theorem Check.warnings_visible (tag : String) (ps : Properties) :
    warnings tag ps.visible = warnings tag ps := by
  have hproperties :
      ps.visible.flatMap (propertyWarnings tag) = ps.flatMap (propertyWarnings tag) := by
    induction ps with
    | nil => rfl
    | cons p ps ih =>
      rw [Properties.visible] at ih ⊢
      by_cases hp : p.isPreview = true
      · rw [List.filter_cons_of_neg (by simp [hp]), ih, List.flatMap_cons, propertyWarnings,
          if_pos hp, List.nil_append]
      · rw [List.filter_cons_of_pos (by simp [hp]), List.flatMap_cons, ih, List.flatMap_cons]
  rw [warnings, warnings, hproperties, singleLineWarnings_congr ps.agree_visible]

namespace Element

mutual
theorem warnings_inOrder_withoutPreviews (parent : Option String) (level : Nat) :
    (e : Element) → (e.withoutPreviews.inOrder parent level).flatMap (·.findings.warnings) =
      (e.inOrder parent level).flatMap (·.findings.warnings)
  | ⟨tag, attributes, children⟩ => by
    rw [withoutPreviews, inOrder, inOrder, List.flatMap_cons, List.flatMap_cons,
      warnings_inOrderAll_withoutPreviews (some tag) (level + 1) children]
    congr 1
    exact (congrArg (Check.warnings tag) (properties_filter tag attributes _)).trans
      (Check.warnings_visible tag _)
theorem warnings_inOrderAll_withoutPreviews (parent : Option String) (level : Nat) :
    (es : List Element) →
      (inOrderAll parent level (withoutPreviewsAll es)).flatMap (·.findings.warnings) =
        (inOrderAll parent level es).flatMap (·.findings.warnings)
  | [] => by rw [withoutPreviewsAll]
  | e :: es => by
    rw [withoutPreviewsAll, inOrderAll, inOrderAll, List.flatMap_append, List.flatMap_append,
      warnings_inOrder_withoutPreviews parent level e,
      warnings_inOrderAll_withoutPreviews parent level es]
end

theorem survey_warnings_withoutPreviews (root : Element) (thresholds : Thresholds) :
    (root.withoutPreviews.survey thresholds).warnings = (root.survey thresholds).warnings := by
  rw [survey_warnings, survey_warnings, warnings_inOrder_withoutPreviews]

end Element

-- ---------------------------------------------------------------------------
-- Statements
-- ---------------------------------------------------------------------------

namespace Stmt

def IsPreviewComment (text : String) : Prop :=
  Text.startsWith "tools:" text = true ∧ Text.IsLine text

/-- The same statements, but for comments on previews in the first. -/
inductive Covers : List Stmt → List Stmt → Prop
  | nil : Covers [] []
  | preview : IsPreviewComment text → Covers more fewer → Covers (comment text :: more) fewer
  | comment : Covers more fewer → Covers (comment text :: more) (comment text :: fewer)
  | call : Covers body body' → (body = [] ↔ body' = []) → Covers more fewer →
      Covers (.call c chain body :: more) (.call c chain body' :: fewer)
  | item : Covers body body' → Covers more fewer → Covers (item body :: more) (item body' :: fewer)

theorem Covers.append (h : Covers more fewer) (h' : Covers more' fewer') :
    Covers (more ++ more') (fewer ++ fewer') := by
  induction h with
  | nil => exact h'
  | preview htext _ ih => exact .preview htext ih
  | comment _ ih => exact .comment ih
  | call hbody hempty _ _ ih => exact .call hbody hempty ih
  | item hbody _ _ ih => exact .item hbody ih

theorem Covers.comments (texts : List String) (h : Covers more fewer) :
    Covers (texts.map (.comment ·) ++ more) (texts.map (.comment ·) ++ fewer) := by
  induction texts with
  | nil => exact h
  | cons text texts ih => exact .comment ih

theorem Covers.previews {texts : List String} (htexts : ∀ text ∈ texts, IsPreviewComment text)
    (h : Covers more fewer) : Covers (texts.map (.comment ·) ++ more) fewer := by
  induction texts with
  | nil => exact h
  | cons text texts ih =>
    obtain ⟨htext, htexts⟩ := List.forall_mem_cons.mp htexts
    exact .preview htext (ih htexts)

theorem isPreviewComment_oneLine (text : String) :
    IsPreviewComment (Comment.oneLine ("tools:" ++ text)) := by
  refine ⟨?_, (Comment.unbroken_oneLine _).isLine⟩
  have hfold : Comment.foldBreaks ("tools:".toList ++ text.toList) =
      "tools:".toList ++ Comment.foldBreaks text.toList := rfl
  rw [Text.startsWith, List.isPrefixOf_iff_prefix, Comment.oneLine, String.toList_append, hfold,
    String.toList_ofList, String.toList_ofList]
  exact List.prefix_append _ _

theorem isPreviewComment_of_mem {ps : Properties} (h : text ∈ ps.previewComments) :
    IsPreviewComment (Comment.oneLine text) := by
  obtain ⟨p, hp, htext⟩ := List.mem_filterMap.mp h
  have hmeaning : p.meaning = .preview := by
    simpa [Property.isPreview] using (List.mem_filter.mp hp).2
  rw [Property.comment?, hmeaning, Option.some.injEq] at htext
  rw [← htext, String.append_assoc, String.append_assoc, String.append_assoc]
  exact isPreviewComment_oneLine _

theorem remarks_eq (ps : Properties) (call : Call) :
    remarks ps call = (ps.previewComments.map Comment.oneLine).map (.comment ·) ++
      (call.remark.toList.map Comment.oneLine).map (.comment ·) := by
  rw [remarks, List.map_append, List.map_map, List.map_map]
  rfl

theorem covers_ofCall (e : Element) (hbody : Covers body body') (hempty : body = [] ↔ body' = []) :
    Covers (ofCall e body) (ofCall e.withoutPreviews body') := by
  simp only [ofCall, remarks_eq, e.tag_withoutPreviews, e.properties_withoutPreviews,
    Call.ofWidget_visible, Modifier.chain_visible, Properties.previewComments_visible, List.map_nil,
    List.nil_append, List.append_assoc]
  refine .previews ?_ (.comments _ (.call hbody hempty .nil))
  intro text htext
  obtain ⟨text, hmem, rfl⟩ := List.mem_map.mp htext
  exact isPreviewComment_of_mem hmem

theorem ofCall_ne_nil (e : Element) (body : List Stmt) : ofCall e body ≠ [] := by
  simp [ofCall]

theorem wrapsItems_withoutPreviews (e : Element) : wrapsItems e.withoutPreviews = wrapsItems e := by
  rw [wrapsItems, wrapsItems, e.tag_withoutPreviews, e.properties_withoutPreviews,
    Call.ofWidget_visible]

theorem includeComment_withoutPreviews (e : Element) :
    includeComment e.withoutPreviews = includeComment e := by
  have hlayout : e.withoutPreviews.get? "layout" = e.get? "layout" := by
    rw [Element.get?, Element.get?, e.attributes_withoutPreviews, List.find?_filter]
    congr 2
    funext a
    by_cases ha : a.name = "layout"
    · rw [ha]
      rfl
    · simp [ha]
  rw [includeComment, includeComment, hlayout]

theorem fragmentComment_withoutPreviews (e : Element) :
    fragmentComment e.withoutPreviews = fragmentComment e := by
  have hname : e.withoutPreviews.getBare? "name" = e.getBare? "name" := by
    rw [Element.getBare?, Element.getBare?, e.attributes_withoutPreviews, List.find?_filter]
    congr 2
    funext a
    cases Attribute.isPreview a.name <;> simp [Bool.beq_eq_decide_eq]
  unfold fragmentComment
  rw [hname]

/-- Two runs that fail alike, or that succeed with related results. -/
inductive SameOutcome (R : α → β → Prop) : Except ε α → Except ε β → Prop
  | error : SameOutcome R (.error fault) (.error fault)
  | ok : R a b → SameOutcome R (.ok a) (.ok b)

theorem SameOutcome.inv {R : α → β → Prop} (h : SameOutcome (ε := ε) R x y) :
    (∃ fault, x = .error fault ∧ y = .error fault) ∨ ∃ a b, x = .ok a ∧ y = .ok b ∧ R a b := by
  cases h with
  | error => exact .inl ⟨_, rfl, rfl⟩
  | ok h => exact .inr ⟨_, _, rfl, rfl, h⟩

theorem covers_wrap (items : Bool) (h : Covers more fewer) :
    Covers (wrap items more) (wrap items fewer) := by
  cases items with
  | false => exact h
  | true => exact .item h .nil

theorem wrap_ne_nil (items : Bool) (h : body ≠ []) : wrap items body ≠ [] := by
  cases items with
  | false => exact h
  | true => exact List.cons_ne_nil _ _

-- No element leaves nothing, so a block without previews is empty only if the block was.
mutual
theorem covers_ofElement (maxDepth depth : Nat) :
    (e : Element) → SameOutcome (fun body body' => Covers body body' ∧ body ≠ [] ∧ body' ≠ [])
      (ofElement maxDepth depth e) (ofElement maxDepth depth e.withoutPreviews)
  | ⟨tag, attributes, children⟩ => by
    have hchildren := fun items => covers_ofChildren maxDepth (depth + 1) items children
    have hbare : Element.mk tag (attributes.filter (!Attribute.isPreview ·.name)) [] =
        (Element.mk tag attributes []).withoutPreviews := by
      rw [Element.withoutPreviews, Element.withoutPreviewsAll]
    rw [Element.withoutPreviews, ofElement, ofElement, hbare]
    by_cases hdepth : maxDepth < depth
    · rw [if_pos hdepth, if_pos hdepth]
      exact .error
    rw [if_neg hdepth, if_neg hdepth]
    split
    case h_1 =>
      rw [includeComment_withoutPreviews]
      exact .ok ⟨.comment .nil, List.cons_ne_nil _ _, List.cons_ne_nil _ _⟩
    case h_2 =>
      rw [fragmentComment_withoutPreviews]
      exact .ok ⟨.comment .nil, List.cons_ne_nil _ _, List.cons_ne_nil _ _⟩
    case h_3 =>
      obtain ⟨fault, h, h'⟩ | ⟨body, body', h, h', hbody⟩ := (hchildren false).inv <;> rw [h, h']
      · exact .error
      · exact .ok ⟨.comment hbody.1, List.cons_ne_nil _ _, List.cons_ne_nil _ _⟩
    case h_4 =>
      rw [wrapsItems_withoutPreviews]
      obtain ⟨fault, h, h'⟩ | ⟨body, body', h, h', hbody⟩ := (hchildren (wrapsItems _)).inv <;>
        rw [h, h']
      · exact .error
      · exact .ok ⟨covers_ofCall _ hbody.1 hbody.2, ofCall_ne_nil _ _, ofCall_ne_nil _ _⟩
theorem covers_ofChildren (maxDepth depth : Nat) (items : Bool) :
    (es : List Element) →
      SameOutcome (fun body body' => Covers body body' ∧ (body = [] ↔ body' = []))
      (ofChildren maxDepth depth items es)
      (ofChildren maxDepth depth items (Element.withoutPreviewsAll es))
  | [] => by
    rw [Element.withoutPreviewsAll, ofChildren]
    exact .ok ⟨.nil, .rfl⟩
  | e :: es => by
    have hhead := covers_ofElement maxDepth depth e
    have hrest := covers_ofChildren maxDepth depth items es
    rw [Element.withoutPreviewsAll, ofChildren, ofChildren]
    obtain ⟨fault, h, h'⟩ | ⟨first, first', h, h', hfirst⟩ := hhead.inv <;> rw [h, h']
    · exact .error
    obtain ⟨fault, h, h'⟩ | ⟨others, others', h, h', hothers⟩ := hrest.inv <;> rw [h, h']
    · exact .error
    · refine .ok ⟨(covers_wrap items hfirst.1).append hothers.1, ?_⟩
      simp [wrap_ne_nil items hfirst.2.1, wrap_ne_nil items hfirst.2.2]
end

end Stmt

-- ---------------------------------------------------------------------------
-- Text
-- ---------------------------------------------------------------------------

namespace Text

/-- Whether `// tools:` comes first in a line, blank characters apart. -/
def isPreviewLine (line : List Char) : Bool :=
  "// tools:".toList.isPrefixOf (line.dropWhile isBlank)

def keptLines (text : String) : List (List Char) :=
  (text.toList.splitOn '\n').filter (!isPreviewLine ·)

def withoutPreviewLines (text : String) : String :=
  String.ofList (['\n'].intercalate (keptLines text))

theorem keptLines_append (line rest : String) :
    keptLines (line ++ "\n" ++ rest) = keptLines line ++ keptLines rest := by
  have htext : (line ++ "\n" ++ rest).toList = line.toList ++ '\n' :: rest.toList := by simp
  rw [keptLines, htext, List.splitOn_append_cons_self, List.filter_append]
  rfl

end Text

namespace Line

def kept (base : Nat) (line : Line) : List (List Char) :=
  Text.keptLines (indentation (base + line.level) ++ line.text)

theorem keptLines_written (base : Nat) (lines : List Line) :
    Text.keptLines (written base lines) = lines.flatMap (kept base) ++ [[]] := by
  induction lines with
  | nil => rfl
  | cons line lines ih =>
    rw [written_cons, render, Text.keptLines_append, ih, List.flatMap_cons, List.append_assoc]
    rfl

theorem kept_preview (base level : Nat) {comment : String} (h : Stmt.IsPreviewComment comment) :
    kept base ⟨level, "// " ++ comment⟩ = [] := by
  obtain ⟨hstart, hline⟩ := h
  have hchars : (indentation (base + level) ++ ("// " ++ comment)).toList =
      List.replicate (4 * (base + level)) ' ' ++ "// ".toList ++ comment.toList := by
    simp [indentation]
  have hfree : '\n' ∉
      List.replicate (4 * (base + level)) ' ' ++ "// ".toList ++ comment.toList := by
    rw [← hchars]
    have hindent : Text.IsLine (indentation (base + level)) := fun h => by
      simpa using mem_indentation h
    exact hindent.append (.append (Text.isLine_ofList (by decide)) hline)
  have hblank : Text.isPreviewLine
      (List.replicate (4 * (base + level)) ' ' ++ "// ".toList ++ comment.toList) = true := by
    rw [Text.isPreviewLine, List.append_assoc, List.dropWhile_append_of_pos,
      List.isPrefixOf_iff_prefix]
    · exact (List.prefix_append_right_inj "// ".toList).mpr (List.isPrefixOf_iff_prefix.mp hstart)
    · intro c hc
      rw [List.eq_of_mem_replicate hc]
      decide
  rw [kept, Text.keptLines, hchars, List.splitOn_eq_singleton hfree,
    List.filter_cons_of_neg (by rw [hblank]; decide), List.filter_nil]

theorem ofStmt_ne_nil (level : Nat) (s : Stmt) : ofStmt level s ≠ [] := by
  cases s with
  | comment text => simp [ofStmt]
  | call c chain body =>
    rw [ofStmt, ofCall, headLines]
    split <;> simp
  | item body => simp [ofStmt]

theorem isEmpty_ofBody (level : Nat) (body : List Stmt) :
    (ofBody level body).isEmpty = body.isEmpty := by
  cases body with
  | nil => rw [ofBody]; rfl
  | cons s body =>
    rw [ofBody]
    simp [ofStmt_ne_nil]

theorem kept_ofBody (base : Nat) (h : Stmt.Covers more fewer) (level : Nat) :
    (ofBody level more).flatMap (kept base) = (ofBody level fewer).flatMap (kept base) := by
  induction h generalizing level with
  | nil => rfl
  | preview htext _ ih =>
    rw [ofBody, ofStmt, List.flatMap_append, List.flatMap_singleton, kept_preview base level htext,
      List.nil_append, ih]
  | comment _ ih => rw [ofBody, ofBody, List.flatMap_append, List.flatMap_append, ih]
  | @call body body' more fewer c chain _ hempty _ ihbody ih =>
    have hblock : (ofBody (level + 1) body).isEmpty = (ofBody (level + 1) body').isEmpty := by
      rw [isEmpty_ofBody, isEmpty_ofBody, Bool.eq_iff_iff, List.isEmpty_iff, List.isEmpty_iff,
        hempty]
    rw [ofBody, ofBody, List.flatMap_append, List.flatMap_append, ih, ofStmt, ofStmt, ofCall,
      ofCall, hblock]
    simp only [List.flatMap_append]
    split <;> simp [ihbody]
  | item _ _ ihbody ih =>
    simp [ofBody, ofStmt, ih, ihbody]

end Line

namespace Element

theorem code_withoutPreviews (e : Element) (maxDepth base : Nat) :
    (e.withoutPreviews.code maxDepth base).map Text.withoutPreviewLines =
      (e.code maxDepth base).map Text.withoutPreviewLines := by
  have hbodies := Stmt.covers_ofElement maxDepth 1 e
  obtain ⟨fault, h, h'⟩ | ⟨body, body', h, h', hbody⟩ := hbodies.inv <;> rw [code, code, h, h']
  refine congrArg (fun lines => Except.ok (String.ofList (['\n'].intercalate lines))) ?_
  calc Text.keptLines (Line.written base (Line.ofBody 0 body'))
    _ = (Line.ofBody 0 body').flatMap (Line.kept base) ++ [[]] := Line.keptLines_written base _
    _ = (Line.ofBody 0 body).flatMap (Line.kept base) ++ [[]] := by
      rw [Line.kept_ofBody base hbody.1 0]
    _ = Text.keptLines (Line.written base (Line.ofBody 0 body)) :=
      (Line.keptLines_written base _).symm

/-- Preview attributes change nothing but comments of their own: trees that differ in them
alone have the same imports and warnings, and code that is rejected alike or is the same text
apart from lines that begin with `// tools:`. -/
theorem generated_eq_of_withoutPreviews_eq (a b : Element)
    (h : a.withoutPreviews = b.withoutPreviews) :
    Import.ofLayout a = Import.ofLayout b ∧ Import.needsOptIn a = Import.needsOptIn b ∧
    (∀ thresholds, (a.survey thresholds).warnings = (b.survey thresholds).warnings) ∧
    ∀ maxDepth base, (a.code maxDepth base).map Text.withoutPreviewLines =
      (b.code maxDepth base).map Text.withoutPreviewLines := by
  have himports : Import.ofLayout a = Import.ofLayout b := by
    rw [← Import.ofLayout_withoutPreviews a, h, Import.ofLayout_withoutPreviews]
  refine ⟨himports, ?_, fun thresholds => ?_, fun maxDepth base => ?_⟩
  · rw [Import.needsOptIn, Import.needsOptIn, himports]
  · rw [← a.survey_warnings_withoutPreviews, h, b.survey_warnings_withoutPreviews]
  · rw [← a.code_withoutPreviews, h, b.code_withoutPreviews]

def previewedLayout : Element :=
  ⟨"LinearLayout", [⟨"tools:context", "a\n)"⟩],
    [⟨"TextView", [⟨"tools:te\nxt", "b"⟩, ⟨"android:text", "Hi"⟩, ⟨"tools:text", "c\r\n]"⟩], []⟩]⟩

def unpreviewedLayout : Element :=
  ⟨"LinearLayout", [], [⟨"TextView", [⟨"android:text", "Hi"⟩], []⟩]⟩

theorem previewedLayout_code :
    previewedLayout.withoutPreviews = unpreviewedLayout.withoutPreviews ∧
      (previewedLayout.code 2 1).map Text.withoutPreviewLines =
        (unpreviewedLayout.code 2 1).map Text.withoutPreviewLines := by
  have h : previewedLayout.withoutPreviews = unpreviewedLayout.withoutPreviews := rfl
  exact ⟨h, (generated_eq_of_withoutPreviews_eq previewedLayout unpreviewedLayout h).2.2.2 2 1⟩

end Element

end LayoutCompose
