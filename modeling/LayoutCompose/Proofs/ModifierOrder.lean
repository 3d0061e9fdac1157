import LayoutCompose.Proofs.CodeForms
import LayoutCompose.Proofs.ModifierImports
import Mathlib.Data.List.Forall2

/-!
# The order of a modifier chain

A chain has a place for every kind of modifier. Each place is filled at most once, the places stand
in one order, and the properties of the view decide which of them are filled and with which text.
-/

namespace LayoutCompose.Modifier

inductive Slot where
  | width
  | height
  /-- The same padding everywhere, or one for each axis. -/
  | padding
  | edgePadding
  | margin
  | scroll
  | background
  | invisible
  | click
  | disabled
  | focus
  | rotation
  | scale
  | opacity
  | widthBounds
  | heightBounds
  | gravity
  | border
  deriving DecidableEq, Repr

namespace Slot

open Import (isFill isDimension isNumber)

def order : List Slot := [
  width, height, padding, edgePadding, margin, scroll, background, invisible, click, disabled,
  focus, rotation, scale, opacity, widthBounds, heightBounds, gravity, border]

def Labelled (labels : List String) (edges : List Edge) : Prop :=
  edges ≠ [] ∧ (edges.map (·.1)).Sublist labels

def Holds : Slot → Modifier → Prop
  | width, m => m = .fillMaxSize ∨ m = .fillMaxWidth ∨ ∃ d, m = .width d
  | height, m => m = .fillMaxHeight ∨ ∃ d, m = .height d
  | padding, m =>
    (∃ d, m = .padding d) ∨
      ∃ edges, m = .edgePadding edges ∧ Labelled ["horizontal", "vertical"] edges
  | edgePadding, m =>
    ∃ edges, m = .edgePadding edges ∧ Labelled ["start", "top", "end", "bottom"] edges
  | margin, m => ∃ text, m = .task ("margin (" ++ text)
  | scroll, m => ∃ axis, m = .scroll axis
  | background, m =>
    (∃ color, m = .background color) ∨
      ∃ lead ∈ ["background ", "background drawable ", "gradient background "],
        ∃ text, m = .task (lead ++ text)
  | invisible, m => m = .alpha "0f"
  | click, m => ∃ comment, m = .clickable comment
  | disabled, m => m = .alpha "0.6f"
  | focus, m => m = .focusable
  | rotation, m => ∃ degrees, m = .rotate degrees
  | scale, m => (∃ factor, m = .scale factor) ∨ ∃ x y, m = .scaleAxes x y
  | opacity, m => ∃ x : Number.Binary64, m = .alpha x.literal
  | widthBounds, m => ∃ bounds, m = .widthIn bounds ∧ Labelled ["min", "max"] bounds
  | heightBounds, m => ∃ bounds, m = .heightIn bounds ∧ Labelled ["min", "max"] bounds
  | gravity, m => ∃ text, m = .task ("layout_gravity=\"" ++ text)
  | border, m => ∃ text, m = .task ("border from " ++ text)

def edgesText (ps : Properties) (labels : List (String × List String)) : String :=
  ", ".intercalate ((edges ps labels).map fun edge => edge.1 ++ " = " ++ edge.2.code)

/-- The text in a place, with the values that the properties give for it. -/
def Reads (ps : Properties) (call : Call) : Slot → String → Prop
  | width, text =>
    isFill ps "layout_width" = true ∧
        text = (if isFill ps "layout_height" then ".fillMaxSize()" else ".fillMaxWidth()") ∨
      ∃ d ∈ dimension? ps "layout_width", text = ".width(" ++ d.code ++ ")"
  | height, text =>
    isFill ps "layout_height" = true ∧ text = ".fillMaxHeight()" ∨
      ∃ d ∈ dimension? ps "layout_height", text = ".height(" ++ d.code ++ ")"
  | padding, text =>
    (∃ d ∈ dimension? ps "padding", text = ".padding(" ++ d.code ++ ")") ∨
      dimension? ps "padding" = none ∧ text = ".padding(" ++ edgesText ps axisLabels ++ ")"
  | edgePadding, text => text = ".padding(" ++ edgesText ps edgeLabels ++ ")"
  | margin, text =>
    text = Comment.todo ("margin (" ++ ", ".intercalate (margins ps) ++
      ") - add spacing in the parent (Spacer or Arrangement.spacedBy)")
  | scroll, text =>
    call.scroll = some .vertical ∧ text = ".verticalScroll(rememberScrollState())" ∨
      call.scroll = some .horizontal ∧ text = ".horizontalScroll(rememberScrollState())"
  | background, text =>
    ∃ p ∈ ps.get? "background",
      (∃ color, p.meaning = .code color ∧ color.isColor = true ∧
        text = ".background(" ++ color.code ++ ")") ∨
      ∃ lead ∈ ["background ", "background drawable ", "gradient background "], ∃ advice,
        text = Comment.todo (lead ++ p.raw ++ advice)
  | invisible, text => text = ".alpha(0f)"
  | click, text =>
    (∃ handler ∈ ps.raw? "onClick",
        text = ".clickable \x7b " ++ Comment.todo ("call " ++ handler ++ "()") ++ " \x7d") ∨
      ps.raw? "onClick" = none ∧
        text = ".clickable \x7b " ++ Comment.todo "handle click" ++ " \x7d"
  | disabled, text => text = ".alpha(0.6f)"
  | focus, text => text = ".focusable()"
  | rotation, text => ∃ x ∈ number? ps "rotation", text = ".rotate(" ++ x.literal ++ ")"
  | scale, text =>
    (∃ x ∈ number? ps "scaleX", ∃ y ∈ number? ps "scaleY",
        x.sameValue y = true ∧ text = ".scale(" ++ x.literal ++ ")") ∨
      text = ".scale(scaleX = " ++ ((number? ps "scaleX").getD .one).literal ++
        ", scaleY = " ++ ((number? ps "scaleY").getD .one).literal ++ ")"
  | opacity, text => ∃ x ∈ number? ps "alpha", text = ".alpha(" ++ x.literal ++ ")"
  | widthBounds, text =>
    text = ".widthIn(" ++ edgesText ps (boundLabels "minWidth" "maxWidth") ++ ")"
  | heightBounds, text =>
    text = ".heightIn(" ++ edgesText ps (boundLabels "minHeight" "maxHeight") ++ ")"
  | gravity, text =>
    ∃ value ∈ ps.raw? "layout_gravity", text = Comment.todo
      ("layout_gravity=\"" ++ value ++ "\" - use Modifier.align(...) inside the parent scope")
  | border, text =>
    ∃ value ∈ ps.raw? "background", text = Comment.todo
      ("border from " ++ value ++ " - use .border(1.dp, color, shape)")

def Fits (ps : Properties) (call : Call) (slot : Slot) (m : Modifier) : Prop :=
  slot.Holds m ∧ slot.Reads ps call m.code

/-- Whether the properties of a view and its call have something for a place. -/
def isWanted (ps : Properties) (call : Call) : Slot → Bool
  | width => isFill ps "layout_width" || isDimension ps "layout_width"
  | height =>
    if isFill ps "layout_height" then !isFill ps "layout_width" else isDimension ps "layout_height"
  | padding => ["padding", "paddingHorizontal", "paddingVertical"].any (isDimension ps)
  | edgePadding =>
    !isDimension ps "padding" &&
      ["paddingStart", "paddingLeft", "paddingTop", "paddingEnd", "paddingRight",
        "paddingBottom"].any (isDimension ps)
  | margin => marginKeys.any fun key => (ps.raw? key).isSome
  | scroll => call.scroll.isSome
  | background => (ps.raw? "background").isSome
  | invisible => ps.raw? "visibility" == some "invisible"
  | click => (ps.isTrue "clickable" || (ps.raw? "onClick").isSome) && !call.hasArgument "onClick"
  | disabled => ps.isFalse "enabled"
  | focus => ps.isTrue "focusable"
  | rotation => isNumber ps "rotation"
  | scale => ["scaleX", "scaleY"].any (isNumber ps)
  | opacity => isNumber ps "alpha"
  | widthBounds => ["minWidth", "maxWidth"].any (isDimension ps)
  | heightBounds => ["minHeight", "maxHeight"].any (isDimension ps)
  | gravity => (ps.raw? "layout_gravity").isSome
  | border => (ps.raw? "background").any isOutline

end Slot

-- ---------------------------------------------------------------------------
-- Filling places
-- ---------------------------------------------------------------------------

/-- The links are, one for one, modifiers of the places that are wanted. -/
def Fills (ps : Properties) (call : Call) (slots : List Slot) (links : List Modifier) : Prop :=
  List.Forall₂ (Slot.Fits ps call) (slots.filter (Slot.isWanted ps call)) links

variable {ps : Properties} {call : Call} {slot : Slot}

theorem Fills.append (ha : Fills ps call a x) (hb : Fills ps call b y) :
    Fills ps call (a ++ b) (x ++ y) := by
  rw [Fills, List.filter_append]
  exact List.rel_append ha hb

theorem fills_none (h : slot.isWanted ps call = false) : Fills ps call [slot] [] := by
  simp [Fills, h]

theorem fills_one (h : slot.isWanted ps call = true) (hm : slot.Fits ps call m) :
    Fills ps call [slot] [m] := by
  simp [Fills, h, hm]

theorem fills_ite {condition : Bool} (h : slot.isWanted ps call = condition)
    (hm : slot.Fits ps call m) : Fills ps call [slot] (if condition then [m] else []) := by
  cases condition with
  | false => exact fills_none h
  | true => exact fills_one h hm

theorem fills_toList {o : Option α} {link : α → Modifier} (h : slot.isWanted ps call = o.isSome)
    (hlink : ∀ a, o = some a → slot.Fits ps call (link a)) :
    Fills ps call [slot] (o.map link).toList := by
  cases o with
  | none => exact fills_none h
  | some a => exact fills_one h (hlink a rfl)

theorem Fills.exists_slot (h : Fills ps call slots links) (hm : m ∈ links) :
    ∃ slot ∈ slots, slot.Holds m := by
  obtain ⟨i, hi, rfl⟩ := List.getElem_of_mem hm
  have hslot := h.length_eq ▸ hi
  exact ⟨_, List.mem_of_mem_filter (List.getElem_mem hslot), (h.get hslot hi).1⟩

theorem labelled_edges {labels : List (String × List String)} (h : edges ps labels ≠ []) :
    Slot.Labelled (labels.map (·.1)) (edges ps labels) := by
  refine ⟨h, ?_⟩
  clear h
  induction labels with
  | nil => exact .slnil
  | cons label labels ih =>
    obtain ⟨name, keys⟩ := label
    cases hfind : keys.findSome? (dimension? ps) with
    | none =>
      simp only [edges, List.filterMap_cons, hfind, Option.map_none]
      exact ih.cons _
    | some d =>
      simp only [edges, List.filterMap_cons, hfind, Option.map_some]
      exact ih.cons_cons _

theorem fills_edgeLink {labels : List (String × List String)} {link : List Edge → Modifier}
    (h : slot.isWanted ps call = (labels.flatMap (·.2)).any (Import.isDimension ps))
    (hlink : Slot.Labelled (labels.map (·.1)) (edges ps labels) →
      slot.Fits ps call (link (edges ps labels))) :
    Fills ps call [slot] (edgeLink link (edges ps labels)) := by
  have hempty := isEmpty_edges ps labels
  rw [← h] at hempty
  cases hwanted : slot.isWanted ps call with
  | false =>
    rw [edgeLink, if_pos (by simp [hempty, hwanted])]
    exact fills_none hwanted
  | true =>
    rw [hwanted] at hempty
    rw [edgeLink, if_neg (by simp [hempty])]
    exact fills_one hwanted (hlink (labelled_edges (by simpa using hempty)))

-- ---------------------------------------------------------------------------
-- The parts of a chain
-- ---------------------------------------------------------------------------

theorem fills_extent {link : Extent → Modifier} (key : String)
    (hwanted : slot.isWanted ps call = (Import.isFill ps key || Import.isDimension ps key))
    (hfill : Import.isFill ps key = true → slot.Fits ps call (link .fill))
    (hfixed : ∀ d, dimension? ps key = some d → slot.Fits ps call (link (.fixed d))) :
    Fills ps call [slot] ((Extent.read? (ps.raw? key)).map link).toList := by
  rcases read?_cases ps key with ⟨hfills, hread⟩ | ⟨hfills, hgiven, d, hread⟩ |
    ⟨hfills, hgiven, hread⟩
  · rw [hread]
    exact fills_one (by simp [hwanted, hfills]) (hfill hfills)
  · have hd := dimension?_of_extent hread
    rw [hread]
    exact fills_one (by simp [hwanted, hgiven]) (hfixed d hd)
  · rw [hread]
    exact fills_none (by simp [hwanted, hfills, hgiven])

theorem isFill_iff (ps : Properties) (key : String) :
    Import.isFill ps key = true ↔ Extent.read? (ps.raw? key) = some .fill := by
  rcases read?_cases ps key with ⟨hfills, hread⟩ | ⟨hfills, -, d, hread⟩ | ⟨hfills, -, hread⟩ <;>
    simp [hfills, hread]

theorem fills_sizeLinks (ps : Properties) (call : Call) :
    Fills ps call [.width, .height] (sizeLinks ps) := by
  unfold sizeLinks
  split
  case h_1 hwidth hheight =>
    rw [← isFill_iff] at hwidth hheight
    have hfirst : Fills ps call [.width] [fillMaxSize] :=
      fills_one (by simp [Slot.isWanted, hwidth])
        ⟨.inl rfl, .inl ⟨hwidth, (if_pos hheight).symm⟩⟩
    have hsecond : Fills ps call [.height] [] :=
      fills_none (by simp [Slot.isWanted, hwidth, hheight])
    exact hfirst.append hsecond
  case h_2 hboth =>
    rw [← isFill_iff, ← isFill_iff] at hboth
    refine (fills_extent "layout_width" rfl ?_ fun d hd => ?_).append
      (fills_extent "layout_height" ?_ ?_ fun d hd => ?_)
    · exact fun hwidth => ⟨.inr (.inl rfl), .inl ⟨hwidth, (if_neg (hboth hwidth)).symm⟩⟩
    · exact ⟨.inr (.inr ⟨d, rfl⟩), .inr ⟨d, hd, rfl⟩⟩
    · cases hheight : Import.isFill ps "layout_height" with
      | false => simp [Slot.isWanted, hheight]
      | true =>
        have hwidth : Import.isFill ps "layout_width" = false :=
          Bool.eq_false_iff.mpr fun hwidth => hboth hwidth hheight
        simp [Slot.isWanted, hheight, hwidth]
    · exact fun hheight => ⟨.inl rfl, .inl ⟨hheight, rfl⟩⟩
    · exact ⟨.inr ⟨d, rfl⟩, .inr ⟨d, hd, rfl⟩⟩

theorem fills_paddingLinks (ps : Properties) (call : Call) :
    Fills ps call [.padding, .edgePadding] (paddingLinks ps) := by
  cases hpadding : dimension? ps "padding" with
  | none =>
    have hnone : Import.isDimension ps "padding" = false := by
      rw [← isSome_dimension?, hpadding]; rfl
    rw [paddingLinks, hpadding]
    refine (fills_edgeLink ?_ fun h => ?_).append (fills_edgeLink ?_ fun h => ?_)
    · simp [Slot.isWanted, axisLabels, hnone]
    · exact ⟨.inr ⟨_, rfl, h⟩, .inr ⟨hpadding, rfl⟩⟩
    · simp [Slot.isWanted, edgeLabels, hnone]
    · exact ⟨⟨_, rfl, h⟩, rfl⟩
  | some d =>
    have hsome : Import.isDimension ps "padding" = true := by
      rw [← isSome_dimension?, hpadding]; rfl
    have hfirst : Fills ps call [.padding] [padding d] :=
      fills_one (by simp [Slot.isWanted, hsome]) ⟨.inl ⟨d, rfl⟩, .inl ⟨d, hpadding, rfl⟩⟩
    have hsecond : Fills ps call [.edgePadding] [] := fills_none (by simp [Slot.isWanted, hsome])
    rw [paddingLinks, hpadding]
    exact hfirst.append hsecond

theorem fills_marginLinks (ps : Properties) (call : Call) :
    Fills ps call [.margin] (marginLinks ps) := by
  have hempty : (margins ps).isEmpty = !Slot.isWanted ps call .margin := by
    rw [Bool.eq_iff_iff]
    simp [margins, Slot.isWanted, List.filterMap_eq_nil_iff]
  rw [marginLinks, hempty]
  cases hwanted : Slot.isWanted ps call .margin with
  | false => exact fills_none hwanted
  | true => exact fills_one hwanted ⟨⟨_, congrArg task (String.append_assoc ..)⟩, rfl⟩

theorem fits_scroll (haxis : call.scroll = some axis) :
    Slot.Fits ps call .scroll (scroll axis) := by
  refine ⟨⟨axis, rfl⟩, ?_⟩
  cases axis with
  | vertical => exact .inl ⟨haxis, rfl⟩
  | horizontal => exact .inr ⟨haxis, rfl⟩

theorem fits_backgroundLink (hp : ps.get? "background" = some p) :
    Slot.Fits ps call .background (backgroundLink p) := by
  unfold backgroundLink
  split
  case h_1 expr hcode =>
    split
    case isTrue hcolor => exact ⟨.inl ⟨expr, rfl⟩, p, hp, .inl ⟨expr, hcode, hcolor, rfl⟩⟩
    case isFalse =>
      split <;> exact ⟨.inr ⟨_, by simp, _, congrArg task (String.append_assoc ..)⟩, p, hp,
        .inr ⟨_, by simp, _, rfl⟩⟩
  case h_2 =>
    exact ⟨.inr ⟨_, by simp, _, rfl⟩, p, hp,
      .inr ⟨"background ", by simp, "", congrArg Comment.todo String.append_empty.symm⟩⟩

theorem fills_clickLinks (ps : Properties) (call : Call) :
    Fills ps call [.click] (clickLinks ps call) := by
  refine fills_ite rfl ⟨⟨_, rfl⟩, ?_⟩
  split
  case h_1 handler hraw => exact .inl ⟨handler, hraw, rfl⟩
  case h_2 hraw => exact .inr ⟨hraw, rfl⟩

theorem fills_scaleLinks (ps : Properties) (call : Call) :
    Fills ps call [.scale] (scaleLinks ps) := by
  have hwanted : Slot.isWanted ps call .scale =
      ((number? ps "scaleX").isSome || (number? ps "scaleY").isSome) := by
    simp [Slot.isWanted, Import.isNumber, number?]
  unfold scaleLinks
  split
  case h_1 hx hy => exact fills_none (by simp [hwanted, hx, hy])
  case h_2 x y hx hy =>
    have hwanted : Slot.isWanted ps call .scale = true := by simp [hwanted, hx]
    split
    case isTrue hsame =>
      exact fills_one hwanted ⟨.inl ⟨_, rfl⟩, .inl ⟨x, hx, y, hy, hsame, rfl⟩⟩
    case isFalse =>
      refine fills_one hwanted ⟨.inr ⟨_, _, rfl⟩, .inr ?_⟩
      rw [hx, hy]
      rfl
  case h_3 hnone hboth =>
    refine fills_one ?_ ⟨.inr ⟨_, _, rfl⟩, .inr rfl⟩
    cases hx : number? ps "scaleX" with
    | some x => simp [hwanted, hx]
    | none =>
      have hy : number? ps "scaleY" ≠ none := fun hy => hnone hx hy
      simp [hwanted, Option.isSome_iff_ne_none, hy]

theorem fills_borderLinks (ps : Properties) (call : Call) :
    Fills ps call [.border] (borderLinks ps) := by
  unfold borderLinks
  cases hraw : ps.raw? "background" with
  | none => exact fills_none (by simp [Slot.isWanted, hraw])
  | some value =>
    exact fills_ite (by simp [Slot.isWanted, hraw])
      ⟨⟨_, congrArg task (String.append_assoc ..)⟩, value, hraw, rfl⟩

/-- A chain starts with the size and the padding, and goes on with the places after these. -/
theorem chain_eq (h : ps.raw? "visibility" ≠ some "gone") (call : Call) :
    ∃ rest, chain ps call = sizeLinks ps ++ (paddingLinks ps ++ rest) ∧
      Fills ps call (Slot.order.drop 4) rest := by
  rw [chain, if_neg (by simpa using h)]
  simp only [List.append_assoc]
  refine ⟨_, rfl, ?_⟩
  have hscroll : Fills ps call [.scroll] (call.scroll.map scroll).toList :=
    fills_toList rfl fun _ => fits_scroll
  have hbackground :
      Fills ps call [.background] ((ps.get? "background").map backgroundLink).toList :=
    fills_toList (by simp [Slot.isWanted, Properties.raw?]) fun _ => fits_backgroundLink
  have hinvisible : Fills ps call [.invisible] (visibilityLinks ps) :=
    fills_ite rfl ⟨rfl, rfl⟩
  have hdisabled : Fills ps call [.disabled]
      (if ps.isFalse "enabled" then [alpha "0.6f"] else []) :=
    fills_ite rfl ⟨rfl, rfl⟩
  have hfocus : Fills ps call [.focus] (if ps.isTrue "focusable" then [focusable] else []) :=
    fills_ite rfl ⟨rfl, rfl⟩
  have hrotation : Fills ps call [.rotation] ((number? ps "rotation").map rotate).toList :=
    fills_toList rfl fun x hx => ⟨⟨x, rfl⟩, x, hx, rfl⟩
  have hopacity :
      Fills ps call [.opacity] ((number? ps "alpha").map fun x => alpha x.literal).toList :=
    fills_toList rfl fun x hx => ⟨⟨x, rfl⟩, x, hx, rfl⟩
  have hwidth : Fills ps call [.widthBounds]
      (edgeLink widthIn (edges ps (boundLabels "minWidth" "maxWidth"))) :=
    fills_edgeLink rfl fun hbounds => ⟨⟨_, rfl, hbounds⟩, rfl⟩
  have hheight : Fills ps call [.heightBounds]
      (edgeLink heightIn (edges ps (boundLabels "minHeight" "maxHeight"))) :=
    fills_edgeLink rfl fun hbounds => ⟨⟨_, rfl, hbounds⟩, rfl⟩
  have hgravity : Fills ps call [.gravity] ((ps.raw? "layout_gravity").map gravityLink).toList :=
    fills_toList rfl fun value hvalue =>
      ⟨⟨_, congrArg task (String.append_assoc ..)⟩, value, hvalue, rfl⟩
  exact (fills_marginLinks ps call).append <| hscroll.append <| hbackground.append <|
    hinvisible.append <| (fills_clickLinks ps call).append <| hdisabled.append <|
    hfocus.append <| hrotation.append <| (fills_scaleLinks ps call).append <| hopacity.append <|
    hwidth.append <| hheight.append <| hgravity.append <| fills_borderLinks ps call

theorem fills_chain (h : ps.raw? "visibility" ≠ some "gone") (call : Call) :
    Fills ps call Slot.order (chain ps call) := by
  obtain ⟨rest, hchain, hrest⟩ := chain_eq h call
  rw [hchain]
  exact (fills_sizeLinks ps call).append ((fills_paddingLinks ps call).append hrest)

-- ---------------------------------------------------------------------------
-- Sizes and paddings
-- ---------------------------------------------------------------------------

def isSize : Modifier → Bool
  | fillMaxSize | fillMaxWidth | fillMaxHeight | width _ | height _ => true
  | _ => false

def isPadding : Modifier → Bool
  | padding _ | edgePadding _ => true
  | _ => false

theorem Slot.mem_of_isSize (hm : m.isSize = true) (h : slot.Holds m) :
    slot ∈ [Slot.width, Slot.height] := by
  cases m <;> cases hm <;> cases slot <;> simp [Holds] at h ⊢

theorem Slot.mem_of_isPadding (hm : m.isPadding = true) (h : slot.Holds m) :
    slot ∈ [Slot.padding, Slot.edgePadding] := by
  cases m <;> cases hm <;> cases slot <;> simp [Holds] at h ⊢

/-- Links of some places hold no modifier that belongs to others. -/
theorem Fills.not_mem {own : List Slot} (h : Fills ps call slots links)
    (hown : ∀ slot : Slot, slot.Holds m → slot ∈ own) (hother : ∀ slot ∈ slots, slot ∉ own) :
    m ∉ links := by
  intro hm
  obtain ⟨slot, hslot, hholds⟩ := h.exists_slot hm
  exact hother slot hslot (hown slot hholds)

theorem mem_sizeLinks (hgone : ps.raw? "visibility" ≠ some "gone") (hm : m ∈ chain ps call)
    (hsize : m.isSize = true) : m ∈ sizeLinks ps := by
  obtain ⟨rest, hchain, hrest⟩ := chain_eq hgone call
  have hlater := (fills_paddingLinks ps call).append hrest
  rw [hchain, List.mem_append] at hm
  exact hm.resolve_right (hlater.not_mem (fun _ => Slot.mem_of_isSize hsize) (by decide))

theorem mem_paddingLinks (hgone : ps.raw? "visibility" ≠ some "gone") (hm : m ∈ chain ps call)
    (hpadding : m.isPadding = true) : m ∈ paddingLinks ps := by
  obtain ⟨rest, hchain, hrest⟩ := chain_eq hgone call
  have hown : ∀ slot : Slot, slot.Holds m → slot ∈ [Slot.padding, Slot.edgePadding] :=
    fun _ => Slot.mem_of_isPadding hpadding
  rw [hchain, List.mem_append, List.mem_append] at hm
  exact (hm.resolve_left ((fills_sizeLinks ps call).not_mem hown (by decide))).resolve_right
    (hrest.not_mem hown (by decide))

theorem mem_chain_of_mem_sizeLinks (hgone : ps.raw? "visibility" ≠ some "gone")
    (hm : m ∈ sizeLinks ps) : m ∈ chain ps call := by
  obtain ⟨rest, hchain, -⟩ := chain_eq hgone call
  rw [hchain]
  exact List.mem_append_left _ hm

theorem fillMaxSize_mem_sizeLinks_iff (ps : Properties) :
    fillMaxSize ∈ sizeLinks ps ↔
      Import.isFill ps "layout_width" = true ∧ Import.isFill ps "layout_height" = true := by
  rcases read?_cases ps "layout_width" with ⟨hwf, hw⟩ | ⟨hwf, hwd, d, hw⟩ | ⟨hwf, hwd, hw⟩ <;>
  rcases read?_cases ps "layout_height" with ⟨hhf, hh⟩ | ⟨hhf, hhd, d, hh⟩ | ⟨hhf, hhd, hh⟩ <;>
  simp [sizeLinks, widthLink, heightLink, *]

theorem sizeLinks_cases (ps : Properties) :
    sizeLinks ps = [fillMaxSize] ∨
      fillMaxSize ∉ sizeLinks ps ∧
        ¬ (fillMaxWidth ∈ sizeLinks ps ∧ fillMaxHeight ∈ sizeLinks ps) := by
  rcases read?_cases ps "layout_width" with ⟨hwf, hw⟩ | ⟨hwf, hwd, d, hw⟩ | ⟨hwf, hwd, hw⟩ <;>
  rcases read?_cases ps "layout_height" with ⟨hhf, hh⟩ | ⟨hhf, hhd, d, hh⟩ | ⟨hhf, hhd, hh⟩ <;>
  simp [sizeLinks, widthLink, heightLink, *]

theorem edgePadding_not_mem_of_padding_mem (h : padding d ∈ paddingLinks ps) (edges : List Edge) :
    edgePadding edges ∉ paddingLinks ps := by
  rw [paddingLinks] at h ⊢
  cases hpadding : dimension? ps "padding" with
  | some d' => simp
  | none =>
    simp only [hpadding, edgeLink] at h
    split at h <;> split at h <;> simp at h

-- ---------------------------------------------------------------------------
-- Segments
-- ---------------------------------------------------------------------------

/-- A link that reads like one which fills an axis or both is that link. -/
theorem eq_of_code_eq (hm : m ∈ [fillMaxSize, fillMaxWidth, fillMaxHeight])
    (h : n.code = m.code) : n = m := by
  simp only [List.mem_cons, List.not_mem_nil, or_false] at hm
  have hsecond : m.code.toList.tail.head? = some 'f' := by
    rcases hm with rfl | rfl | rfl <;> decide
  have hn : ∀ l, n ≠ alpha l := by
    rintro l rfl
    have halpha : (".alpha(" ++ l ++ ")").toList.tail.head? = some 'a' := by simp
    rw [← h] at hsecond
    cases hsecond.symm.trans halpha
  have hplain : ∀ l, m ≠ alpha l := by
    rintro l rfl
    simp at hm
  have hnames : n.functions.map Import.name = m.functions.map Import.name :=
    (calledNames_code fun l hl => (hn l hl).elim).symm.trans
      ((congrArg calledNames h).trans (calledNames_code fun l hl => (hplain l hl).elim))
  have hmem : ∀ f ∈ m.functions, f ∈ n.functions := by
    intro f hf
    rw [← name_mem_functions (functions_subset m hf), hnames]
    exact List.mem_map_of_mem hf
  rcases hm with rfl | rfl | rfl <;> have hf := hmem _ List.mem_cons_self <;> cases n with
  | scroll axis => cases axis <;> simp [functions] at hf
  | _ => simp [functions] at hf ⊢

theorem code_mem_segments_iff (hm : m ∈ [fillMaxSize, fillMaxWidth, fillMaxHeight])
    {links : List Modifier} : m.code ∈ links.map code ↔ m ∈ links := by
  constructor
  · intro h
    obtain ⟨n, hn, hcode⟩ := List.mem_map.mp h
    exact eq_of_code_eq hm hcode ▸ hn
  · exact List.mem_map_of_mem

/-- The texts of the segments, place for place. -/
theorem segments_read (h : ps.raw? "visibility" ≠ some "gone") (call : Call) :
    List.Forall₂ (Slot.Reads ps call) (Slot.order.filter (Slot.isWanted ps call))
      ((chain ps call).map code) := by
  rw [List.forall₂_map_right_iff]
  exact (fills_chain h call).imp fun _ _ => And.right

/-- A view that is gone has one segment. In any other chain the segments stand, one for one and in
order, in the places that the properties ask for; a size that fills both axes is the only size, and
a padding of all edges the only padding. -/
theorem chain_inSlots (ps : Properties) (call : Call) :
    (ps.raw? "visibility" = some "gone" → (chain ps call).map code = [".size(0.dp)"]) ∧
    (ps.raw? "visibility" ≠ some "gone" →
      List.Forall₂ Slot.Holds (Slot.order.filter (Slot.isWanted ps call)) (chain ps call) ∧
      (".fillMaxSize()" ∈ (chain ps call).map code ↔
        ∀ key ∈ ["layout_width", "layout_height"],
          ps.raw? key = some "match_parent" ∨ ps.raw? key = some "fill_parent") ∧
      (".fillMaxSize()" ∈ (chain ps call).map code →
        ∀ m ∈ chain ps call, m.isSize = true → m = fillMaxSize) ∧
      ¬ (".fillMaxWidth()" ∈ (chain ps call).map code ∧
        ".fillMaxHeight()" ∈ (chain ps call).map code) ∧
      ∀ d edges, padding d ∈ chain ps call → edgePadding edges ∉ chain ps call) := by
  refine ⟨fun hgone => ?_, fun hgone => ⟨?_, ?_, ?_, ?_, ?_⟩⟩
  · rw [chain, if_pos (by simpa using hgone)]
    rfl
  · exact (fills_chain hgone call).imp fun _ _ => And.left
  · have hsegment : ".fillMaxSize()" ∈ (chain ps call).map code ↔ fillMaxSize ∈ sizeLinks ps :=
      (code_mem_segments_iff (m := fillMaxSize) (by simp)).trans
        ⟨fun h => mem_sizeLinks hgone h rfl, mem_chain_of_mem_sizeLinks hgone⟩
    rw [hsegment, fillMaxSize_mem_sizeLinks_iff]
    simp [Import.isFill]
  · intro hsegment m hm hsize
    have hfill := (code_mem_segments_iff (m := fillMaxSize) (by simp)).mp hsegment
    have hm := mem_sizeLinks hgone hm hsize
    rcases sizeLinks_cases ps with heq | ⟨hnot, -⟩
    · simpa [heq] using hm
    · exact (hnot (mem_sizeLinks hgone hfill rfl)).elim
  · rintro ⟨hwidth, hheight⟩
    have hwidth := (code_mem_segments_iff (m := fillMaxWidth) (by simp)).mp hwidth
    have hheight := (code_mem_segments_iff (m := fillMaxHeight) (by simp)).mp hheight
    have hwidth := mem_sizeLinks hgone hwidth rfl
    have hheight := mem_sizeLinks hgone hheight rfl
    rcases sizeLinks_cases ps with heq | ⟨-, hnot⟩
    · simp [heq] at hwidth
    · exact hnot ⟨hwidth, hheight⟩
  · intro d edges hpadding hedges
    exact edgePadding_not_mem_of_padding_mem (mem_paddingLinks hgone hpadding rfl) edges
      (mem_paddingLinks hgone hedges rfl)

def hiddenBanner : Element :=
  ⟨"ImageView", [
    ⟨"android:clickable", "true"⟩,
    ⟨"android:layout_height", "fill_parent"⟩,
    ⟨"android:padding", "8dp"⟩,
    ⟨"android:paddingTop", "4dp"⟩,
    ⟨"android:visibility", "invisible"⟩,
    ⟨"android:layout_width", "match_parent"⟩], []⟩

def goneBanner : Element :=
  ⟨"ImageView", [⟨"android:padding", "8dp"⟩, ⟨"android:visibility", "gone"⟩], []⟩

theorem chain_inSlots_banners :
    hiddenBanner.properties.raw? "visibility" ≠ some "gone" ∧
      List.Forall₂ Slot.Holds [.width, .padding, .invisible, .click]
        (chain hiddenBanner.properties hiddenBanner.call) ∧
      goneBanner.properties.raw? "visibility" = some "gone" ∧
      (chain goneBanner.properties goneBanner.call).map code = [".size(0.dp)"] := by
  have hraw : hiddenBanner.properties.raw? "visibility" = some "invisible" := rfl
  have hhidden : hiddenBanner.properties.raw? "visibility" ≠ some "gone" := by
    rw [hraw]
    decide
  have hgone : goneBanner.properties.raw? "visibility" = some "gone" := rfl
  have hslots : Slot.order.filter (Slot.isWanted hiddenBanner.properties hiddenBanner.call) =
      [.width, .padding, .invisible, .click] := rfl
  exact ⟨hhidden, hslots ▸ ((chain_inSlots _ _).2 hhidden).1, hgone, (chain_inSlots _ _).1 hgone⟩

end LayoutCompose.Modifier
