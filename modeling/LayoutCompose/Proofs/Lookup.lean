import LayoutCompose.Code.Import
import LayoutCompose.Code.Modifier
import LayoutCompose.Diagnostic.Check
import Mathlib.Data.List.Basic

/-!
# Views that agree on every key

Calls, modifiers and imports come from properties that are looked up under fixed keys, and no
such key has a colon in it. Views that have the same property under all keys without a colon
are therefore converted alike, whatever else they hold and in which order.
-/

namespace LayoutCompose

def Property.IsKey (key : String) : Prop := ':' ∉ key.toList

instance (key : String) : Decidable (Property.IsKey key) :=
  inferInstanceAs (Decidable (':' ∉ key.toList))

theorem Property.isKey_ofList (h : l.contains ':' = false) : IsKey (String.ofList l) := by
  rw [IsKey, String.toList_ofList]
  simpa using h

open Property (IsKey isKey_ofList)

def Properties.Agree (ps qs : Properties) : Prop :=
  ∀ key, IsKey key → ps.get? key = qs.get? key

variable {ps qs : Properties}

namespace Properties

theorem Agree.raw? (h : ps.Agree qs) (key : String) (hkey : IsKey key) :
    ps.raw? key = qs.raw? key := by
  rw [Properties.raw?, Properties.raw?, h key hkey]

theorem Agree.isTrue (h : ps.Agree qs) (key : String) (hkey : IsKey key) :
    ps.isTrue key = qs.isTrue key := by
  rw [Properties.isTrue, Properties.isTrue, h.raw? key hkey]

theorem Agree.isFalse (h : ps.Agree qs) (key : String) (hkey : IsKey key) :
    ps.isFalse key = qs.isFalse key := by
  rw [Properties.isFalse, Properties.isFalse, h.raw? key hkey]

end Properties

-- ---------------------------------------------------------------------------
-- Calls
-- ---------------------------------------------------------------------------

namespace Call

theorem isHorizontalBar_congr (h : ps.Agree qs) : isHorizontalBar ps = isHorizontalBar qs := by
  rw [isHorizontalBar, isHorizontalBar, h.raw? "style" (isKey_ofList rfl)]

theorem ofWidget_congr (h : ps.Agree qs) (widget : Widget) :
    ofWidget widget ps = ofWidget widget qs := by
  have hget : ∀ key, IsKey key → ps.get? key = qs.get? key := h
  cases widget <;> simp (disch := exact isKey_ofList rfl) only [ofWidget, column, row, frame,
    grid, text, button, image, textField, checkable, radioButton, progressBar, slider, dropdown,
    gravity, gridColumns, maxLines?, clickHandler, painter, labelRemark?, fraction?,
    isHorizontalBar_congr h, hget, h.raw?, h.isTrue]

end Call

-- ---------------------------------------------------------------------------
-- Modifiers
-- ---------------------------------------------------------------------------

namespace Modifier

theorem dimension?_congr (h : ps.Agree qs) (key : String) (hkey : IsKey key) :
    dimension? ps key = dimension? qs key := by
  rw [dimension?, dimension?, h.raw? key hkey]

theorem number?_congr (h : ps.Agree qs) (key : String) (hkey : IsKey key) :
    number? ps key = number? qs key := by
  rw [number?, number?, h.raw? key hkey]

theorem findSome?_dimension?_congr (h : ps.Agree qs) {keys : List String}
    (hkeys : ∀ key ∈ keys, IsKey key) :
    keys.findSome? (dimension? ps) = keys.findSome? (dimension? qs) := by
  induction keys with
  | nil => rfl
  | cons key keys ih =>
    obtain ⟨hkey, hkeys⟩ := List.forall_mem_cons.mp hkeys
    rw [List.findSome?_cons, List.findSome?_cons, dimension?_congr h key hkey, ih hkeys]

theorem edges_congr (h : ps.Agree qs) {labels : List (String × List String)}
    (hkeys : ∀ label ∈ labels, ∀ key ∈ label.2, IsKey key) :
    edges ps labels = edges qs labels := by
  refine List.filterMap_congr ?_
  rintro ⟨label, keys⟩ hlabel
  have hfound := findSome?_dimension?_congr h (hkeys _ hlabel)
  exact congrArg (Option.map (label, ·)) hfound

theorem sizeLinks_congr (h : ps.Agree qs) : sizeLinks ps = sizeLinks qs := by
  rw [sizeLinks, sizeLinks, h.raw? "layout_width" (isKey_ofList rfl),
    h.raw? "layout_height" (isKey_ofList rfl)]

theorem paddingLinks_congr (h : ps.Agree qs) : paddingLinks ps = paddingLinks qs := by
  have haxes : edges ps axisLabels = edges qs axisLabels := edges_congr h (by decide)
  have hedges : edges ps edgeLabels = edges qs edgeLabels := edges_congr h (by decide)
  rw [paddingLinks, paddingLinks, dimension?_congr h "padding" (isKey_ofList rfl), haxes, hedges]

theorem marginLinks_congr (h : ps.Agree qs) : marginLinks ps = marginLinks qs := by
  have hkeys : ∀ key ∈ marginKeys, IsKey key := by decide
  have hmargins : margins ps = margins qs := by
    refine List.filterMap_congr fun key hkey => ?_
    rw [h.raw? key (hkeys key hkey)]
  rw [marginLinks, marginLinks, hmargins]

theorem visibilityLinks_congr (h : ps.Agree qs) : visibilityLinks ps = visibilityLinks qs := by
  rw [visibilityLinks, visibilityLinks, h.raw? "visibility" (isKey_ofList rfl)]

theorem clickLinks_congr (h : ps.Agree qs) (call : Call) :
    clickLinks ps call = clickLinks qs call := by
  have hclick := h.raw? "onClick" (isKey_ofList rfl)
  have hclickable : isClickable ps = isClickable qs := by
    rw [isClickable, isClickable, h.isTrue "clickable" (isKey_ofList rfl), hclick]
  rw [clickLinks, clickLinks, hclickable, hclick]

theorem scaleLinks_congr (h : ps.Agree qs) : scaleLinks ps = scaleLinks qs := by
  rw [scaleLinks, scaleLinks, number?_congr h "scaleX" (isKey_ofList rfl),
    number?_congr h "scaleY" (isKey_ofList rfl)]

theorem borderLinks_congr (h : ps.Agree qs) : borderLinks ps = borderLinks qs := by
  rw [borderLinks, borderLinks, h.raw? "background" (isKey_ofList rfl)]

theorem chain_congr (h : ps.Agree qs) (call : Call) : chain ps call = chain qs call := by
  have hwidths : edges ps (boundLabels "minWidth" "maxWidth") =
      edges qs (boundLabels "minWidth" "maxWidth") := edges_congr h (by decide)
  have hheights : edges ps (boundLabels "minHeight" "maxHeight") =
      edges qs (boundLabels "minHeight" "maxHeight") := edges_congr h (by decide)
  rw [chain, chain, h.raw? "visibility" (isKey_ofList rfl), sizeLinks_congr h,
    paddingLinks_congr h, marginLinks_congr h, h "background" (isKey_ofList rfl),
    visibilityLinks_congr h, clickLinks_congr h, h.isFalse "enabled" (isKey_ofList rfl),
    h.isTrue "focusable" (isKey_ofList rfl), number?_congr h "rotation" (isKey_ofList rfl),
    scaleLinks_congr h, number?_congr h "alpha" (isKey_ofList rfl), hwidths, hheights,
    h.raw? "layout_gravity" (isKey_ofList rfl), borderLinks_congr h]

end Modifier

-- ---------------------------------------------------------------------------
-- Imports
-- ---------------------------------------------------------------------------

namespace Import

theorem ofWidget_congr (h : ps.Agree qs) (widget : Widget) :
    ofWidget widget ps = ofWidget widget qs := by
  have hget : ∀ key, IsKey key → ps.get? key = qs.get? key := h
  cases widget <;> simp (disch := exact isKey_ofList rfl) only [ofWidget, ofGravity,
    styleMentions, ofTextColor, Call.isHorizontalBar_congr h, hget, h.raw?]

theorem isDimension_congr (h : ps.Agree qs) (key : String) (hkey : IsKey key) :
    isDimension ps key = isDimension qs key := by
  rw [isDimension, isDimension, h.raw? key hkey]

theorem isNumber_congr (h : ps.Agree qs) (key : String) (hkey : IsKey key) :
    isNumber ps key = isNumber qs key := by
  rw [isNumber, isNumber, h.raw? key hkey]

theorem isFill_congr (h : ps.Agree qs) (key : String) (hkey : IsKey key) :
    isFill ps key = isFill qs key := by
  rw [isFill, isFill, h.raw? key hkey]

theorem ofModifiers_congr (h : ps.Agree qs) (widget : Widget) :
    ofModifiers widget ps = ofModifiers widget qs := by
  have hget : ∀ key, IsKey key → ps.get? key = qs.get? key := h
  have hkeys : ∀ key ∈ paddingKeys, IsKey key := by decide
  have hpadding : paddingKeys.any (isDimension ps) = paddingKeys.any (isDimension qs) := by
    rw [Bool.eq_iff_iff, List.any_eq_true, List.any_eq_true]
    refine exists_congr fun key => and_congr_right fun hkey => ?_
    rw [isDimension_congr h key (hkeys key hkey)]
  simp (disch := exact isKey_ofList rfl) only [ofModifiers, ofSize, ofExtent, ofBackground,
    hpadding, isDimension_congr h, isNumber_congr h, isFill_congr h, hget, h.raw?, h.isTrue,
    h.isFalse]

end Import

-- ---------------------------------------------------------------------------
-- Findings
-- ---------------------------------------------------------------------------

namespace Check

theorem singleLineWarnings_congr (h : ps.Agree qs) (tag : String) :
    singleLineWarnings tag ps = singleLineWarnings tag qs := by
  rw [singleLineWarnings, singleLineWarnings, h "singleLine" (isKey_ofList rfl)]

theorem widgetSuggestions_congr (h : ps.Agree qs) (tag : String) (widget : Widget) :
    widgetSuggestions tag ps widget = widgetSuggestions tag qs widget := by
  have hgrid : usesGridManager ps = usesGridManager qs := by
    rw [usesGridManager, usesGridManager, h.raw? "layoutManager" (isKey_ofList rfl)]
  cases widget <;> simp only [widgetSuggestions, hgrid]

theorem weightSuggestions_congr (h : ps.Agree qs) (tag : String) (parent : Option String) :
    weightSuggestions tag ps parent = weightSuggestions tag qs parent := by
  rw [weightSuggestions, weightSuggestions, h "layout_weight" (isKey_ofList rfl)]

end Check

end LayoutCompose
