import LayoutCompose.Proofs.Lookup
import LayoutCompose.Proofs.Previews
import Mathlib.Data.List.Forall2
import Mathlib.Data.List.Perm.Basic

/-!
# The order of attributes

Attributes may be written in any order as long as their bare names differ and previews keep the
order among themselves. Every look-up then finds the attribute that it found before, so that
the code, the imports and the suggestions of a layout stay, and only warnings on one element may
change places.
-/

namespace LayoutCompose

variable {a b : Element}

/-- A look-up that at most one entry answers does not depend on the order. -/
theorem find?_eq_of_perm {l m : List α} (h : l.Perm m)
    (hunique : ∀ x ∈ l, ∀ y ∈ l, p x = true → p y = true → x = y) : l.find? p = m.find? p := by
  cases hl : l.find? p with
  | none =>
    rw [List.find?_eq_none] at hl
    symm
    rw [List.find?_eq_none]
    exact fun x hx => hl x (h.mem_iff.mpr hx)
  | some x =>
    have hx := List.mem_of_find?_eq_some hl
    obtain ⟨y, hm⟩ : ∃ y, m.find? p = some y := by
      rw [← Option.isSome_iff_exists, List.find?_isSome]
      exact ⟨x, h.mem_iff.mp hx, List.find?_some hl⟩
    have hy := h.mem_iff.mpr (List.mem_of_find?_eq_some hm)
    rw [hm, hunique x hx y hy (List.find?_some hl) (List.find?_some hm)]

-- ---------------------------------------------------------------------------
-- Attributes
-- ---------------------------------------------------------------------------

theorem Text.toList_of_after? (h : after? lead s = some rest) :
    s.toList = lead.toList ++ rest.toList := by
  rw [after?_eq_some_iff.mp h, String.toList_append]

namespace Attribute

theorem bareName_of_isKey (h : Property.IsKey s) : bareName s = s := by
  have hnone : s.toList.dropWhile (· != ':') = [] := by
    rw [List.dropWhile_eq_nil_iff]
    intro c hc
    rw [bne_iff_ne]
    rintro rfl
    exact h hc
  rw [bareName, hnone]

theorem bareName_of_after? (space : List Char) (hspace : ':' ∉ space)
    (hlead : lead.toList = space ++ [':']) (h : Text.after? lead s = some key) :
    bareName s = key := by
  have hdrop : s.toList.dropWhile (· != ':') = ':' :: key.toList := by
    rw [Text.toList_of_after? h, hlead, List.append_assoc, List.singleton_append,
      List.dropWhile_append_of_pos, List.dropWhile_cons_of_neg (by decide)]
    intro c hc
    rw [bne_iff_ne]
    rintro rfl
    exact hspace hc
  rw [bareName, hdrop]
  exact String.ofList_toList

theorem isPreview_of_isKey (h : Property.IsKey s) : isPreview s = false := by
  rw [isPreview, Text.startsWith_eq, Option.isSome_eq_false_iff, Option.isNone_iff_eq_none]
  cases hafter : Text.after? "tools:" s with
  | none => rfl
  | some rest =>
    rw [Property.IsKey, Text.toList_of_after? hafter] at h
    exact (h (List.mem_append_left _ (by decide))).elim

/-- A property is looked up under the bare name of its attribute. -/
theorem bareName_eq_key {a : Attribute} (hpreview : isPreview a.name = false)
    (hkey : Property.IsKey (Property.ofAttribute a).key) :
    bareName a.name = (Property.ofAttribute a).key := by
  rw [isPreview, Text.startsWith_eq, Option.isSome_eq_false_iff, Option.isNone_iff_eq_none] at hpreview
  rw [Property.ofAttribute, hpreview] at hkey ⊢
  cases handroid : Text.after? "android:" a.name with
  | some key => exact bareName_of_after? "android".toList (by decide) rfl handroid
  | none =>
    cases happ : Text.after? "app:" a.name with
    | some key => exact bareName_of_after? "app".toList (by decide) rfl happ
    | none =>
      simp only [handroid, happ] at hkey
      exact bareName_of_isKey hkey

/-- The same attributes in another order. Previews stay in order among themselves, and the bare
names of all others differ. -/
structure Reordered (old new : List Attribute) : Prop where
  perm : old.Perm new
  previews : old.filter (isPreview ·.name) = new.filter (isPreview ·.name)
  distinct : ((old.filter (!isPreview ·.name)).map (bareName ·.name)).Nodup

theorem Reordered.symm (h : Reordered old new) : Reordered new old where
  perm := h.perm.symm
  previews := h.previews.symm
  distinct := ((h.perm.filter _).map _).nodup_iff.mp h.distinct

/-- A look-up by bare name finds the same attribute in either order. -/
theorem Reordered.find?_eq {p : Attribute → Bool} (h : Reordered old new) (bare : String)
    (hp : ∀ a, p a = true → isPreview a.name = false ∧ bareName a.name = bare) :
    old.find? p = new.find? p := by
  refine find?_eq_of_perm h.perm fun x hx y hy hpx hpy => ?_
  obtain ⟨hx', hbare⟩ := hp x hpx
  obtain ⟨hy', hbare'⟩ := hp y hpy
  exact List.inj_on_of_nodup_map h.distinct (List.mem_filter.mpr ⟨hx, by simp [hx']⟩)
    (List.mem_filter.mpr ⟨hy, by simp [hy']⟩) (hbare.trans hbare'.symm)

end Attribute

-- ---------------------------------------------------------------------------
-- Elements
-- ---------------------------------------------------------------------------

namespace Element

inductive Reordered : Element → Element → Prop
  | node {tag : String} {old new : List Attribute} {before after : List Element} :
      Attribute.Reordered old new → List.Forall₂ Reordered before after →
      Reordered ⟨tag, old, before⟩ ⟨tag, new, after⟩

/-- A relation between reordered trees passes from all pairs of children to their parents. -/
theorem Reordered.induct {P : Element → Element → Prop}
    (node : ∀ tag old new before after, Attribute.Reordered old new →
      List.Forall₂ Reordered before after → List.Forall₂ P before after →
      P ⟨tag, old, before⟩ ⟨tag, new, after⟩) :
    ∀ {a b}, Reordered a b → P a b :=
  @Reordered.rec (fun a b _ => P a b) (fun before after _ => List.Forall₂ P before after)
    (fun hattributes hchildren ih => node _ _ _ _ _ hattributes hchildren ih)
    .nil (fun _ _ first rest => .cons first rest)

namespace Reordered

theorem tag_eq (h : a.Reordered b) : a.tag = b.tag := by
  cases h
  rfl

theorem attributes (h : a.Reordered b) : Attribute.Reordered a.attributes b.attributes := by
  cases h with
  | node hattributes => exact hattributes

theorem children (h : a.Reordered b) : List.Forall₂ Reordered a.children b.children := by
  cases h with
  | node _ hchildren => exact hchildren

theorem symm (h : a.Reordered b) : b.Reordered a := by
  refine induct (P := fun a b => b.Reordered a) ?_ h
  intro tag old new before after hattributes _ ih
  exact .node hattributes.symm ih.flip

theorem properties_perm (h : a.Reordered b) : a.properties.Perm b.properties :=
  (h.attributes.perm.filter _).map _

/-- Each key leads to the same property, as it determines the bare name. -/
theorem agree (h : a.Reordered b) : a.properties.Agree b.properties := by
  intro key hkey
  simp only [properties, Properties.get?, List.find?_map, List.find?_filter]
  rw [h.attributes.find?_eq key]
  intro x hx
  simp only [Function.comp_apply, Property.isPreview_ofAttribute, decide_eq_true_eq,
    Bool.and_eq_true, beq_iff_eq, Bool.not_eq_true'] at hx
  obtain ⟨-, rfl, hpreview⟩ := hx
  exact ⟨hpreview, Attribute.bareName_eq_key hpreview hkey⟩

theorem previewComments_eq (h : a.Reordered b) :
    a.properties.previewComments = b.properties.previewComments := by
  have hpreview : Property.isPreview ∘ Property.ofAttribute = (Attribute.isPreview ·.name) :=
    funext Property.isPreview_ofAttribute
  simp only [Properties.previewComments, properties, List.filter_map, hpreview]
  rw [List.filter_comm, h.attributes.previews, List.filter_comm]

theorem get?_eq (h : a.Reordered b) (hkey : Property.IsKey key) : a.get? key = b.get? key := by
  rw [get?, get?, h.attributes.find?_eq key]
  intro x hx
  obtain rfl := beq_iff_eq.mp hx
  exact ⟨Attribute.isPreview_of_isKey hkey, Attribute.bareName_of_isKey hkey⟩

theorem getBare?_eq (h : a.Reordered b) (bare : String) : a.getBare? bare = b.getBare? bare := by
  rw [getBare?, getBare?, h.attributes.find?_eq bare]
  intro x hx
  simpa using hx

end Reordered

end Element

-- ---------------------------------------------------------------------------
-- Statements
-- ---------------------------------------------------------------------------

namespace Stmt

open Property (isKey_ofList)

theorem includeComment_congr (h : a.Reordered b) : includeComment a = includeComment b := by
  rw [includeComment, includeComment, h.get?_eq (isKey_ofList rfl)]

theorem fragmentComment_congr (h : a.Reordered b) : fragmentComment a = fragmentComment b := by
  rw [fragmentComment, fragmentComment, h.getBare?_eq]

theorem wrapsItems_congr (h : a.Reordered b) : wrapsItems a = wrapsItems b := by
  rw [wrapsItems, wrapsItems, h.tag_eq, Call.ofWidget_congr h.agree]

theorem ofCall_congr (h : a.Reordered b) (body : List Stmt) : ofCall a body = ofCall b body := by
  simp only [ofCall, remarks, h.tag_eq, h.previewComments_eq, Call.ofWidget_congr h.agree,
    Modifier.chain_congr h.agree]

theorem ofChildren_congr {before after : List Element}
    (h : List.Forall₂ (fun a b => ∀ depth, ofElement maxDepth depth a = ofElement maxDepth depth b)
      before after) (depth : Nat) (items : Bool) :
    ofChildren maxDepth depth items before = ofChildren maxDepth depth items after := by
  induction h with
  | nil => rfl
  | cons hfirst _ ih => rw [ofChildren, ofChildren, hfirst, ih]

theorem ofElement_congr (h : a.Reordered b) (maxDepth depth : Nat) :
    ofElement maxDepth depth a = ofElement maxDepth depth b := by
  refine Element.Reordered.induct
    (P := fun a b => ∀ depth, ofElement maxDepth depth a = ofElement maxDepth depth b) ?_ h depth
  intro tag old new before after hattributes _ ih depth
  -- All but the block comes from the tag and the attributes.
  have hleaf : Element.Reordered ⟨tag, old, []⟩ ⟨tag, new, []⟩ := .node hattributes .nil
  rw [ofElement, ofElement]
  simp only [includeComment_congr hleaf, fragmentComment_congr hleaf, wrapsItems_congr hleaf,
    ofCall_congr hleaf, ofChildren_congr ih]

end Stmt

theorem Element.code_congr {a b : Element} (h : a.Reordered b) (maxDepth base : Nat) :
    a.code maxDepth base = b.code maxDepth base := by
  rw [code, code, Stmt.ofElement_congr h]

-- ---------------------------------------------------------------------------
-- Imports
-- ---------------------------------------------------------------------------

theorem exists_mem_of_forall₂ {l : List α} {m : List β} (h : List.Forall₂ R l m) (hx : x ∈ l) :
    ∃ y ∈ m, R x y := by
  induction h with
  | nil => exact nomatch hx
  | cons hfirst _ ih =>
    rcases List.mem_cons.mp hx with rfl | hx
    · exact ⟨_, List.mem_cons_self, hfirst⟩
    · obtain ⟨y, hy, hxy⟩ := ih hx
      exact ⟨y, List.mem_cons_of_mem _ hy, hxy⟩

theorem Element.Reordered.visits {a b d : Element} (h : a.Reordered b) (hvisits : a.Visits d) :
    ∃ d', b.Visits d' ∧ d.Reordered d' := by
  induction hvisits generalizing b with
  | root hcall => exact ⟨b, .root (h.tag_eq ▸ hcall), h⟩
  | child hopaque hmem _ ih =>
    obtain ⟨c, hc, hreordered⟩ := exists_mem_of_forall₂ h.children hmem
    obtain ⟨d', hvisits, hd⟩ := ih hreordered
    exact ⟨d', .child (h.tag_eq ▸ hopaque) hc hvisits, hd⟩

namespace Import

theorem mem_ofElement_congr (h : a.Reordered b) : i ∈ ofElement a ↔ i ∈ ofElement b := by
  have hresources : i ∈ ofResources a.properties ↔ i ∈ ofResources b.properties :=
    (h.properties_perm.filterMap _).mem_iff
  simp only [ofElement, h.tag_eq, ofWidget_congr h.agree, ofModifiers_congr h.agree,
    List.mem_append, hresources]

theorem mem_ofLayout_of_reordered (h : a.Reordered b) (hi : i ∈ ofLayout a) : i ∈ ofLayout b := by
  rw [mem_ofLayout] at hi ⊢
  refine hi.imp_right ?_
  rintro ⟨d, hvisits, hmem⟩
  obtain ⟨d', hvisits', hd⟩ := h.visits hvisits
  exact ⟨d', hvisits', (mem_ofElement_congr hd).mp hmem⟩

theorem ofLayout_congr (h : a.Reordered b) : ofLayout a = ofLayout b :=
  ofLayout_eq_of_mem_iff fun _ =>
    ⟨mem_ofLayout_of_reordered h, mem_ofLayout_of_reordered h.symm⟩

end Import

-- ---------------------------------------------------------------------------
-- Findings
-- ---------------------------------------------------------------------------

theorem Check.warnings_perm (tag : String) {ps qs : Properties} (h : ps.Agree qs)
    (hperm : ps.Perm qs) : (warnings tag ps).Perm (warnings tag qs) := by
  rw [warnings, warnings, singleLineWarnings_congr h]
  exact (hperm.flatMap_right _).append_right _

theorem Check.suggestions_congr (tag : String) (parent : Option String) {ps qs : Properties}
    (h : ps.Agree qs) (hperm : ps.Perm qs) :
    suggestions tag ps parent = suggestions tag qs parent := by
  have hbinding : bindingSuggestions tag ps = bindingSuggestions tag qs := by
    rw [bindingSuggestions, bindingSuggestions, hperm.any_eq]
  rw [suggestions, suggestions, widgetSuggestions_congr h, weightSuggestions_congr h, hbinding]

structure Pending.Reordered (p q : Pending) : Prop where
  element : p.element.Reordered q.element
  parent : p.parent = q.parent
  level : p.level = q.level

namespace Pending.Reordered

variable {p q : Pending}

theorem warnings_perm (h : p.Reordered q) : p.findings.warnings.Perm q.findings.warnings := by
  rw [findings, findings, h.element.tag_eq]
  exact Check.warnings_perm _ h.element.agree h.element.properties_perm

theorem suggestions_eq (h : p.Reordered q) : p.findings.suggestions = q.findings.suggestions := by
  rw [findings, findings, h.element.tag_eq, h.parent]
  exact Check.suggestions_congr _ _ h.element.agree h.element.properties_perm

end Pending.Reordered

namespace Element

theorem inOrder_reordered (h : a.Reordered b) (parent : Option String) (level : Nat) :
    List.Forall₂ Pending.Reordered (a.inOrder parent level) (b.inOrder parent level) := by
  refine Reordered.induct (P := fun a b => ∀ parent level,
    List.Forall₂ Pending.Reordered (a.inOrder parent level) (b.inOrder parent level)) ?_ h parent
    level
  intro tag old new before after hattributes hchildren ih parent level
  rw [inOrder, inOrder, inOrderAll_eq_flatMap, inOrderAll_eq_flatMap]
  refine .cons ⟨.node hattributes hchildren, rfl, rfl⟩ ?_
  exact List.rel_flatMap ih fun _ _ h => h _ _

theorem map_inOrder_congr {f : Pending → α} (h : a.Reordered b)
    (hf : ∀ ⦃p q⦄, Pending.Reordered p q → f p = f q) :
    (a.inOrder none 1).map f = (b.inOrder none 1).map f := by
  rw [← List.forall₂_eq_eq_eq]
  exact List.rel_map hf (inOrder_reordered h none 1)

theorem height_congr (h : a.Reordered b) : a.height = b.height := by
  rw [← deepest_inOrder none, ← deepest_inOrder none b, map_inOrder_congr h fun _ _ h => h.level]

/-- The tip on many children rests on tags and on numbers of children only. -/
theorem crowdingTips_eq (root : Element) (thresholds : Thresholds) :
    root.crowdingTips thresholds =
      (((root.inOrder none 1).map fun p => (p.element.tag, p.element.children.length)).find?
        fun figure => thresholds.children < figure.2).toList.map
          fun figure => Survey.crowdingTip figure.1 figure.2 := by
  rw [crowdingTips, List.find?_map]
  change _ = (((root.inOrder none 1).find? (Survey.isCrowded thresholds)).map _).toList.map _
  cases (root.inOrder none 1).find? (Survey.isCrowded thresholds) <;> rfl

theorem crowdingTips_congr (h : a.Reordered b) (thresholds : Thresholds) :
    a.crowdingTips thresholds = b.crowdingTips thresholds := by
  rw [crowdingTips_eq, crowdingTips_eq, map_inOrder_congr h]
  intro p q hpq
  rw [hpq.element.tag_eq, hpq.element.children.length_eq]

theorem survey_warnings_perm (h : a.Reordered b) (thresholds : Thresholds) :
    (a.survey thresholds).warnings.Perm (b.survey thresholds).warnings := by
  rw [survey_warnings, survey_warnings, List.flatMap_def, List.flatMap_def]
  exact .flatten_congr (List.rel_map (fun _ _ h => h.warnings_perm) (inOrder_reordered h none 1))

theorem survey_suggestions_congr (h : a.Reordered b) (thresholds : Thresholds) :
    (a.survey thresholds).suggestions = (b.survey thresholds).suggestions := by
  rw [survey_suggestions, survey_suggestions, nestingTips, nestingTips, height_congr h,
    crowdingTips_congr h, List.flatMap_def, List.flatMap_def,
    map_inOrder_congr h fun _ _ h => h.suggestions_eq]

/-- Reordered trees have the same code, imports and suggestions, and the same warnings up to
their order. -/
theorem generated_eq_of_reordered (a b : Element) (h : a.Reordered b) :
    (∀ maxDepth base, a.code maxDepth base = b.code maxDepth base) ∧
    Import.ofLayout a = Import.ofLayout b ∧
    Import.needsOptIn a = Import.needsOptIn b ∧
    ∀ thresholds, (a.survey thresholds).suggestions = (b.survey thresholds).suggestions ∧
      (a.survey thresholds).warnings.Perm (b.survey thresholds).warnings := by
  refine ⟨code_congr h, Import.ofLayout_congr h, ?_, fun thresholds => ⟨?_, ?_⟩⟩
  · rw [Import.needsOptIn, Import.needsOptIn, Import.ofLayout_congr h]
  · exact survey_suggestions_congr h thresholds
  · exact survey_warnings_perm h thresholds

def framed (attributes : List Attribute) : Element :=
  ⟨"FrameLayout", [⟨"xmlns:app", "a"⟩], [⟨"View", attributes, []⟩]⟩

def iconsLast : List Attribute :=
  [⟨"tools:a", "1"⟩, ⟨"android:alpha", "0"⟩, ⟨"tools:b", "2"⟩, ⟨"drawableTop", "@c/d"⟩,
    ⟨"drawableEnd", "@c/e"⟩]

def iconsFirst : List Attribute :=
  [⟨"drawableEnd", "@c/e"⟩, ⟨"drawableTop", "@c/d"⟩, ⟨"tools:a", "1"⟩, ⟨"tools:b", "2"⟩,
    ⟨"android:alpha", "0"⟩]

theorem iconsLast_reordered : Attribute.Reordered iconsLast iconsFirst where
  perm := by decide
  previews := rfl
  distinct := by decide

theorem generated_eq_framed_icons :
    Import.ofLayout (framed iconsLast) = Import.ofLayout (framed iconsFirst) ∧
    (framed iconsLast).code 9 0 = (framed iconsFirst).code 9 0 ∧
    ((framed iconsLast).survey {}).warnings.Perm ((framed iconsFirst).survey {}).warnings ∧
    ((framed iconsLast).survey {}).warnings ≠ ((framed iconsFirst).survey {}).warnings := by
  have hreordered : (framed iconsLast).Reordered (framed iconsFirst) :=
    .node ⟨.refl _, rfl, by decide⟩ (.cons (.node iconsLast_reordered .nil) .nil)
  obtain ⟨hcode, himports, -, hfindings⟩ := generated_eq_of_reordered _ _ hreordered
  refine ⟨himports, hcode 9 0, (hfindings {}).2, ?_⟩
  decide +kernel

end Element

end LayoutCompose
