import LayoutCompose.Proofs.Limits
import LayoutCompose.Proofs.Rejection

/-!
# What the options of a conversion change

Limits decide whether there is a function, and thresholds and the cap decide which suggestions
are listed above it. None of them reaches the function, its imports or the warnings.
-/

namespace LayoutCompose

-- ---------------------------------------------------------------------------
-- Limits
-- ---------------------------------------------------------------------------

namespace Stmt

mutual
/-- The bound on nesting decides whether there are statements, and not which. -/
theorem ofElement_unique : (e : Element) → ofElement maxDepth depth e = .ok body →
    ofElement maxDepth' depth' e = .ok body' → body = body'
  | ⟨tag, attributes, children⟩, h, h' => by
    rw [ofElement] at h h'
    split at h
    · cases h
    split at h'
    · cases h'
    cases hw : Widget.ofTag tag with
    | included | fragment =>
      rw [hw] at h h'
      exact Except.ok.inj (h.symm.trans h')
    | _ =>
      simp only [hw] at h h'
      split at h
      · cases h
      split at h'
      · cases h'
      case h_2 below hbelow _ below' hbelow' =>
        obtain rfl := ofChildren_unique children hbelow hbelow'
        exact Except.ok.inj (h.symm.trans h')
theorem ofChildren_unique : (es : List Element) → ofChildren maxDepth depth items es = .ok body →
    ofChildren maxDepth' depth' items es = .ok body' → body = body'
  | [], h, h' => by
    rw [ofChildren] at h h'
    exact Except.ok.inj (h.symm.trans h')
  | e :: es, h, h' => by
    rw [ofChildren] at h h'
    split at h
    · cases h
    case h_2 first hfirst =>
      split at h
      · cases h
      case h_2 others hothers =>
        split at h'
        · cases h'
        case h_2 first' hfirst' =>
          split at h'
          · cases h'
          case h_2 others' hothers' =>
            obtain rfl := ofElement_unique e hfirst hfirst'
            obtain rfl := ofChildren_unique es hothers hothers'
            exact Except.ok.inj (h.symm.trans h')
end

end Stmt

theorem Element.code_unique {e : Element} (h : e.code maxDepth base = .ok text)
    (h' : e.code maxDepth' base = .ok text') : text = text' := by
  rw [code] at h h'
  split at h
  · cases h
  split at h'
  · cases h'
  case h_2 body hbody _ body' hbody' =>
    obtain rfl := Stmt.ofElement_unique e hbody hbody'
    exact Except.ok.inj (h.symm.trans h')

theorem Document.read_unique (h : read limits source = .ok d) (h' : read limits' source = .ok d') :
    d = d' := by
  rw [read_eq_acceptUnless h' limits] at h
  cases hexcess : limits.firstExcess? d'.root with
  | some error => simp [hexcess] at h
  | none => simpa [hexcess] using h.symm

-- ---------------------------------------------------------------------------
-- Thresholds and the cap
-- ---------------------------------------------------------------------------

namespace Element

def ownSuggestions (root : Element) : List Diagnostic :=
  (root.inOrder none 1).flatMap (·.findings.suggestions)

def tips (root : Element) (thresholds : Thresholds) : List Diagnostic :=
  root.nestingTips thresholds ++ root.crowdingTips thresholds

theorem survey_suggestions_eq (root : Element) (thresholds : Thresholds) :
    (root.survey thresholds).suggestions = root.ownSuggestions ++ root.tips thresholds := by
  rw [survey_suggestions, ownSuggestions, tips, List.append_assoc]

theorem length_tips (root : Element) (thresholds : Thresholds) :
    (root.tips thresholds).length ≤ 2 := by
  have hnesting : (root.nestingTips thresholds).length ≤ 1 := by
    unfold nestingTips
    split <;> simp
  have hcrowding : (root.crowdingTips thresholds).length ≤ 1 := by
    rw [crowdingTips, List.length_map]
    exact Option.length_toList_le
  rw [tips, List.length_append]
  omega

theorem kind_of_mem_tips {root : Element} (h : tip ∈ root.tips thresholds) :
    tip.kind = .performance := by
  rcases List.mem_append.mp h with hnesting | hcrowding
  · unfold nestingTips at hnesting
    split at hnesting
    · obtain rfl := List.mem_singleton.mp hnesting
      rfl
    · cases hnesting
  · obtain ⟨p, -, rfl⟩ := List.mem_map.mp hcrowding
    rfl

end Element

-- ---------------------------------------------------------------------------
-- Conversions
-- ---------------------------------------------------------------------------

namespace Conversion

def functionText (name : String) (root : Element) (body : String) : String :=
  Tidy.tidy (functionCode name (Import.needsOptIn root) body)

/-- A conversion that puts the function of a layout below its imports and diagnostics. -/
structure Presents (c : Conversion) (options : Options) (root : Element) (function : String) :
    Prop where
  imports : c.imports = Import.block root
  warnings : c.warnings = (root.inOrder none 1).flatMap (·.findings.warnings)
  suggestions : c.suggestions =
    keep options.maxSuggestions (root.ownSuggestions ++ root.tips options.thresholds)
  code : c.code =
    Source.assemble c.imports (Source.listing? c.warnings c.suggestions) function

theorem presents_of_ok (h : Document.read options.limits source = .ok d)
    (hbody : d.root.code options.limits.maxDepth 1 = .ok body) :
    (ofSource options source).Presents options d.root
      (functionText options.function d.root body) := by
  have hc : ofSource options source =
      ⟨Import.block d.root, Source.assemble (Import.block d.root)
          (Source.listing? (d.root.survey options.thresholds).warnings
            (keep options.maxSuggestions (d.root.survey options.thresholds).suggestions))
          (functionText options.function d.root body),
        (d.root.survey options.thresholds).warnings,
        keep options.maxSuggestions (d.root.survey options.thresholds).suggestions⟩ := by
    simp only [ofSource, tryOfSource, h, ofElement, hbody, functionText]
  rw [hc]
  constructor
  case imports => rfl
  case warnings => exact d.root.survey_warnings options.thresholds
  case suggestions => rw [← Element.survey_suggestions_eq]
  case code => rfl

theorem exists_read_of_isFailure (h : (ofSource options source).isFailure = false) :
    ∃ d, Document.read options.limits source = .ok d := by
  cases hread : Document.read options.limits source with
  | ok d => exact ⟨d, rfl⟩
  | error error =>
    rw [ofSource_of_error hread, isFailure_ofError] at h
    cases h

/-- Two conversions of one text to a function of one name give the same function, imports and
warnings if they succeed. What they list besides is the same up to the tips and the cap. -/
theorem presents_same_function {options options' : Options}
    (hname : options.function = options'.function)
    (h : (ofSource options source).isFailure = false)
    (h' : (ofSource options' source).isFailure = false) :
    (ofSource options source).imports = (ofSource options' source).imports ∧
    (ofSource options source).warnings = (ofSource options' source).warnings ∧
    ∃ d body, ∀ o ∈ [options, options'],
      Document.read o.limits source = .ok d ∧ d.root.code o.limits.maxDepth 1 = .ok body ∧
      (ofSource o source).code =
        Source.assemble (ofSource o source).imports
          (Source.listing? (ofSource o source).warnings (ofSource o source).suggestions)
          (functionText options.function d.root body) ∧
      (ofSource o source).suggestions =
        keep o.maxSuggestions (d.root.ownSuggestions ++ d.root.tips o.thresholds) ∧
      (d.root.tips o.thresholds).length ≤ 2 ∧
      ∀ tip ∈ d.root.tips o.thresholds, tip.kind = .performance := by
  obtain ⟨d, hread⟩ := exists_read_of_isFailure h
  obtain ⟨d', hread'⟩ := exists_read_of_isFailure h'
  obtain rfl := Document.read_unique hread hread'
  obtain ⟨body, hbody⟩ := Document.exists_code hread 1
  obtain ⟨body', hbody'⟩ := Document.exists_code hread' 1
  obtain rfl := Element.code_unique hbody hbody'
  have hfirst := presents_of_ok hread hbody
  have hsecond := presents_of_ok hread' hbody'
  rw [← hname] at hsecond
  refine ⟨hfirst.imports.trans hsecond.imports.symm, hfirst.warnings.trans hsecond.warnings.symm,
    d, body, ?_⟩
  simp only [List.forall_mem_cons, List.not_mem_nil, false_imp_iff, implies_true, and_true]
  exact ⟨⟨hread, hbody, hfirst.code, hfirst.suggestions, d.root.length_tips _,
      fun _ => Element.kind_of_mem_tips⟩,
    hread', hbody', hsecond.code, hsecond.suggestions, d.root.length_tips _,
      fun _ => Element.kind_of_mem_tips⟩

def tight : Options where
  limits := ⟨2, 3⟩
  thresholds := ⟨1, 1⟩
  maxSuggestions := some 2

theorem presents_tight :
    (ofSource {} "<a><ListView/><b/></a>").isFailure = false ∧
    (ofSource tight "<a><ListView/><b/></a>").isFailure = false ∧
    (ofSource {} "<a><ListView/><b/></a>").imports =
      (ofSource tight "<a><ListView/><b/></a>").imports ∧
    ∃ own, (ofSource {} "<a><ListView/><b/></a>").suggestions = [own] ∧
      (ofSource tight "<a><ListView/><b/></a>").suggestions = [own, Survey.nestingTip 2 1] := by
  let d : Document := ⟨⟨"a", [], [⟨"ListView", [], []⟩, ⟨"b", [], []⟩]⟩, 2, 3⟩
  have hread : Document.read ({} : Options).limits "<a><ListView/><b/></a>" = .ok d := by
    with_unfolding_all rfl
  have htight : Document.read tight.limits "<a><ListView/><b/></a>" = .ok d := by
    with_unfolding_all rfl
  have h := isFailure_of_ok hread
  have h' := isFailure_of_ok htight
  have hname : ({} : Options).function = tight.function := rfl
  obtain ⟨himports, -, d', body, hall⟩ := presents_same_function hname h h'
  simp only [List.forall_mem_cons, hread, Except.ok.injEq] at hall
  obtain ⟨⟨rfl, -, -, hloose, -⟩, ⟨-, -, -, hclose, -⟩, -⟩ := hall
  have hlength : d.root.ownSuggestions.length = 1 := by decide +kernel
  have hnone : d.root.tips ({} : Options).thresholds = [] := by decide +kernel
  have htips : d.root.tips tight.thresholds =
      [Survey.nestingTip 2 1, Survey.crowdingTip "a" 2] := by
    decide +kernel
  obtain ⟨own, hown⟩ := List.length_eq_one_iff.mp hlength
  rw [hown, hnone] at hloose
  rw [hown, htips] at hclose
  exact ⟨h, h', himports, own, hloose, hclose⟩

end Conversion

end LayoutCompose
