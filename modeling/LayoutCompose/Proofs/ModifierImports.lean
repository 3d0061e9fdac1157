import LayoutCompose.Code.Modifier
import LayoutCompose.Proofs.CodeText
import LayoutCompose.Proofs.Imports

/-!
# Modifier imports and modifier chains

The imports of modifiers are found from the properties alone, and the chains are built
apart from them. Both ask for the same functions.
-/

namespace LayoutCompose

def Import.modifierFunctions : List Import := [
  fillMaxSize, fillMaxWidth, fillMaxHeight, width, height, size, padding, widthIn, heightIn,
  verticalScroll, horizontalScroll, rememberScrollState, background, alpha, clickable, focusable,
  rotate, scale]

theorem Import.names_modifierFunctions : modifierFunctions.map name = [
    "fillMaxSize", "fillMaxWidth", "fillMaxHeight", "width", "height", "size", "padding",
    "widthIn", "heightIn", "verticalScroll", "horizontalScroll", "rememberScrollState",
    "background", "alpha", "clickable", "focusable", "rotate", "scale"] := by
  simp only [modifierFunctions, List.map_cons, List.map_nil, name, path]
  repeat rw [shortName_ofList]
  rfl

namespace Modifier

-- ---------------------------------------------------------------------------
-- The functions that a link calls
-- ---------------------------------------------------------------------------

/-- The names that the code of a link calls: the function after the point and, as in
`.f(g())`, the one that gives the only argument. -/
def calledNames (code : String) : List String :=
  match code.toList with
  | '.' :: rest =>
    let argument := (rest.dropWhile Char.isAlphanum).drop 1
    String.ofList (rest.takeWhile Char.isAlphanum) ::
      if argument.dropWhile Char.isAlphanum = ['(', ')', ')'] then
        [String.ofList (argument.takeWhile Char.isAlphanum)]
      else []
  | _ => []

/-- The functions that a link calls, without a look at its code. -/
def functions : Modifier → List Import
  | fillMaxSize => [.fillMaxSize]
  | fillMaxWidth => [.fillMaxWidth]
  | fillMaxHeight => [.fillMaxHeight]
  | width _ => [.width]
  | height _ => [.height]
  | zeroSize => [.size]
  | padding _ | edgePadding _ => [.padding]
  | scroll .vertical => [.verticalScroll, .rememberScrollState]
  | scroll .horizontal => [.horizontalScroll, .rememberScrollState]
  | background _ => [.background]
  | alpha _ => [.alpha]
  | clickable _ => [.clickable]
  | focusable => [.focusable]
  | rotate _ => [.rotate]
  | scale _ | scaleAxes .. => [.scale]
  | widthIn _ => [.widthIn]
  | heightIn _ => [.heightIn]
  | task _ => []

/-- No call without arguments stands alone in a text up to its closing bracket. -/
def IsFlat (argument : List Char) : Prop :=
  argument.dropWhile Char.isAlphanum ≠ ['(', ')', ')']

theorem isFlat_of_mem {argument : List Char} (hmem : c ∈ argument)
    (hc : c.isAlphanum = false ∧ c ≠ '(' ∧ c ≠ ')') : IsFlat argument := by
  intro h
  rw [← List.takeWhile_append_dropWhile (p := Char.isAlphanum) (l := argument), h,
    List.mem_append] at hmem
  rcases hmem with hname | hcall
  · have hall := List.all_takeWhile (p := Char.isAlphanum) (l := argument)
    have halnum := List.all_eq_true.mp hall c hname
    simp [hc.1] at halnum
  · simp_all

theorem isFlat_of_not_mem {argument : List Char} (h : '(' ∉ argument) : IsFlat argument := by
  intro hdrop
  apply h
  have : '(' ∈ argument.dropWhile Char.isAlphanum := by simp [hdrop]
  exact (List.dropWhile_sublist _).subset this

theorem isFlat_of_call {name rest : List Char} (hname : name.all Char.isAlphanum = true)
    (hc : c ≠ ')') : IsFlat (name ++ '(' :: c :: rest) := by
  have hname : ∀ a ∈ name, a.isAlphanum = true := by simpa using hname
  have hparen : Char.isAlphanum '(' = false := by decide
  rw [IsFlat, List.dropWhile_append_of_pos hname, List.dropWhile_cons, hparen]
  simp [hc]

theorem calledNames_of_isFlat {code start argument name : String}
    (hcode : code = start ++ argument)
    (hstart : start.toList = '.' :: name.toList ++ [c] ∧
      name.toList.all Char.isAlphanum = true ∧ c.isAlphanum = false)
    (hflat : IsFlat argument.toList) : calledNames code = [name] := by
  obtain ⟨hstart, hname, hc⟩ := hstart
  have hname : ∀ a ∈ name.toList, a.isAlphanum = true := by simpa using hname
  have hargument : argument.toList.dropWhile Char.isAlphanum ≠ ['(', ')', ')'] := hflat
  simp only [calledNames, hcode, String.toList_append, hstart, List.cons_append,
    List.append_assoc, List.nil_append]
  rw [List.takeWhile_append_of_pos hname, List.dropWhile_append_of_pos hname]
  simp [hc, hargument]

theorem isFlat_dimension (d : Dimension) : IsFlat (d.code ++ ")").toList := by
  refine isFlat_of_mem (c := '.') ?_ (by decide)
  cases d with
  | dp n =>
    change '.' ∈ (toString n ++ ".dp" ++ ")").toList
    simp
  | resource name =>
    change '.' ∈ ("dimensionResource(R.dimen." ++ name ++ ")" ++ ")").toList
    simp

theorem isFlat_edges (edges : List Edge) : IsFlat (edgesCode edges ++ ")").toList := by
  cases edges with
  | nil => exact isFlat_of_not_mem (by decide)
  | cons e edges =>
    obtain ⟨label, d⟩ := e
    have hcode : ∃ tail, edgesCode ((label, d) :: edges) = label ++ " = " ++ tail := by
      cases edges with
      | nil => exact ⟨d.code, String.intercalate_singleton⟩
      | cons e edges =>
        refine ⟨d.code ++ ", " ++ edgesCode (e :: edges), ?_⟩
        simp only [edgesCode, List.map_cons, String.intercalate_cons_cons, String.append_assoc]
    obtain ⟨tail, hcode⟩ := hcode
    refine isFlat_of_mem (c := ' ') ?_ (by decide)
    rw [hcode]
    simp

theorem isFlat_color (color : Expr) : IsFlat (color.code ++ ")").toList := by
  cases color with
  | argb color =>
    let digits := color.alpha.digits ++ color.red.digits ++ color.green.digits ++ color.blue.digits
    have hcode : ((Expr.argb color).code ++ ")").toList =
        "Color".toList ++ '(' :: '0' :: 'x' :: (digits ++ [')', ')']) := by
      change ("Color(0x" ++ String.ofList digits ++ ")" ++ ")").toList = _
      simp
    rw [hcode]
    exact isFlat_of_call (by decide) (by decide)
  | resource family name =>
    refine isFlat_of_mem (c := '.') ?_ (by decide)
    change '.' ∈ (family.accessor ++ "(R." ++ family.family ++ "." ++ name ++ ")" ++ ")").toList
    simp
  | namedColor name =>
    refine isFlat_of_mem (c := '.') ?_ (by decide)
    change '.' ∈ ("Color." ++ name ++ ")").toList
    simp
  | themeColor role =>
    refine isFlat_of_mem (c := '.') ?_ (by decide)
    change '.' ∈ ("MaterialTheme.colorScheme." ++ role ++ ")").toList
    simp
  | dp n =>
    refine isFlat_of_mem (c := '.') ?_ (by decide)
    change '.' ∈ (toString n ++ ".dp" ++ ")").toList
    simp

theorem isFlat_literal (x : Number.Binary64) : IsFlat (x.literal ++ ")").toList := by
  apply isFlat_of_not_mem
  intro hmem
  rw [String.toList_append, List.mem_append] at hmem
  rcases hmem with hliteral | hend
  · have hnumeral := Number.Binary64.isNumeralChar_of_mem_literal hliteral
    simp [Number.isNumeralChar] at hnumeral
  · simp at hend

theorem calledNames_code (halpha : ∀ l, m = alpha l → '(' ∉ l.toList) :
    calledNames m.code = m.functions.map Import.name := by
  have hnames := Import.names_modifierFunctions
  simp only [Import.modifierFunctions, List.map_cons, List.map_nil, List.cons.injEq] at hnames
  cases m with
  | fillMaxSize | fillMaxWidth | fillMaxHeight | zeroSize | focusable =>
    simp only [functions, List.map_cons, List.map_nil, hnames]
    decide +kernel
  | scroll axis =>
    cases axis <;> simp only [functions, List.map_cons, List.map_nil, hnames] <;> decide +kernel
  | width d | height d | padding d =>
    simp only [functions, List.map_cons, List.map_nil, hnames]
    exact calledNames_of_isFlat (c := '(') (String.append_assoc ..) (by decide +kernel)
      (isFlat_dimension d)
  | edgePadding edges | widthIn edges | heightIn edges =>
    simp only [functions, List.map_cons, List.map_nil, hnames]
    exact calledNames_of_isFlat (c := '(') (String.append_assoc ..) (by decide +kernel)
      (isFlat_edges edges)
  | background color =>
    simp only [functions, List.map_cons, List.map_nil, hnames]
    exact calledNames_of_isFlat (c := '(') (String.append_assoc ..) (by decide +kernel)
      (isFlat_color color)
  | alpha literal =>
    simp only [functions, List.map_cons, List.map_nil, hnames]
    have hmem : '(' ∉ (literal ++ ")").toList := by simpa using halpha literal rfl
    exact calledNames_of_isFlat (c := '(') (String.append_assoc ..) (by decide +kernel)
      (isFlat_of_not_mem hmem)
  | clickable comment =>
    simp only [functions, List.map_cons, List.map_nil, hnames]
    have hmem : '\x7b' ∈ (Call.lambda comment).toList := by simp [Call.lambda]
    exact calledNames_of_isFlat (c := ' ') rfl (by decide +kernel)
      (isFlat_of_mem hmem (by decide))
  | rotate x | scale x =>
    simp only [functions, List.map_cons, List.map_nil, hnames]
    exact calledNames_of_isFlat (c := '(') (String.append_assoc ..) (by decide +kernel)
      (isFlat_literal x)
  | scaleAxes x y =>
    simp only [functions, List.map_cons, List.map_nil, hnames]
    let rest := x.literal ++ ", scaleY = " ++ y.literal ++ ")"
    have hcode : (scaleAxes x y).code = ".scale(" ++ ("scaleX = " ++ rest) := by
      change ".scale(" ++ "scaleX = " ++ x.literal ++ ", scaleY = " ++ y.literal ++ ")" = _
      simp only [rest, String.append_assoc]
    have hmem : ' ' ∈ ("scaleX = " ++ rest).toList := by simp
    exact calledNames_of_isFlat (c := '(') hcode (by decide +kernel)
      (isFlat_of_mem hmem (by decide))
  | task text =>
    change calledNames ("/* TODO: " ++ Comment.guarded text ++ " */") = []
    simp [calledNames]

theorem functions_subset (m : Modifier) : m.functions ⊆ Import.modifierFunctions := by
  cases m with
  | scroll axis => cases axis <;> simp [functions, Import.modifierFunctions]
  | _ => simp [functions, Import.modifierFunctions]

theorem isCall_of_mem_functions {m : Modifier} (h : f ∈ m.functions) : m.isCall = true := by
  cases m with
  | task text => simp [functions] at h
  | _ => rfl

theorem name_mem_functions {m : Modifier} (hf : f ∈ Import.modifierFunctions) :
    f.name ∈ m.functions.map Import.name ↔ f ∈ m.functions := by
  have hnodup : (Import.modifierFunctions.map Import.name).Nodup := by
    simp [Import.names_modifierFunctions]
  constructor
  · intro h
    obtain ⟨g, hg, hname⟩ := List.mem_map.mp h
    exact List.inj_on_of_nodup_map hnodup (functions_subset m hg) hf hname ▸ hg
  · exact List.mem_map_of_mem

-- ---------------------------------------------------------------------------
-- The parts of a chain
-- ---------------------------------------------------------------------------

theorem read?_cases (ps : Properties) (key : String) :
    Import.isFill ps key = true ∧ Extent.read? (ps.raw? key) = some .fill ∨
    Import.isFill ps key = false ∧ Import.isDimension ps key = true ∧
      (∃ d, Extent.read? (ps.raw? key) = some (.fixed d)) ∨
    Import.isFill ps key = false ∧ Import.isDimension ps key = false ∧
      Extent.read? (ps.raw? key) = none := by
  cases hraw : ps.raw? key with
  | none => simp [Import.isFill, Import.isDimension, Extent.read?, hraw]
  | some value =>
    by_cases hfill : value = "match_parent" ∨ value = "fill_parent"
    · refine .inl ⟨?_, ?_⟩
      · simpa [Import.isFill, hraw] using hfill
      · simp [Extent.read?, hfill]
    · have hisFill : Import.isFill ps key = false := by simpa [Import.isFill, hraw] using hfill
      by_cases hwrap : value = "wrap_content"
      · have hnone : Dimension.read? "wrap_content" = none := by decide
        simp [hisFill, Import.isDimension, hraw, hnone, Extent.read?, hwrap]
      · cases hread : Dimension.read? value <;>
          simp [hisFill, Import.isDimension, hraw, hread, Extent.read?, hfill, hwrap]

theorem functions_sizeLinks (ps : Properties) :
    (sizeLinks ps).flatMap functions = Import.ofSize ps := by
  rcases read?_cases ps "layout_width" with ⟨hwf, hw⟩ | ⟨hwf, hwd, d, hw⟩ | ⟨hwf, hwd, hw⟩ <;>
  rcases read?_cases ps "layout_height" with ⟨hhf, hh⟩ | ⟨hhf, hhd, d, hh⟩ | ⟨hhf, hhd, hh⟩ <;>
  simp [sizeLinks, Import.ofSize, Import.ofExtent, Import.given, widthLink, heightLink, functions,
    *]

theorem isSome_dimension? (ps : Properties) (key : String) :
    (dimension? ps key).isSome = Import.isDimension ps key := rfl

theorem isEmpty_edges (ps : Properties) (labels : List (String × List String)) :
    (edges ps labels).isEmpty = !(labels.flatMap (·.2)).any (Import.isDimension ps) := by
  induction labels with
  | nil => rfl
  | cons label labels ih =>
    obtain ⟨name, keys⟩ := label
    have hkeys : (keys.findSome? (dimension? ps)).isSome = keys.any (Import.isDimension ps) :=
      List.isSome_findSome?
    rw [List.flatMap_cons, List.any_append, ← hkeys]
    cases hfind : keys.findSome? (dimension? ps) with
    | none =>
      have hedges : edges ps ((name, keys) :: labels) = edges ps labels := by
        simp only [edges, List.filterMap_cons, hfind, Option.map_none]
      simp [hedges, ih]
    | some d =>
      have hedges : edges ps ((name, keys) :: labels) = (name, d) :: edges ps labels := by
        simp only [edges, List.filterMap_cons, hfind, Option.map_some]
      simp [hedges]

theorem functions_edgeLink (link : List Edge → Modifier) (hlink : ∀ l, (link l).functions = [g])
    (ps : Properties) (labels : List (String × List String)) :
    (edgeLink link (edges ps labels)).flatMap functions =
      Import.given ((labels.flatMap (·.2)).any (Import.isDimension ps)) [g] := by
  rw [edgeLink, isEmpty_edges, Import.given]
  cases (labels.flatMap (·.2)).any (Import.isDimension ps) <;> simp [hlink]

theorem mem_functions_paddingLinks (ps : Properties) :
    f ∈ (paddingLinks ps).flatMap functions ↔
      f ∈ Import.given (Import.paddingKeys.any (Import.isDimension ps)) [.padding] := by
  cases hpadding : dimension? ps "padding" with
  | none =>
    have hnone : Import.isDimension ps "padding" = false := by
      rw [← isSome_dimension?, hpadding]; rfl
    rw [paddingLinks, hpadding]
    simp only [List.flatMap_append]
    rw [functions_edgeLink edgePadding fun _ => rfl, functions_edgeLink edgePadding fun _ => rfl]
    simp only [List.mem_append, Import.mem_given, ← or_and_right]
    simp [Import.paddingKeys, axisLabels, edgeLabels, hnone, or_assoc]
  | some d =>
    have hsome : Import.isDimension ps "padding" = true := by
      rw [← isSome_dimension?, hpadding]; rfl
    simp [paddingLinks, hpadding, functions, Import.paddingKeys, Import.given, hsome]

theorem mem_functions_scroll (widget : Widget) (ps : Properties) :
    f ∈ ((Call.ofWidget widget ps).scroll.map scroll).toList.flatMap functions ↔
      f ∈ Import.ofScroll widget := by
  cases widget with
  | scrollView | horizontalScrollView =>
    simp [Call.ofWidget, Import.ofScroll, functions, or_comm]
  | linearLayout =>
    simp only [Call.ofWidget]
    split <;> simp [Call.row, Call.column, Import.ofScroll]
  | _ => exact Iff.rfl

theorem any_optional (key : String) (code : Option String) (p : Argument → Bool) :
    (Call.optional key code).any p = code.any fun c => p (key, c) := by
  cases code <;> simp [Call.optional]

theorem hasArgument_onClick (widget : Widget) (ps : Properties) :
    (Call.ofWidget widget ps).hasArgument "onClick" = Import.handlesClick widget := by
  cases widget with
  | linearLayout =>
    simp only [Call.ofWidget]
    split <;> simp [Call.row, Call.column, Call.hasArgument, any_optional, Import.handlesClick]
  | progressBar =>
    simp only [Call.ofWidget, Call.progressBar, Call.hasArgument]
    split <;> simp [any_optional, Import.handlesClick]
  | _ =>
    simp [Call.ofWidget, Call.row, Call.column, Call.frame, Call.grid, Call.text, Call.button,
      Call.image, Call.textField, Call.checkable, Call.radioButton, Call.slider, Call.dropdown,
      Call.webView, Call.hasArgument, any_optional, Import.handlesClick]

theorem functions_clickLinks (widget : Widget) (ps : Properties) :
    (clickLinks ps (Call.ofWidget widget ps)).flatMap functions =
      Import.given ((ps.isTrue "clickable" || (ps.raw? "onClick").isSome) &&
        !Import.handlesClick widget) [.clickable] := by
  rw [clickLinks, hasArgument_onClick, isClickable, Import.given]
  split <;> simp [functions]

theorem functions_ite {condition : Bool} (m : Modifier) :
    (if condition then [m] else []).flatMap functions = Import.given condition m.functions := by
  cases condition <;> simp [Import.given]

theorem functions_toList (link : α → Modifier) (hlink : ∀ a, (link a).functions = gs)
    (o : Option α) : (o.map link).toList.flatMap functions = Import.given o.isSome gs := by
  cases o <;> simp [Import.given, hlink]

theorem functions_scaleLinks (ps : Properties) :
    (scaleLinks ps).flatMap functions =
      Import.given (Import.isNumber ps "scaleX" || Import.isNumber ps "scaleY") [.scale] := by
  have hx : (number? ps "scaleX").isSome = Import.isNumber ps "scaleX" := rfl
  have hy : (number? ps "scaleY").isSome = Import.isNumber ps "scaleY" := rfl
  rw [← hx, ← hy, scaleLinks]
  cases number? ps "scaleX" <;> cases number? ps "scaleY" <;> simp [functions, Import.given]
  split <;> rfl

theorem functions_marginLinks (ps : Properties) : (marginLinks ps).flatMap functions = [] := by
  rw [marginLinks]
  split <;> rfl

theorem functions_borderLinks (ps : Properties) : (borderLinks ps).flatMap functions = [] := by
  unfold borderLinks
  split
  · split <;> rfl
  · rfl

theorem not_mem_ofColor (hf : f ∈ Import.modifierFunctions) (meaning : Meaning) :
    f ∉ Import.ofColor meaning := by
  intro h
  rcases Import.mem_ofColor h with rfl | rfl <;> simp [Import.modifierFunctions] at hf

theorem mem_functions_background (hf : f ∈ Import.modifierFunctions) (ps : Properties) :
    f ∈ ((ps.get? "background").map backgroundLink).toList.flatMap functions ↔
      f ∈ Import.ofBackground ps := by
  unfold Import.ofBackground
  cases ps.get? "background" with
  | none => simp
  | some p =>
    cases hmeaning : p.meaning with
    | code expr =>
      cases hcolor : expr.isColor with
      | true => simp [backgroundLink, hmeaning, hcolor, functions, Import.given, not_mem_ofColor hf]
      | false =>
        simp only [Option.map_some, Option.toList_some, List.flatMap_singleton, backgroundLink,
          hmeaning, hcolor, Bool.false_eq_true, ↓reduceIte]
        split <;> simp [functions, Import.given]
    | _ => simp [backgroundLink, hmeaning, functions]

/-- The chain of a call calls the functions that its element asks for. -/
theorem mem_functions_chain (hf : f ∈ Import.modifierFunctions) (widget : Widget)
    (ps : Properties) :
    f ∈ (chain ps (Call.ofWidget widget ps)).flatMap functions ↔
      f ∈ Import.ofModifiers widget ps := by
  rw [chain, Import.ofModifiers]
  split
  · simp [functions]
  have hrotate : ((number? ps "rotation").map rotate).toList.flatMap functions =
      Import.given (Import.isNumber ps "rotation") [.rotate] :=
    functions_toList rotate (fun _ => rfl) _
  have halpha : ((number? ps "alpha").map fun x => alpha x.literal).toList.flatMap functions =
      Import.given (Import.isNumber ps "alpha") [.alpha] :=
    functions_toList (fun x : Number.Binary64 => alpha x.literal) (fun _ => rfl) _
  have hgravity : ((ps.raw? "layout_gravity").map gravityLink).toList.flatMap functions =
      Import.given (ps.raw? "layout_gravity").isSome [] :=
    functions_toList gravityLink (fun _ => rfl) _
  have hwidth := functions_edgeLink widthIn (fun _ => rfl) ps
    (boundLabels "minWidth" "maxWidth")
  have hheight := functions_edgeLink heightIn (fun _ => rfl) ps
    (boundLabels "minHeight" "maxHeight")
  simp only [List.flatMap_append, List.mem_append, functions_sizeLinks, mem_functions_paddingLinks,
    functions_marginLinks, mem_functions_scroll, mem_functions_background hf, functions_ite,
    visibilityLinks, functions_clickLinks, functions_scaleLinks, functions_borderLinks, hrotate,
    halpha, hgravity, hwidth, hheight, Import.mem_given, functions]
  simp [boundLabels, or_and_right]
  apply iff_of_eq
  ac_rfl

/-- Opacities are written without a call. -/
theorem not_mem_alpha (h : alpha l ∈ chain ps (Call.ofWidget widget ps)) : '(' ∉ l.toList := by
  rw [chain] at h
  split at h
  · simp at h
  -- a part with an opacity calls `alpha`, which three parts do only
  have hcalls : ∀ {ms : List Modifier}, alpha l ∈ ms → Import.alpha ∈ ms.flatMap functions :=
    fun hm => List.mem_flatMap.mpr ⟨_, hm, by simp [functions]⟩
  simp only [List.mem_append] at h
  rcases h with ((((((((((((((hsize | hpadding) | hmargin) | hscroll) | hbackground) | hvisible) |
    hclick) | henabled) | hfocus) | hrotate) | hscale) | halpha) | hwidth) | hheight) | hgravity) |
    hborder
  · have hmem := hcalls hsize
    rw [functions_sizeLinks] at hmem
    grind [Import.ofSize, Import.ofExtent, Import.given]
  · simpa [Import.mem_given] using (mem_functions_paddingLinks ps).mp (hcalls hpadding)
  · simpa [functions_marginLinks] using hcalls hmargin
  · have hmem := (mem_functions_scroll widget ps).mp (hcalls hscroll)
    cases widget <;> simp [Import.ofScroll] at hmem
  · have hmem := (mem_functions_background (by decide) ps).mp (hcalls hbackground)
    have hcolor := not_mem_ofColor (f := .alpha) (by decide)
    grind [Import.ofBackground, Import.given]
  · have hl : l = "0f" := by
      rw [visibilityLinks] at hvisible
      split at hvisible <;> simp_all
    rw [hl]
    decide
  · simpa [functions_clickLinks, Import.mem_given] using hcalls hclick
  · have hl : l = "0.6f" := by
      split at henabled <;> simp_all
    rw [hl]
    decide
  · split at hfocus <;> simp at hfocus
  · simp at hrotate
  · simpa [functions_scaleLinks, Import.mem_given] using hcalls hscale
  · obtain ⟨x, -, rfl⟩ : ∃ x, number? ps "alpha" = some x ∧ x.literal = l := by simpa using halpha
    intro hmem
    have hnumeral := Number.Binary64.isNumeralChar_of_mem_literal hmem
    simp [Number.isNumeralChar] at hnumeral
  · have hmem := hcalls hwidth
    rw [functions_edgeLink widthIn fun _ => rfl] at hmem
    simp [Import.mem_given] at hmem
  · have hmem := hcalls hheight
    rw [functions_edgeLink heightIn fun _ => rfl] at hmem
    simp [Import.mem_given] at hmem
  · simp [gravityLink] at hgravity
  · simpa [functions_borderLinks] using hcalls hborder

end Modifier

namespace Import

theorem not_mem_ofWidget (hf : f ∈ modifierFunctions) (widget : Widget) (ps : Properties) :
    f ∉ ofWidget widget ps := by
  intro h
  have hcolor : f ∉ ofTextColor ps := by
    rw [ofTextColor]
    split
    · exact Modifier.not_mem_ofColor hf _
    · simp
  have hother : ∀ i : Import, i ∉ modifierFunctions → f ≠ i := fun i hi hfi => hi (hfi ▸ hf)
  have hgravity : f ∉ ofGravity ps := by simp [ofGravity, mem_given, hother, modifierFunctions]
  cases widget with
  | linearLayout =>
    simp only [ofWidget, List.mem_cons, hgravity, or_false] at h
    split at h <;> simp [hother, modifierFunctions] at h
  | progressBar =>
    simp only [ofWidget, List.mem_singleton] at h
    split at h <;> simp [hother, modifierFunctions] at h
  | _ =>
    simp [ofWidget, ofInputType, mem_given, hcolor, hgravity, hother, modifierFunctions] at h

theorem not_mem_ofResources (hf : f ∈ modifierFunctions) (ps : Properties) :
    f ∉ ofResources ps := by
  intro h
  obtain ⟨family, rfl⟩ := mem_ofResources h
  cases family <;> simp [ofResource, modifierFunctions] at hf

theorem not_mem_always (hf : f ∈ modifierFunctions) : f ∉ always := by
  revert hf
  cases f <;> decide

/-- The path of a modifier function is imported exactly if the chain of some call in the
layout calls the function. -/
theorem path_mem_paths_iff_called (hf : f ∈ modifierFunctions) (root : Element) :
    f.path ∈ paths root ↔
      ∃ e, root.Visits e ∧
        ∃ m ∈ Modifier.chain e.properties e.call,
          m.isCall = true ∧ f.name ∈ Modifier.calledNames m.code := by
  have hcalled : ∀ e : Element, f ∈ ofElement e ↔
      ∃ m ∈ Modifier.chain e.properties e.call,
        m.isCall = true ∧ f.name ∈ Modifier.calledNames m.code := by
    intro e
    simp only [ofElement, List.mem_append, not_mem_ofWidget hf, not_mem_ofResources hf, false_or,
      or_false]
    rw [← Modifier.mem_functions_chain hf, List.mem_flatMap, ← Element.call]
    refine exists_congr fun m => and_congr_right fun hm => ?_
    have hplain : ∀ l, m = .alpha l → '(' ∉ l.toList := by
      rintro l rfl
      exact Modifier.not_mem_alpha hm
    rw [Modifier.calledNames_code hplain, Modifier.name_mem_functions hf]
    exact ⟨fun h => ⟨Modifier.isCall_of_mem_functions h, h⟩, fun h => h.2⟩
  simp [path_mem_paths, mem_ofLayout, not_mem_always hf, hcalled]

def scrolledLayout : Element := ⟨"merge", [], [⟨"NestedScrollView", [], []⟩]⟩

theorem scrolledLayout_imports_rememberScrollState :
    rememberScrollState ∈ modifierFunctions ∧
      rememberScrollState.path ∈ paths scrolledLayout := by
  have hf : rememberScrollState ∈ modifierFunctions := by decide
  have hvisits : scrolledLayout.Visits ⟨"NestedScrollView", [], []⟩ :=
    .child (by decide +kernel) (List.mem_singleton_self _) (.root (by decide +kernel))
  refine ⟨hf, (path_mem_paths_iff_called hf scrolledLayout).mpr ⟨_, hvisits, ?_⟩⟩
  exact ⟨.scroll .vertical, by decide +kernel, rfl, by decide +kernel⟩

end Import

end LayoutCompose
