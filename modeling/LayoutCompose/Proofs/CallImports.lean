import LayoutCompose.Proofs.LibraryNames

/-!
# Imports of calls

Every composable that is called is imported, and so is every name that its arguments
take from a library. A composable that nothing calls is not imported.
-/

namespace LayoutCompose

def Composable.toImport : Composable → Import
  | column => .column
  | row => .row
  | box => .box
  | lazyVerticalGrid => .lazyVerticalGrid
  | text => .text
  | button => .button
  | image => .image
  | textField => .textField
  | checkbox => .checkbox
  | radioButton => .radioButton
  | toggle => .toggle
  | linearProgress => .linearProgressIndicator
  | circularProgress => .circularProgressIndicator
  | slider => .slider
  | dropdownMenuBox => .exposedDropdownMenuBox
  | androidView => .androidView

/-- Whether a label of a button or a placeholder of a text field calls `Text`. -/
def Call.nestsText (call : Call) : Bool :=
  match call.composable with
  | .button => call.content.any (Text.startsWith "Text(")
  | .textField =>
    call.arguments.any fun (key, code) =>
      key == "placeholder" && Text.startsWith "\x7b Text(" code
  | _ => false

namespace Import

-- ---------------------------------------------------------------------------
-- Composables
-- ---------------------------------------------------------------------------

theorem name_toImport (c : Composable) : c.toImport.name = c.name := by
  cases c <;> exact (shortName_ofList _).trans rfl

def ofComposables : List Import := [
  column, row, box, lazyVerticalGrid, text, button, image, textField, checkbox, radioButton, toggle,
  linearProgressIndicator, circularProgressIndicator, slider, exposedDropdownMenuBox, androidView,
  experimentalMaterial3Api]

theorem toImport_mem (c : Composable) : c.toImport ∈ ofComposables := by
  cases c <;> decide

theorem toImport_injective {c d : Composable} (h : c.toImport = d.toImport) : c = d := by
  cases c <;> cases d <;> cases h <;> rfl

theorem not_mem_ofColor (hi : i ∈ ofComposables) (meaning : Meaning) : i ∉ ofColor meaning := by
  intro h
  rcases mem_ofColor h with rfl | rfl <;> simp [ofComposables] at hi

theorem not_mem_ofModifiers (hi : i ∈ ofComposables) (widget : Widget) (ps : Properties) :
    i ∉ ofModifiers widget ps := by
  have hother : ∀ j : Import, j ∉ ofComposables → i ≠ j := fun j hj hij => hj (hij ▸ hi)
  have hbackground : i ∉ ofBackground ps := by
    unfold ofBackground
    repeat' split
    all_goals simp [mem_given, not_mem_ofColor hi, hother, ofComposables]
  have hextent : ∀ key filled fixed, filled ∉ ofComposables → fixed ∉ ofComposables →
      i ∉ ofExtent ps key filled fixed := by
    intro key filled fixed hfilled hfixed
    unfold ofExtent
    split <;> simp [mem_given, hother _ hfilled, hother _ hfixed]
  have hsize : i ∉ ofSize ps := by
    unfold ofSize
    split
    · simp [hother, ofComposables]
    · simp only [List.mem_append, not_or]
      exact ⟨hextent _ _ _ (by decide) (by decide), hextent _ _ _ (by decide) (by decide)⟩
  have hscroll : i ∉ ofScroll widget := by
    cases widget <;> simp [ofScroll, hother, ofComposables]
  unfold ofModifiers
  split
  · simp [hother, ofComposables]
  · simp [mem_given, hsize, hscroll, hbackground, hother, ofComposables]

theorem nestsText_button (ps : Properties) :
    (Call.button ps).nestsText = (ps.get? "text").isSome := by
  cases h : ps.get? "text" with
  | none => simp [Call.nestsText, Call.button, h]
  | some p => simp [Call.nestsText, Call.button, h, Text.startsWith]

theorem nestsText_textField (ps : Properties) :
    (Call.textField ps).nestsText = (ps.get? "hint").isSome := by
  cases h : ps.get? "hint" with
  | none => simp [Call.nestsText, Call.textField, Call.optional, h]
  | some p => simp [Call.nestsText, Call.textField, Call.optional, h, Call.lambda, Text.startsWith]

theorem mem_ofWidget (hi : i ∈ ofComposables) (widget : Widget) (ps : Properties) :
    i ∈ ofWidget widget ps ↔
      i = (Call.ofWidget widget ps).composable.toImport ∨
        i = text ∧ (Call.ofWidget widget ps).nestsText = true ∨
        i = experimentalMaterial3Api ∧
          (Call.ofWidget widget ps).composable = .dropdownMenuBox := by
  have hother : ∀ j : Import, j ∉ ofComposables → i ≠ j := fun j hj hij => hj (hij ▸ hi)
  have hgravity : i ∉ ofGravity ps := by simp [ofGravity, mem_given, hother, ofComposables]
  cases widget with
  | linearLayout =>
    simp only [ofWidget, Call.ofWidget]
    split <;> simp [Call.row, Call.column, Composable.toImport, Call.nestsText, hgravity]
  | editText =>
    simp only [ofWidget, Call.ofWidget, nestsText_textField]
    simp [Call.textField, Composable.toImport, ofInputType, mem_given, hother, ofComposables,
      and_comm]
  | button =>
    simp only [ofWidget, Call.ofWidget, nestsText_button]
    simp [Call.button, Composable.toImport, mem_given, and_comm]
  | progressBar =>
    simp only [ofWidget, Call.ofWidget, Call.progressBar, Call.nestsText]
    split <;> simp [Composable.toImport]
  | checkBox | toggle =>
    simp [ofWidget, Call.ofWidget, Call.checkable, Composable.toImport, Call.nestsText]
  | textView =>
    have hcolor : i ∉ ofTextColor ps := by
      unfold ofTextColor
      split
      · exact not_mem_ofColor hi _
      · simp
    simp [ofWidget, Call.ofWidget, Call.text, Composable.toImport, Call.nestsText, mem_given,
      hcolor, hother, ofComposables]
  | _ =>
    simp [ofWidget, Call.ofWidget, Call.column, Call.row, Call.frame, Call.grid, Call.image,
      Call.radioButton, Call.slider, Call.dropdown, Call.webView, Composable.toImport,
      Call.nestsText, hgravity, mem_given, hother, ofComposables]

theorem mem_ofElement (hi : i ∈ ofComposables) (e : Element) :
    i ∈ ofElement e ↔ i ∈ ofWidget (Widget.ofTag e.tag) e.properties := by
  have hresources : i ∉ ofResources e.properties := by
    intro h
    obtain ⟨family, rfl⟩ := mem_ofResources h
    cases family <;> simp [ofResource, ofComposables] at hi
  simp [ofElement, not_mem_ofModifiers hi, hresources]

/-- A composable is imported exactly if some call in the layout calls it, or nests it if it
is `Text`. -/
theorem path_toImport_mem_paths (root : Element) (c : Composable) :
    c.toImport.path ∈ paths root ↔
      (∃ e, root.Visits e ∧ e.call.composable = c) ∨
        c = .text ∧ ∃ e, root.Visits e ∧ e.call.nestsText = true := by
  have halways : c.toImport ∉ always := by cases c <;> decide
  have hne : c.toImport ≠ experimentalMaterial3Api := by cases c <;> decide
  have htext : c.toImport = text ↔ c = .text := ⟨toImport_injective (d := .text), fun h => h ▸ rfl⟩
  have hcall : ∀ e : Element, c.toImport ∈ ofElement e ↔
      e.call.composable = c ∨ c = .text ∧ e.call.nestsText = true := by
    intro e
    rw [mem_ofElement (toImport_mem c), mem_ofWidget (toImport_mem c), ← Element.call]
    have hcomposable : c.toImport = e.call.composable.toImport ↔ e.call.composable = c :=
      ⟨fun h => (toImport_injective h).symm, fun h => h ▸ rfl⟩
    simp only [hne, htext, hcomposable, false_and, or_false]
  simp only [path_mem_paths, mem_ofLayout, halways, hcall, false_or]
  grind

theorem needsOptIn_iff (root : Element) :
    needsOptIn root = true ↔ ∃ e, root.Visits e ∧ e.call.composable = .dropdownMenuBox := by
  have hi : experimentalMaterial3Api ∈ ofComposables := by decide
  have halways : experimentalMaterial3Api ∉ always := by decide
  have hne : ∀ c : Composable, experimentalMaterial3Api ≠ c.toImport := by
    intro c
    cases c <;> decide
  have hcall : ∀ e : Element, experimentalMaterial3Api ∈ ofElement e ↔
      e.call.composable = .dropdownMenuBox := by
    intro e
    rw [mem_ofElement hi, mem_ofWidget hi, ← Element.call]
    simp [hne]
  simp [needsOptIn, mem_ofLayout, halways, hcall]

-- ---------------------------------------------------------------------------
-- Composables and helpers
-- ---------------------------------------------------------------------------

theorem not_colorsText (hi : i ∈ helpers) : ¬ ColorsText e position code i := by
  rintro ⟨_, _, _, p, _, -, -, -, hcolor, -⟩
  rcases mem_ofColor hcolor with rfl | rfl <;> simp [helpers] at hi

/-- Every composable that is called is imported, and no other; every helper that stands in an
argument of a call is imported, unless it stands in the name of a resource that a value of the
element refers to; and the layout needs the experimental composable exactly if some call calls
it. -/
theorem calls_imported (root : Element) :
    (∀ c : Composable, c.toImport.name = c.name ∧
      (c.toImport.path ∈ paths root ↔
        (∃ e, root.Visits e ∧ e.call.composable = c) ∨
          c = .text ∧ ∃ e, root.Visits e ∧ e.call.nestsText = true)) ∧
    (∀ e, root.Visits e → ∀ a ∈ e.call.arguments, ∀ i ∈ helpers, ∀ before after,
      Uses a.2 i.name before after →
        i.path ∈ paths root ∨ InReference e before i.name.toList after) ∧
    (needsOptIn root = true ↔
      ∃ e, root.Visits e ∧ e.call.composable = .dropdownMenuBox) := by
  refine ⟨fun c => ⟨name_toImport c, path_toImport_mem_paths root c⟩, ?_, needsOptIn_iff root⟩
  intro e he a ha i hi before after huses
  have hpiece : (.argument a.1, a.2) ∈ e.pieces := by
    rw [Element.pieces, List.append_assoc]
    exact List.mem_append_left _ (List.mem_map.mpr ⟨a, ha, rfl⟩)
  rcases imported_of_uses he hpiece (List.mem_append_left _ hi) huses with
    hpath | hreference | hcolor
  · exact .inl hpath
  · exact .inr hreference
  · exact (not_colorsText hi hcolor).elim

end Import

end LayoutCompose
