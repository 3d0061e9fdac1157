import LayoutCompose.Conversion
import LayoutCompose.Proofs.Survey

/-!
# When a conversion fails

That a layout was rejected is told by the kinds of the warnings alone. Once a layout is read
nothing can reject it any more: generating code counts levels as reading does, so it stays
within the same limit, and no finding on an element is of a kind that means a rejection.
-/

namespace LayoutCompose

-- ---------------------------------------------------------------------------
-- Generating code within the limit
-- ---------------------------------------------------------------------------

namespace Stmt

mutual
theorem exists_ofElement (maxDepth depth : Nat) :
    (e : Element) → depth + e.height ≤ maxDepth + 1 → ∃ body, ofElement maxDepth depth e = .ok body
  | ⟨tag, attributes, children⟩, h => by
    rw [Element.height] at h
    have hchildren : ∀ items, ∃ body, ofChildren maxDepth (depth + 1) items children = .ok body :=
      fun items => exists_ofChildren maxDepth (depth + 1) items children (by omega)
    rw [ofElement, if_neg (by omega)]
    split
    · exact ⟨_, rfl⟩
    · exact ⟨_, rfl⟩
    · obtain ⟨body, hbody⟩ := hchildren false
      rw [hbody]
      exact ⟨_, rfl⟩
    · obtain ⟨body, hbody⟩ := hchildren (wrapsItems ⟨tag, attributes, []⟩)
      rw [hbody]
      exact ⟨_, rfl⟩
theorem exists_ofChildren (maxDepth depth : Nat) (items : Bool) :
    (es : List Element) → depth + Element.heightAll es ≤ maxDepth + 1 →
      ∃ body, ofChildren maxDepth depth items es = .ok body
  | [], _ => ⟨[], by rw [ofChildren]⟩
  | e :: es, h => by
    rw [Element.heightAll] at h
    obtain ⟨first, hfirst⟩ := exists_ofElement maxDepth depth e (by omega)
    obtain ⟨others, hothers⟩ := exists_ofChildren maxDepth depth items es (by omega)
    rw [ofChildren, hfirst, hothers]
    exact ⟨_, rfl⟩
end

end Stmt

theorem Element.exists_code {e : Element} (h : e.height ≤ maxDepth) (base : Nat) :
    ∃ text, e.code maxDepth base = .ok text := by
  obtain ⟨body, hbody⟩ := Stmt.exists_ofElement maxDepth 1 e (by omega)
  rw [code, hbody]
  exact ⟨_, rfl⟩

-- ---------------------------------------------------------------------------
-- Kinds of warnings
-- ---------------------------------------------------------------------------

namespace Check

theorem kind_of_mem_warnings (h : w ∈ warnings tag ps) :
    w.kind = .unsupported ∨ w.kind = .deprecated := by
  rcases List.mem_append.mp h with h | h
  · obtain ⟨p, -, h⟩ := List.mem_flatMap.mp h
    unfold propertyWarnings at h
    split at h
    · cases h
    rcases List.mem_append.mp h with h | h
    · obtain ⟨remedy, -, rfl⟩ := Option.map_eq_some_iff.mp (Option.mem_toList.mp h)
      exact .inl rfl
    · unfold fillParentWarning? at h
      split at h
      · obtain rfl := Option.some.inj (Option.mem_toList.mp h)
        exact .inr rfl
      · cases h
  · unfold singleLineWarnings at h
    split at h
    · obtain rfl := List.mem_singleton.mp h
      exact .inr rfl
    · cases h

end Check

theorem Element.kind_of_mem_survey {root : Element}
    (h : w ∈ (root.survey thresholds).warnings) : w.kind = .unsupported ∨ w.kind = .deprecated := by
  rw [survey_warnings] at h
  obtain ⟨p, -, hw⟩ := List.mem_flatMap.mp h
  exact Check.kind_of_mem_warnings hw

-- ---------------------------------------------------------------------------
-- Conversions
-- ---------------------------------------------------------------------------

theorem Document.exists_code (h : read limits source = .ok d) (base : Nat) :
    ∃ text, d.root.code limits.maxDepth base = .ok text := by
  have hshape := WellShaped.of_readFrom (.empty limits) h
  exact Element.exists_code (hshape.depth ▸ hshape.depth_le) base

namespace Conversion

theorem ofSource_of_error (h : Document.read options.limits source = .error error) :
    ofSource options source = ofError error options.function := by
  simp only [ofSource, tryOfSource, h]

theorem warnings_of_ok (h : Document.read options.limits source = .ok d) :
    (ofSource options source).warnings = (d.root.survey options.thresholds).warnings := by
  obtain ⟨text, htext⟩ := Document.exists_code h 1
  simp only [ofSource, tryOfSource, h, ofElement, htext]

theorem isFailure_of_ok (h : Document.read options.limits source = .ok d) :
    (ofSource options source).isFailure = false := by
  rw [isFailure, warnings_of_ok h, List.any_eq_false]
  intro w hw
  rcases Element.kind_of_mem_survey hw with hkind | hkind <;> simp [hkind, Diagnostic.Kind.isRejection]

theorem isFailure_ofError (error : LayoutError) (function : String) :
    (ofError error function).isFailure = true := by
  cases error <;> rfl

/-- A conversion fails if and only if the layout cannot be read, and then for that reason
alone. -/
theorem isFailure_iff_read (options : Options) (source : String) :
    ((ofSource options source).isFailure = true ↔
      ∃ error, Document.read options.limits source = .error error) ∧
    (∀ d, Document.read options.limits source = .ok d →
      (∀ base, ∃ text, d.root.code options.limits.maxDepth base = .ok text) ∧
      ∀ w ∈ (d.root.survey options.thresholds).warnings, w.kind ≠ .malformed ∧ w.kind ≠ .limit) ∧
    ∀ error, Document.read options.limits source = .error error →
      (ofSource options source).imports = "" ∧ (ofSource options source).suggestions = [] ∧
      ∃ w, (ofSource options source).warnings = [w] ∧
        (w.kind = .limit ↔ ∃ n, error = .tooDeep n ∨ error = .tooLarge n) ∧
        (w.kind = .malformed ↔ ∀ n, error ≠ .tooDeep n ∧ error ≠ .tooLarge n) := by
  refine ⟨?_, fun d h => ⟨Document.exists_code h, fun w hw => ?_⟩, fun error h => ?_⟩
  · cases h : Document.read options.limits source with
    | ok d => simp [isFailure_of_ok h]
    | error error => simp [ofSource_of_error h, isFailure_ofError]
  · rcases Element.kind_of_mem_survey hw with hkind | hkind <;> simp [hkind]
  · rw [ofSource_of_error h]
    refine ⟨rfl, rfl, _, rfl, ?_⟩
    cases error <;> simp [LayoutError.isLimit]

theorem isFailure_deepPair :
    Document.read ⟨1, 5⟩ "<a><b/></a>" = .error (.tooDeep 1) ∧
      (ofSource { limits := ⟨1, 5⟩ } "<a><b/></a>").isFailure = true := by
  have h : Document.read ⟨1, 5⟩ "<a><b/></a>" = .error (.tooDeep 1) := by
    with_unfolding_all rfl
  exact ⟨h, (isFailure_iff_read { limits := ⟨1, 5⟩ } _).1.mpr ⟨_, h⟩⟩

end Conversion

end LayoutCompose
