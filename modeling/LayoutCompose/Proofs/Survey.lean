import LayoutCompose.Diagnostic.Survey
import LayoutCompose.Proofs.DocumentShape

/-!
# What a survey finds

A survey keeps a list of pending elements and four figures. It comes to the same as visiting
the elements of the tree in document order, so that its report is read off that order: the
findings on one element after the other, then the tips.
-/

namespace LayoutCompose

namespace Element

mutual
def inOrder (parent : Option String) (level : Nat) : Element → List Pending
  | ⟨tag, attributes, children⟩ =>
    ⟨⟨tag, attributes, children⟩, parent, level⟩ :: inOrderAll (some tag) (level + 1) children
def inOrderAll (parent : Option String) (level : Nat) : List Element → List Pending
  | [] => []
  | e :: rest => e.inOrder parent level ++ inOrderAll parent level rest
end

theorem inOrder_eq (parent : Option String) (level : Nat) (e : Element) :
    e.inOrder parent level = ⟨e, parent, level⟩ :: inOrderAll (some e.tag) (level + 1) e.children := by
  cases e
  rw [inOrder]

theorem inOrderAll_eq_flatMap (parent : Option String) (level : Nat) (es : List Element) :
    inOrderAll parent level es = es.flatMap (inOrder parent level) := by
  induction es with
  | nil => rw [inOrderAll, List.flatMap_nil]
  | cons e es ih => rw [inOrderAll, ih, List.flatMap_cons]

mutual
theorem outline_of_inOrder (parent : Option String) (level : Nat) :
    (e : Element) → (e.inOrder parent level).map (fun p => (p.level, p.element)) = e.outline level
  | ⟨tag, attributes, children⟩ => by
    rw [inOrder, outline, List.map_cons, outlineAll_of_inOrderAll (some tag) (level + 1) children]
theorem outlineAll_of_inOrderAll (parent : Option String) (level : Nat) :
    (es : List Element) →
      (inOrderAll parent level es).map (fun p => (p.level, p.element)) = outlineAll level es
  | [] => by rw [inOrderAll, outlineAll, List.map_nil]
  | e :: es => by
    rw [inOrderAll, outlineAll, List.map_append, outline_of_inOrder parent level e,
      outlineAll_of_inOrderAll parent level es]
end

theorem deepest_inOrder (parent : Option String) (root : Element) :
    deepest ((root.inOrder parent 1).map (·.level)) = root.height := by
  have h := root.deepest_outline 0
  rw [← root.outline_of_inOrder parent, List.map_map] at h
  exact h.trans (Nat.zero_add _)

end Element

def Pending.findings (p : Pending) : Report :=
  Check.element p.element.tag p.element.properties p.parent

namespace Survey

theorem flatMap_pendingChildren (p : Pending) :
    (pendingChildren p).flatMap (fun q => q.element.inOrder q.parent q.level) =
      Element.inOrderAll (some p.element.tag) (p.level + 1) p.element.children := by
  rw [pendingChildren, List.flatMap_map, Element.inOrderAll_eq_flatMap]

/-- A run visits everything that is pending in document order. -/
theorem run_eq_foldl (thresholds : Thresholds) (s : Survey) (pending : List Pending) :
    run thresholds s pending =
      (pending.flatMap fun p => p.element.inOrder p.parent p.level).foldl (visit thresholds) s := by
  fun_induction run thresholds s pending with
  | case1 s => rfl
  | case2 s p rest hsize ih =>
    rw [ih, List.flatMap_append, flatMap_pendingChildren, List.flatMap_cons, Element.inOrder_eq]
    rfl

def isCrowded (thresholds : Thresholds) (p : Pending) : Bool :=
  thresholds.children < p.element.children.length

/-- The figures after a number of visits. -/
theorem foldl_visit (thresholds : Thresholds) (s : Survey) (visited : List Pending) :
    visited.foldl (visit thresholds) s =
      { warnings := (visited.map (·.findings.warnings)).reverse ++ s.warnings
        suggestions := (visited.map (·.findings.suggestions)).reverse ++ s.suggestions
        depth := max s.depth (Element.deepest (visited.map (·.level)))
        crowded := s.crowded.or ((visited.find? (isCrowded thresholds)).map fun p =>
          (p.element.tag, p.element.children.length)) } := by
  induction visited generalizing s with
  | nil => simp
  | cons p visited ih =>
    rw [List.foldl_cons, ih, visit]
    have hcrowded : ((p :: visited).find? (isCrowded thresholds)).map
          (fun p => (p.element.tag, p.element.children.length)) =
        (if thresholds.children < p.element.children.length then
          some (p.element.tag, p.element.children.length) else none).or
        ((visited.find? (isCrowded thresholds)).map
          fun p => (p.element.tag, p.element.children.length)) := by
      by_cases h : thresholds.children < p.element.children.length <;> simp [isCrowded, h]
    simp [hcrowded, Pending.findings, Nat.max_assoc, Option.or_assoc]

theorem run_root (thresholds : Thresholds) (root : Element) :
    run thresholds {} [⟨root, none, 1⟩] =
      { warnings := ((root.inOrder none 1).map (·.findings.warnings)).reverse
        suggestions := ((root.inOrder none 1).map (·.findings.suggestions)).reverse
        depth := root.height
        crowded := ((root.inOrder none 1).find? (isCrowded thresholds)).map fun p =>
          (p.element.tag, p.element.children.length) } := by
  rw [run_eq_foldl, List.flatMap_singleton, foldl_visit, Element.deepest_inOrder]
  simp

end Survey

namespace Element

theorem survey_warnings (root : Element) (thresholds : Thresholds) :
    (root.survey thresholds).warnings =
      (root.inOrder none 1).flatMap (·.findings.warnings) := by
  rw [survey, Survey.run_root, Survey.report, List.reverse_reverse, List.flatMap_def]

def nestingTips (root : Element) (thresholds : Thresholds) : List Diagnostic :=
  if thresholds.nesting < root.height then [Survey.nestingTip root.height thresholds.nesting] else []

def crowdingTips (root : Element) (thresholds : Thresholds) : List Diagnostic :=
  ((root.inOrder none 1).find? (Survey.isCrowded thresholds)).toList.map fun p =>
    Survey.crowdingTip p.element.tag p.element.children.length

theorem survey_suggestions (root : Element) (thresholds : Thresholds) :
    (root.survey thresholds).suggestions =
      (root.inOrder none 1).flatMap (·.findings.suggestions) ++
        root.nestingTips thresholds ++ root.crowdingTips thresholds := by
  simp only [survey, Survey.run_root, Survey.report, Survey.tips, List.reverse_reverse, nestingTips,
    crowdingTips, List.flatMap_def, List.append_assoc]
  cases (root.inOrder none 1).find? (Survey.isCrowded thresholds) <;> rfl

/-- The report of a survey is that of the elements one by one, and the tips: the first quotes
the height of the tree, the second the tag and the number of children of the first element in
document order that has too many. -/
theorem survey_inOrder (root : Element) (thresholds : Thresholds) :
    (root.survey thresholds).warnings = (root.inOrder none 1).flatMap (·.findings.warnings) ∧
    (root.survey thresholds).suggestions =
      (root.inOrder none 1).flatMap (·.findings.suggestions) ++
        (if thresholds.nesting < root.height then
          [⟨.performance, "layout nesting depth is " ++ toString root.height ++ " (more than " ++
              toString thresholds.nesting ++ " levels)",
            some "flatten the hierarchy by merging wrapper containers into their parent"⟩]
          else []) ++
        ((root.inOrder none 1).find? (thresholds.children < ·.element.children.length)).toList.map
          (fun p => ⟨.performance, "<" ++ p.element.tag ++ "> has " ++
              toString p.element.children.length ++ " direct children",
            some "use LazyColumn or LazyRow so only visible items are composed"⟩) ∧
    ∀ limits source d, Document.read limits source = .ok d → d.root = root → root.height = d.depth := by
  refine ⟨root.survey_warnings thresholds, root.survey_suggestions thresholds, ?_⟩
  rintro limits source d hread rfl
  exact (Document.WellShaped.of_readFrom (.empty limits) hread).depth.symm

/-- Two children are deep and many when one level and one child are fine. -/
def pairLayout : Element := ⟨"a", [], [⟨"b", [], []⟩, ⟨"c", [], []⟩]⟩

theorem survey_pairLayout :
    Document.read {} "<a><b/><c/></a>" = .ok ⟨pairLayout, 2, 3⟩ ∧ pairLayout.height = 2 ∧
      (pairLayout.survey ⟨1, 1⟩).suggestions =
        [⟨.performance, "layout nesting depth is 2 (more than 1 levels)",
            some "flatten the hierarchy by merging wrapper containers into their parent"⟩,
          ⟨.performance, "<a> has 2 direct children",
            some "use LazyColumn or LazyRow so only visible items are composed"⟩] := by
  have hread : Document.read {} "<a><b/><c/></a>" = .ok ⟨pairLayout, 2, 3⟩ := by
    with_unfolding_all rfl
  obtain ⟨-, hsuggestions, hdepth⟩ := survey_inOrder pairLayout ⟨1, 1⟩
  refine ⟨hread, hdepth _ _ _ hread rfl, hsuggestions.trans ?_⟩
  decide +kernel

end Element

end LayoutCompose
