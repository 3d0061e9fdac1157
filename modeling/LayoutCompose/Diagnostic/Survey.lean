import LayoutCompose.Diagnostic.Check

/-!
# Surveying a layout

A survey goes over a tree in document order with a list of pending elements. It
gathers the findings on every element and looks for two shapes that perform badly:
deep nesting, and elements with many children.
-/

namespace LayoutCompose

/-- The shapes that are still fine. -/
structure Thresholds where
  nesting : Nat := 10
  children : Nat := 20
  deriving DecidableEq, Repr

/-- An element that waits, with the tag of its parent and its level. -/
structure Pending where
  element : Element
  parent : Option String
  level : Nat

structure Survey where
  /-- Warnings found so far, the latest element first. -/
  warnings : List (List Diagnostic) := []
  /-- Suggestions found so far, the latest element first. -/
  suggestions : List (List Diagnostic) := []
  /-- The deepest level seen. -/
  depth : Nat := 0
  /-- The first element with too many children, by its tag and their number. -/
  crowded : Option (String × Nat) := none

namespace Survey

def visit (thresholds : Thresholds) (s : Survey) (p : Pending) : Survey :=
  let found := Check.element p.element.tag p.element.properties p.parent
  let count := p.element.children.length
  { warnings := found.warnings :: s.warnings
    suggestions := found.suggestions :: s.suggestions
    depth := max s.depth p.level
    crowded := s.crowded.or
      (if thresholds.children < count then some (p.element.tag, count) else none) }

def pendingChildren (p : Pending) : List Pending :=
  p.element.children.map fun c => ⟨c, some p.element.tag, p.level + 1⟩

def sizeOfPending (pending : List Pending) : Nat :=
  Element.sizeAll (pending.map (·.element))

theorem sizeOfPending_children (p : Pending) (rest : List Pending) :
    sizeOfPending (pendingChildren p ++ rest) < sizeOfPending (p :: rest) := by
  have h : (pendingChildren p).map (·.element) = p.element.children := by
    simp [pendingChildren, Function.comp_def]
  simp only [sizeOfPending, List.map_append, List.map_cons, h, Element.sizeAll_append,
    Element.sizeAll, p.element.size_eq]
  omega

/-- Visits the pending elements, each before what is below it. -/
def run (thresholds : Thresholds) (s : Survey) : List Pending → Survey
  | [] => s
  | p :: rest =>
    have := sizeOfPending_children p rest
    run thresholds (s.visit thresholds p) (pendingChildren p ++ rest)
termination_by pending => sizeOfPending pending

def nestingTip (depth limit : Nat) : Diagnostic where
  kind := .performance
  message := "layout nesting depth is " ++ toString depth ++ " (more than " ++ toString limit ++
    " levels)"
  remedy := some "flatten the hierarchy by merging wrapper containers into their parent"

def crowdingTip (tag : String) (count : Nat) : Diagnostic where
  kind := .performance
  message := "<" ++ tag ++ "> has " ++ toString count ++ " direct children"
  remedy := some "use LazyColumn or LazyRow so only visible items are composed"

def tips (thresholds : Thresholds) (s : Survey) : List Diagnostic :=
  (if thresholds.nesting < s.depth then [nestingTip s.depth thresholds.nesting] else []) ++
    (s.crowded.map fun (tag, count) => crowdingTip tag count).toList

/-- All findings in document order, with the tips at the end. -/
def report (thresholds : Thresholds) (s : Survey) : Report :=
  ⟨s.warnings.reverse.flatten, s.suggestions.reverse.flatten ++ s.tips thresholds⟩

end Survey

def Element.survey (root : Element) (thresholds : Thresholds) : Report :=
  (Survey.run thresholds {} [⟨root, none, 1⟩]).report thresholds

end LayoutCompose
