import LayoutCompose.Layout.Element
import LayoutCompose.Layout.Widget

/-!
# The elements of a tree

`Contains` relates a tree to its elements. A condition on all tags or attributes of a
layout is a condition on every element that its root contains. `Visits` keeps the elements
that become a call. The outline of a tree has an entry for each of its elements, and its
deepest level is the height.
-/

namespace LayoutCompose

/-- Widgets that leave a comment in the place of everything below them. -/
def Widget.isOpaque : Widget → Bool
  | .included | .fragment => true
  | _ => false

def Widget.isCall : Widget → Bool
  | .included | .fragment | .merged => false
  | _ => true

namespace Element

inductive Contains : Element → Element → Prop
  | root : Contains e e
  | child : c ∈ e.children → Contains c d → Contains e d

/-- The elements that become a call: not an included layout, a fragment or a merge
themselves, and not below an included layout or a fragment. -/
inductive Visits : Element → Element → Prop
  | root : (Widget.ofTag e.tag).isCall = true → Visits e e
  | child : (Widget.ofTag e.tag).isOpaque = false → c ∈ e.children → Visits c d → Visits e d

variable {e d : Element}

theorem not_visits_of_isOpaque (h : (Widget.ofTag e.tag).isOpaque = true) : ¬ e.Visits d := by
  intro hv
  cases hv with
  | root hcall => cases hw : Widget.ofTag e.tag <;> simp_all [Widget.isOpaque, Widget.isCall]
  | child hopaque => simp [h] at hopaque

theorem visits_iff (h : (Widget.ofTag e.tag).isOpaque = false) :
    e.Visits d ↔ ((Widget.ofTag e.tag).isCall = true ∧ d = e) ∨ ∃ c ∈ e.children, c.Visits d := by
  constructor
  · intro hv
    cases hv with
    | root hcall => exact .inl ⟨hcall, rfl⟩
    | child _ hc hv => exact .inr ⟨_, hc, hv⟩
  · rintro (⟨hcall, rfl⟩ | ⟨c, hc, hv⟩)
    · exact .root hcall
    · exact .child h hc hv

-- ---------------------------------------------------------------------------
-- Document order
-- ---------------------------------------------------------------------------

def deepest (levels : List Nat) : Nat := levels.foldr max 0

@[simp] theorem deepest_nil : deepest [] = 0 := rfl

@[simp] theorem deepest_cons (level : Nat) (levels : List Nat) :
    deepest (level :: levels) = max level (deepest levels) := rfl

@[simp] theorem deepest_append (levels later : List Nat) :
    deepest (levels ++ later) = max (deepest levels) (deepest later) := by
  induction levels with
  | nil => simp
  | cons level levels ih => simp [ih, Nat.max_assoc]

theorem deepest_le_iff {levels : List Nat} : deepest levels ≤ n ↔ ∀ level ∈ levels, level ≤ n := by
  induction levels with
  | nil => simp
  | cons level levels ih => rw [deepest_cons, Nat.max_le, ih, List.forall_mem_cons]

theorem outline_eq (level : Nat) (e : Element) :
    e.outline level = (level, e) :: outlineAll (level + 1) e.children := by
  cases e
  rw [outline]

theorem outlineAll_eq_flatMap (level : Nat) (es : List Element) :
    outlineAll level es = es.flatMap (outline level) := by
  induction es with
  | nil => rw [outlineAll, List.flatMap_nil]
  | cons e es ih => rw [outlineAll, ih, List.flatMap_cons]

mutual
theorem length_outline (level : Nat) : (e : Element) → (e.outline level).length = e.size
  | ⟨tag, attributes, children⟩ => by
    rw [outline, size, List.length_cons, length_outlineAll (level + 1) children]
theorem length_outlineAll (level : Nat) :
    (es : List Element) → (outlineAll level es).length = sizeAll es
  | [] => rfl
  | e :: es => by
    rw [outlineAll, sizeAll, List.length_append, length_outline level e, length_outlineAll level es]
end

mutual
theorem deepest_outline (level : Nat) :
    (e : Element) → deepest ((e.outline (level + 1)).map (·.1)) = level + e.height
  | ⟨tag, attributes, children⟩ => by
    rw [outline, height, List.map_cons, deepest_cons, deepest_outlineAll (level + 1) children]
    omega
theorem deepest_outlineAll (level : Nat) :
    (es : List Element) →
      max level (deepest ((outlineAll (level + 1) es).map (·.1))) = level + heightAll es
  | [] => by simp [outlineAll, heightAll]
  | e :: es => by
    have hrest := deepest_outlineAll level es
    rw [outlineAll, heightAll, List.map_append, deepest_append, deepest_outline level e]
    omega
end

theorem Contains.exists_mem_outline (h : e.Contains d) (level : Nat) :
    ∃ level', (level', d) ∈ e.outline level := by
  induction h generalizing level with
  | root => exact ⟨level, by simp [outline_eq]⟩
  | child hc _ ih =>
    obtain ⟨level', hd⟩ := ih (level + 1)
    refine ⟨level', ?_⟩
    rw [outline_eq, outlineAll_eq_flatMap]
    exact List.mem_cons_of_mem _ (List.mem_flatMap.mpr ⟨_, hc, hd⟩)

end Element

end LayoutCompose
