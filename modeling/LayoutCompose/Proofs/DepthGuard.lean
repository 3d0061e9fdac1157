import LayoutCompose.Proofs.OptionEffects

/-!
# The bound on nesting

An element beyond the bound keeps a layout from having code, unless an included layout or a
fragment above it hides it. Nothing else does, and a bound that is met has no other effect.
-/

namespace LayoutCompose

theorem Widget.isOpaque_ofTag_iff (tag : String) :
    (ofTag tag).isOpaque = true ↔ Tag.frameworkName tag ∈ ["include", "fragment"] := by
  unfold ofTag
  split <;> simp_all [isOpaque]

namespace Element

/-- The way from an element down to itself or to one below it: the proper ancestors that it passes,
from the top. -/
inductive Descends : Element → List Element → Element → Prop
  | root : Descends e [] e
  | child : c ∈ e.children → Descends c above d → Descends e (e :: above) d

/-- More than `n` levels are shown: some element has at least `n` proper ancestors, and none of
them is an included layout or a fragment. -/
def Reaches (e : Element) (n : Nat) : Prop :=
  ∃ above d, e.Descends above d ∧ n ≤ above.length ∧
    ∀ a ∈ above, Tag.frameworkName a.tag ∉ ["include", "fragment"]

theorem reaches_zero (e : Element) : e.Reaches 0 :=
  ⟨[], e, .root, Nat.zero_le _, List.forall_mem_nil _⟩

theorem reaches_succ_iff {e : Element} :
    e.Reaches (n + 1) ↔
      Tag.frameworkName e.tag ∉ ["include", "fragment"] ∧ ∃ c ∈ e.children, c.Reaches n := by
  constructor
  · rintro ⟨above, d, hdown, hlevel, habove⟩
    cases hdown with
    | root => cases hlevel
    | child hc hdown =>
      obtain ⟨he, habove⟩ := List.forall_mem_cons.mp habove
      exact ⟨he, _, hc, _, d, hdown, Nat.le_of_succ_le_succ hlevel, habove⟩
  · rintro ⟨he, c, hc, above, d, hdown, hlevel, habove⟩
    exact ⟨e :: above, d, .child hc hdown, Nat.succ_le_succ hlevel,
      List.forall_mem_cons.mpr ⟨he, habove⟩⟩

end Element

namespace Stmt

/-- The children fail if one of them does. -/
theorem ofChildren_eq_error_iff {children : List Element} {P : Element → Prop}
    {limit : LayoutError}
    (h : ∀ c ∈ children, ∀ error, ofElement maxDepth depth c = .error error ↔ error = limit ∧ P c) :
    ofChildren maxDepth depth items children = .error error ↔
      error = limit ∧ ∃ c ∈ children, P c := by
  induction children with
  | nil => simp [ofChildren]
  | cons c rest ih =>
    obtain ⟨hc, hrest⟩ := List.forall_mem_cons.mp h
    simp only [ofChildren, List.mem_cons, exists_eq_or_imp, and_or_left, ← hc, ← ih hrest]
    cases hfirst : ofElement maxDepth depth c with
    | error first =>
      obtain ⟨rfl, hp⟩ := (hc first).mp hfirst
      rw [ih hrest]
      simp only [Except.error.injEq]
      exact ⟨.inl, fun hor => hor.elim id fun hlater => hlater.1.symm⟩
    | ok first =>
      cases ofChildren maxDepth depth items rest <;> simp

/-- The only failure is the bound, and an element fails exactly if it reaches beyond it. -/
theorem ofElement_eq_error_iff (maxDepth : Nat) (e : Element) :
    ∀ depth error, ofElement maxDepth depth e = .error error ↔
      error = .tooDeep maxDepth ∧ e.Reaches (maxDepth + 1 - depth) := by
  induction e using Element.induct with
  | node tag attributes children ih =>
    intro depth error
    rw [ofElement]
    by_cases hdeep : maxDepth < depth
    · rw [if_pos hdeep, Nat.sub_eq_zero_of_le hdeep]
      simp [Element.reaches_zero, eq_comm]
    rw [if_neg hdeep]
    have hroom : maxDepth + 1 - depth = maxDepth + 1 - (depth + 1) + 1 := by omega
    have hbelow : ∀ items, ofChildren maxDepth (depth + 1) items children = .error error ↔
        error = .tooDeep maxDepth ∧ ∃ c ∈ children, c.Reaches (maxDepth + 1 - (depth + 1)) :=
      fun items => ofChildren_eq_error_iff fun c hc => ih c hc (depth + 1)
    rw [hroom, Element.reaches_succ_iff, ← Widget.isOpaque_ofTag_iff]
    cases hw : Widget.ofTag tag with
    | included | fragment => simp [Widget.isOpaque]
    | merged =>
      simp only [Widget.isOpaque, Bool.false_eq_true, not_false_eq_true, true_and, ← hbelow false]
      cases ofChildren maxDepth (depth + 1) false children <;> simp
    | _ =>
      simp only [Widget.isOpaque, Bool.false_eq_true, not_false_eq_true, true_and,
        ← hbelow (wrapsItems ⟨tag, attributes, []⟩)]
      cases ofChildren maxDepth (depth + 1) (wrapsItems ⟨tag, attributes, []⟩) children <;> simp

end Stmt

namespace Element

variable {e : Element}

theorem code_eq_error_iff (e : Element) (maxDepth base : Nat) (error : LayoutError) :
    e.code maxDepth base = .error error ↔ error = .tooDeep maxDepth ∧ e.Reaches maxDepth := by
  have h := Stmt.ofElement_eq_error_iff maxDepth e 1 error
  rw [Nat.add_sub_cancel] at h
  rw [← h, code]
  cases Stmt.ofElement maxDepth 1 e <;> simp

theorem Reaches.of_le (h : e.Reaches n) (hle : m ≤ n) : e.Reaches m := by
  obtain ⟨above, d, hdown, hlevel, habove⟩ := h
  exact ⟨above, d, hdown, hle.trans hlevel, habove⟩

/-- A layout has code as soon as the bound is met, and the same code under every higher bound. -/
theorem exists_code_of_not_reaches (h : ¬ e.Reaches maxDepth) (base : Nat) :
    ∃ text, ∀ maxDepth' ≥ maxDepth, e.code maxDepth' base = .ok text := by
  have hok : ∀ maxDepth' ≥ maxDepth, ∃ text, e.code maxDepth' base = .ok text := by
    intro maxDepth' hle
    cases hcode : e.code maxDepth' base with
    | ok text => exact ⟨text, rfl⟩
    | error error =>
      obtain ⟨-, hdeep⟩ := (e.code_eq_error_iff maxDepth' base error).mp hcode
      exact (h (hdeep.of_le hle)).elim
  obtain ⟨text, hcode⟩ := hok maxDepth (Nat.le_refl _)
  refine ⟨text, fun maxDepth' hle => ?_⟩
  obtain ⟨text', hcode'⟩ := hok maxDepth' hle
  rw [hcode', code_unique hcode' hcode]

/-- The bound on nesting is exact. A layout is too deep exactly if an element beyond the bound has
no included layout and no fragment among its proper ancestors; else its code is the one that every
higher bound gives. -/
theorem code_tooDeep_iff (e : Element) (maxDepth base : Nat) :
    (e.code maxDepth base = .error (.tooDeep maxDepth) ↔
      ∃ above d, e.Descends above d ∧ maxDepth + 1 ≤ above.length + 1 ∧
        ∀ a ∈ above, Tag.frameworkName a.tag ∉ ["include", "fragment"]) ∧
    (e.code maxDepth base ≠ .error (.tooDeep maxDepth) →
      ∃ text, ∀ maxDepth' ≥ maxDepth, e.code maxDepth' base = .ok text) := by
  have hdeep : e.code maxDepth base = .error (.tooDeep maxDepth) ↔ e.Reaches maxDepth := by
    simp [code_eq_error_iff]
  refine ⟨?_, fun h => exists_code_of_not_reaches (hdeep.not.mp h) base⟩
  simp only [Nat.add_le_add_iff_right]
  exact hdeep

def hiddenLevel : Element :=
  ⟨"FrameLayout", [], [
    ⟨"merge", [], [⟨"View", [], []⟩]⟩,
    ⟨"include", [], [⟨"View", [], [⟨"View", [], []⟩]⟩]⟩]⟩

theorem code_hiddenLevel :
    hiddenLevel.code 2 0 = .error (.tooDeep 2) ∧ hiddenLevel.code 3 0 ≠ .error (.tooDeep 3) ∧
      ∃ text, ∀ maxDepth ≥ 3, hiddenLevel.code maxDepth 0 = .ok text := by
  have hview : Descends hiddenLevel [hiddenLevel, ⟨"merge", [], [⟨"View", [], []⟩]⟩]
      ⟨"View", [], []⟩ :=
    .child (by simp [hiddenLevel]) (.child (by simp) .root)
  have hmet : hiddenLevel.code 3 0 ≠ .error (.tooDeep 3) := fun h => nomatch h
  exact ⟨(code_tooDeep_iff hiddenLevel 2 0).1.mpr ⟨_, _, hview, by decide, by decide⟩, hmet,
    (code_tooDeep_iff hiddenLevel 3 0).2 hmet⟩

end Element

end LayoutCompose
