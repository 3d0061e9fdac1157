import LayoutCompose.Text.Search

/-!
# Layout elements

A layout is a tree of elements. An element keeps its attributes in document
order under pairwise distinct names: writing a name again replaces the value and
leaves the attribute where it first stood.
-/

namespace LayoutCompose

/-- A qualified name such as `android:text` and its value. -/
structure Attribute where
  name : String
  value : String
  deriving DecidableEq, Repr

structure Element where
  tag : String
  attributes : List Attribute := []
  children : List Element := []
  deriving Inhabited

/-- The part after the first colon, or the whole name without a colon. -/
def Attribute.bareName (name : String) : String :=
  match name.toList.dropWhile (· != ':') with
  | [] => name
  | _ :: rest => String.ofList rest

/-- Attributes in the `tools:` namespace serve previews only. -/
def Attribute.isPreview (name : String) : Bool :=
  Text.startsWith "tools:" name

/-- Replaces the value at its place, or adds the attribute at the end. -/
def Attribute.put (name value : String) : List Attribute → List Attribute
  | [] => [⟨name, value⟩]
  | a :: rest =>
    if a.name = name then ⟨name, value⟩ :: rest else a :: put name value rest

def Attribute.putAll (present new : List Attribute) : List Attribute :=
  new.foldl (fun list a => put a.name a.value list) present

namespace Element

def put (e : Element) (name value : String) : Element :=
  { e with attributes := Attribute.put name value e.attributes }

def addChild (e child : Element) : Element :=
  { e with children := e.children ++ [child] }

/-- The value under a name as it is written. -/
def get? (e : Element) (name : String) : Option String :=
  (e.attributes.find? (·.name == name)).map (·.value)

/-- The first value under a bare name, whatever the namespace, previews apart. -/
def getBare? (e : Element) (bare : String) : Option String :=
  (e.attributes.find? fun a =>
    !Attribute.isPreview a.name && Attribute.bareName a.name == bare).map (·.value)

mutual
/-- The number of levels; an element without children has one. -/
def height : Element → Nat
  | ⟨_, _, children⟩ => heightAll children + 1
def heightAll : List Element → Nat
  | [] => 0
  | e :: rest => max e.height (heightAll rest)
end

mutual
def size : Element → Nat
  | ⟨_, _, children⟩ => sizeAll children + 1
def sizeAll : List Element → Nat
  | [] => 0
  | e :: rest => e.size + sizeAll rest
end

theorem size_eq (e : Element) : e.size = sizeAll e.children + 1 := by
  cases e
  rfl

theorem sizeAll_append (l m : List Element) : sizeAll (l ++ m) = sizeAll l + sizeAll m := by
  induction l with
  | nil => simp [sizeAll]
  | cons e l ih => simp [sizeAll, ih, Nat.add_assoc]

mutual
/-- The elements in document order, each with its level. -/
def outline (level : Nat) : Element → List (Nat × Element)
  | ⟨tag, attributes, children⟩ =>
    (level, ⟨tag, attributes, children⟩) :: outlineAll (level + 1) children
def outlineAll (level : Nat) : List Element → List (Nat × Element)
  | [] => []
  | e :: rest => e.outline level ++ outlineAll level rest
end

/-- Induction on a tree: a property passes from all children to their parent. -/
theorem induct {P : Element → Prop}
    (node : ∀ tag attributes children, (∀ c ∈ children, P c) → P ⟨tag, attributes, children⟩) :
    ∀ e, P e :=
  @Element.rec P (fun children => ∀ c ∈ children, P c)
    (fun tag attributes children ih => node tag attributes children ih)
    (fun _ h => nomatch h)
    (fun _ _ first rest c h => by
      rcases List.mem_cons.mp h with rfl | h
      · exact first
      · exact rest c h)

end Element

end LayoutCompose
