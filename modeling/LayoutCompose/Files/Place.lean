/-!
# Places

Where a path leads to. A place is given by names below the working directory, below
one of the directories above it, or below the root. Directories above the working
directory have no names here, so a way that goes up and comes down again by name is
a place of its own.
-/

namespace LayoutCompose

inductive Base where
  | root
  /-- The directory so many levels above the working directory. -/
  | working (levels : Nat)
  deriving DecidableEq, Repr

structure Place where
  base : Base
  /-- The names from the base down. -/
  names : List String
  deriving DecidableEq, Repr

namespace Place

def here : Place := ⟨.working 0, []⟩

def child (p : Place) (name : String) : Place := ⟨p.base, p.names ++ [name]⟩

/-- The directory that holds a place; the root holds itself. -/
def up (p : Place) : Place :=
  if p.names.isEmpty then
    match p.base with
    | .root => p
    | .working levels => ⟨.working (levels + 1), []⟩
  else ⟨p.base, p.names.dropLast⟩

/-- The names from `p` down to `q`, if `q` is `p` or below it. -/
def namesTo? (p q : Place) : Option (List String) :=
  if p.base = q.base then p.names.isPrefixOf? q.names else none

end Place

end LayoutCompose
