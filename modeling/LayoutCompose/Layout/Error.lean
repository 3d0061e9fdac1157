import LayoutCompose.Layout.Location
import LayoutCompose.Markup.Fault

/-!
# Reasons to reject a layout

A source text is rejected because its markup is faulty, because it holds no
element at all, or because the tree is deeper or larger than allowed.
-/

namespace LayoutCompose

inductive LayoutError where
  | malformed (fault : Markup.Fault) (here : Location)
  | noRoot
  | tooDeep (limit : Nat)
  | tooLarge (limit : Nat)
  deriving DecidableEq, Repr

namespace LayoutError

def inSource (source : String) (offset : Nat) (fault : Markup.Fault) : LayoutError :=
  malformed fault (.ofOffset source offset)

def message : LayoutError → String
  | malformed fault here => here.describe fault.message
  | noRoot => "document has no root element"
  | tooDeep limit => "nesting depth exceeds the limit of " ++ toString limit ++ " levels"
  | tooLarge limit => "document has more than " ++ toString limit ++ " elements"

def isLimit : LayoutError → Bool
  | tooDeep _ | tooLarge _ => true
  | malformed .. | noRoot => false

end LayoutError

end LayoutCompose
