import LayoutCompose.Number.Integer
import LayoutCompose.Text.Search

/-!
# Dimensions

Sizes, paddings and bounds are a whole number, whatever unit follows it, or a
reference to a dimension resource. Other values give no dimension.
-/

namespace LayoutCompose

inductive Dimension where
  | dp (n : Int)
  | resource (name : String)
  deriving DecidableEq, Repr

namespace Dimension

def read? (s : String) : Option Dimension :=
  match Text.after? "@dimen/" s with
  | some name => some (resource name)
  | none => (Number.leadingInteger? s).map dp

def code : Dimension → String
  | dp n => toString n ++ ".dp"
  | resource name => "dimensionResource(R.dimen." ++ name ++ ")"

end Dimension

end LayoutCompose
