import LayoutCompose.Value.Argb

/-!
# Expressions for attribute values

The code expressions that references and colour literals stand for. System colours
and theme attributes are looked up by name.
-/

namespace LayoutCompose

inductive Resource where
  | string
  | color
  | dimen
  | drawable
  | mipmap
  deriving DecidableEq, Repr

namespace Resource

def all : List Resource := [string, color, dimen, drawable, mipmap]

/-- The resource class, as references and generated code spell it. -/
def family : Resource → String
  | string => "string"
  | color => "color"
  | dimen => "dimen"
  | drawable => "drawable"
  | mipmap => "mipmap"

def accessor : Resource → String
  | string => "stringResource"
  | color => "colorResource"
  | dimen => "dimensionResource"
  | drawable | mipmap => "painterResource"

end Resource

inductive Expr where
  | resource (family : Resource) (name : String)
  | argb (color : Argb)
  /-- A predefined colour. -/
  | namedColor (name : String)
  /-- A colour of the theme. -/
  | themeColor (role : String)
  | dp (n : Nat)
  deriving DecidableEq, Repr

namespace Expr

def code : Expr → String
  | resource family name =>
    family.accessor ++ "(R." ++ family.family ++ "." ++ name ++ ")"
  | argb color => color.code
  | namedColor name => "Color." ++ name
  | themeColor role => "MaterialTheme.colorScheme." ++ role
  | dp n => toString n ++ ".dp"

def isColor : Expr → Bool
  | resource family _ => family == .color
  | argb _ | namedColor _ | themeColor _ => true
  | dp _ => false

def gray : Channel := .double (Number.lastDigit 10)

def systemColors : List (String × Expr) := [
  ("white", namedColor "White"),
  ("black", namedColor "Black"),
  ("transparent", namedColor "Transparent"),
  ("darker_gray", argb ⟨.full, gray, gray, gray⟩),
  ("background_light", argb ⟨.full, .full, .full, .full⟩)]

def themeAttributes : List (String × Expr) := [
  ("colorPrimary", themeColor "primary"),
  ("colorPrimaryDark", themeColor "primaryContainer"),
  ("colorPrimaryVariant", themeColor "primaryContainer"),
  ("colorOnPrimary", themeColor "onPrimary"),
  ("colorAccent", themeColor "secondary"),
  ("colorSecondary", themeColor "secondary"),
  ("colorSecondaryVariant", themeColor "secondaryContainer"),
  ("colorOnSecondary", themeColor "onSecondary"),
  ("colorBackground", themeColor "background"),
  ("colorOnBackground", themeColor "onBackground"),
  ("colorSurface", themeColor "surface"),
  ("colorOnSurface", themeColor "onSurface"),
  ("colorError", themeColor "error"),
  ("colorOnError", themeColor "onError"),
  ("textColorPrimary", themeColor "onSurface"),
  ("textColorSecondary", themeColor "onSurfaceVariant"),
  ("colorControlNormal", themeColor "onSurfaceVariant"),
  ("colorControlActivated", themeColor "primary"),
  ("actionBarSize", dp 56),
  ("listPreferredItemHeight", dp 64),
  ("listPreferredItemHeightSmall", dp 48),
  ("listPreferredItemHeightLarge", dp 80)]

def systemColor? (name : String) : Option Expr := systemColors.lookup name

def themeAttribute? (name : String) : Option Expr := themeAttributes.lookup name

end Expr

end LayoutCompose
