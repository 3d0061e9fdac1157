/-!
# Diagnostics

What a conversion has to say about a layout: a message, its kind and, in most
cases, what to do about it. Warnings come before suggestions.
-/

namespace LayoutCompose

inductive Diagnostic.Kind where
  | unsupported
  | deprecated
  | bestPractice
  | migration
  | performance
  /-- The source is no well-formed layout. -/
  | malformed
  /-- The layout is larger than allowed. -/
  | limit
  deriving DecidableEq, Repr

structure Diagnostic where
  kind : Diagnostic.Kind
  message : String
  remedy : Option String := none
  deriving DecidableEq, Repr

namespace Diagnostic

def Kind.name : Kind → String
  | unsupported => "unsupported"
  | deprecated => "deprecated"
  | bestPractice => "best_practice"
  | migration => "migration"
  | performance => "performance"
  | malformed => "syntax"
  | limit => "limit"

def Kind.isRejection : Kind → Bool
  | malformed | limit => true
  | _ => false

def text (d : Diagnostic) : String :=
  match d.remedy with
  | some remedy => d.message ++ " (" ++ remedy ++ ")"
  | none => d.message

end Diagnostic

structure Report where
  warnings : List Diagnostic := []
  suggestions : List Diagnostic := []
  deriving DecidableEq, Repr

end LayoutCompose
