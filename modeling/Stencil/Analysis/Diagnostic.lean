import Stencil.Path
import Stencil.Position
import Stencil.Types
/-!
# Diagnostic — what is wrong with the types of a template

Diagnostics never stop an analysis.  Each has a kind, a path and a position, and they are listed by path, then by
position (`Diagnostic.le`).
-/
namespace Stencil

inductive Diagnostic.Kind
  | wrongUsage (want got : Ty)
  | invalidOperation (left right : Ty)
  /-- Two names are compared, neither of which has a type of its own. -/
  | crossVar (left right : Bytes)
  | argCount (func : Bytes) (want got : Nat)
  | unknownBuiltin (name : Bytes) (detail : String)
deriving DecidableEq, Repr

structure Diagnostic where
  path : Path
  pos : Position
  kind : Diagnostic.Kind
deriving DecidableEq, Repr

namespace Diagnostic

def Kind.message : Kind → String
  | .wrongUsage want got => s!"cannot use {got.describe} as {want.describe}"
  | .invalidOperation x y => s!"invalid operation: mismatched types {x.describe} and {y.describe}"
  | .crossVar x y =>
    s!"type of {Utf8.toText x} depends on type of {Utf8.toText y} (cross-var typing is not supported yet)"
  | .argCount f want got => s!"function {Utf8.toText f} expects {want} arguments, got {got}"
  | .unknownBuiltin f detail => s!"builtin {Utf8.toText f} not found: {detail}"

def location (d : Diagnostic) : String := s!"{d.path.describe}:{d.pos.oneBased}:"

def describe (d : Diagnostic) : String := s!"{d.location} {d.kind.message}"

/-- Whether `d` belongs before `e`: by the components of their paths, then by position. -/
def before (d e : Diagnostic) : Bool :=
  KeyOrder.lt d.path.components e.path.components ||
    (!KeyOrder.lt e.path.components d.path.components && KeyOrder.lt d.pos e.pos)

def le (d e : Diagnostic) : Bool := !before e d

end Diagnostic
end Stencil
