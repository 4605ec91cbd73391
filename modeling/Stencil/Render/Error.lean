import Stencil.Template
import Stencil.Utf8
/-!
# RenderError — why a template cannot be rendered

Rendering stops at the first error.  All errors but a failing sink are found at a position of the template.
-/
namespace Stencil

inductive SinkFailure
  /-- It refuses the write. -/
  | closed
  /-- It accepts the write, but none of its bytes. -/
  | full
deriving DecidableEq, Repr

def SinkFailure.message : SinkFailure → String
  | .closed => "closed"
  | .full => "failed to write whole buffer"

inductive TypeMismatch
  | rendered (got : Ty)
  | condition (got : Ty)
  | negated (got : Ty)
  | operands (left : Ty) (op : BinOp) (right : Ty)
  | argument (number : Nat) (func : Bytes) (want got : Ty)
deriving DecidableEq, Repr

def TypeMismatch.message : TypeMismatch → String
  | .rendered got => s!"cannot render {got.describe}, expected string"
  | .condition got => s!"if condition must be bool, got {got.describe}"
  | .negated got => s!"operator '!' requires bool, got {got.describe}"
  | .operands l op r => s!"invalid operation: {l.describe} {op.symbol} {r.describe}"
  | .argument n f want got => s!"argument {n} of {Utf8.toText f} must be {want.describe}, got {got.describe}"

inductive RenderError.Cause
  | mismatch (m : TypeMismatch)
  | unboundName (name : Bytes)
  | unknownFunction (name : Bytes)
  | argCount (func : Bytes) (want got : Nat)
  | switchUnsupported
deriving DecidableEq, Repr

def RenderError.Cause.message : RenderError.Cause → String
  | .mismatch m => m.message
  | .unboundName x => s!"undefined variable '{Utf8.toText x}'"
  | .unknownFunction f => s!"undefined function '{Utf8.toText f}'"
  | .argCount f want got => s!"function {Utf8.toText f} expects {want} arguments, got {got}"
  | .switchUnsupported => "'switch' statements are not supported"

/-- Why rendering stopped: the template is at fault at a position, or the sink failed. -/
inductive RenderError
  | template (cause : RenderError.Cause) (pos : Position)
  | sink (failure : SinkFailure)
deriving DecidableEq, Repr

namespace RenderError

def pos? : RenderError → Option Position
  | .template _ pos => some pos
  | .sink _ => none

def message : RenderError → String
  | .template cause _ => cause.message
  | .sink failure => s!"failed to write output: {failure.message}"

def describe (e : RenderError) : String :=
  match e.pos? with
  | some pos => s!"{e.message} at {pos.oneBased}"
  | none => e.message

end RenderError
end Stencil
