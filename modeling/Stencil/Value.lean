import Stencil.Types
import Stencil.Utf8
/-!
# Value — what expressions evaluate to

A value is a byte string or a boolean.  Every type but `function` has a zero value, which stands in for a name that is
bound to nothing.
-/
namespace Stencil

/-- The values; a string need not be valid UTF-8. -/
inductive Value
  | string (s : Bytes)
  | bool (b : Bool)
deriving DecidableEq, Repr

namespace Value

def ty : Value → Ty
  | .string _ => .string
  | .bool _ => .bool

/-- The value that stands in for an unbound name of a type. -/
def zero? : Ty → Option Value
  | .string => some (.string [])
  | .bool => some (.bool false)
  | .function => none

def describe : Value → String
  | .string s => Utf8.toText s
  | .bool true => "true"
  | .bool false => "false"

end Value
end Stencil
