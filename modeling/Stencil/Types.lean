/-!
# Types — the types of values

There are strings and booleans; `function` only describes what a builtin's signature may mention.  The order of `all`
decides ties between types.
-/
namespace Stencil

inductive Ty
  | string | bool | function
deriving DecidableEq, Repr, Inhabited

namespace Ty

/-- The types in the order in which ties are decided. -/
def all : List Ty := [.string, .bool, .function]

def describe : Ty → String
  | .string => "string"
  | .bool => "bool"
  | .function => "function"

end Ty
end Stencil
