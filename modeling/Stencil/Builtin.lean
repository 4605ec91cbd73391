import Stencil.SortedMap
import Stencil.Value
/-!
# Builtin — the functions a template can call

A builtin has a signature, a list of parameter types and a result type, and a function on values.  A registry binds
names to builtins; `Registry.standard` is what templates get when nothing else is said.  Callers check the number and
the types of the arguments against the signature; the functions here read their first argument as a string and
anything else as the empty string.
-/
namespace Stencil

structure Builtin where
  params : List Ty
  result : Ty
  run : List Value → Value

namespace Builtin

def stringArg : List Value → Bytes
  | .string s :: _ => s
  | _ => []

def upper (args : List Value) : Value := .string (stringArg args).toUpper

def lower (args : List Value) : Value := .string (stringArg args).toLower

def trim (args : List Value) : Value := .string (stringArg args).trim

def title (args : List Value) : Value := .string (stringArg args).title

def empty (args : List Value) : Value := .bool (stringArg args).isEmpty

def signature (name : Bytes) (b : Builtin) : String :=
  let params := ", ".intercalate (b.params.map Ty.describe)
  s!"{Utf8.toText name}({params}) -> {b.result.describe}"

end Builtin

abbrev Registry := SortedMap Bytes Builtin

namespace Registry

def standard : Registry := .ofList [
  (utf8 "upper", ⟨[.string], .string, Builtin.upper⟩),
  (utf8 "lower", ⟨[.string], .string, Builtin.lower⟩),
  (utf8 "trim", ⟨[.string], .string, Builtin.trim⟩),
  (utf8 "title", ⟨[.string], .string, Builtin.title⟩),
  (utf8 "empty", ⟨[.string], .bool, Builtin.empty⟩)]

def namesText (r : Registry) : String := ", ".intercalate (r.keys.map Utf8.toText)

end Registry
end Stencil
