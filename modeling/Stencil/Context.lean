import Stencil.Context.Json
import Stencil.SortedMap
/-!
# Context — the values that names are bound to

A context binds names to values; of two bindings of one name the later wins.  It is read from the members of an object
(`Context.ofText`), which `Context.ofJson` reads as JSON, and from assignments `name=value` (`Context.assign`); both
accept only names that a template could mention.
-/
namespace Stencil

abbrev Context := SortedMap Bytes Value

inductive ContextError
  | notBindings
  | badName (name : Bytes)
  | badAssignment (text : Bytes)
deriving DecidableEq, Repr

/-- The wording of an error.  What is wrong with a JSON text is not told; `<json>` stands for it. -/
def ContextError.message : ContextError → String
  | .notBindings => "expected a JSON object of string and boolean values: <json>"
  | .badName name => s!"'{Utf8.toText name}' is not a valid identifier"
  | .badAssignment text => s!"invalid assignment '{Utf8.toText text}', expected NAME=VALUE"

/-- The name and the value of an assignment; the value may contain equals signs. -/
def parseAssignment (s : Bytes) : Except ContextError (Bytes × Bytes) :=
  match s.dropWhile (· != Byte.equals) with
  | [] => .error (.badAssignment s)
  | _ :: value =>
    let name := s.takeWhile (· != Byte.equals)
    if Bytes.isName name then .ok (name, value) else .error (.badName name)

namespace Context

/-- The context of a list of bindings; the error tells the first bad name in the order of names. -/
def ofBindings (bindings : List (Bytes × Value)) : Except ContextError Context :=
  let context : Context := .ofList bindings
  match context.keys.find? (fun k => !Bytes.isName k) with
  | some k => .error (.badName k)
  | none => .ok context

/-- What makes the members of an object, in order, of a text that is one. -/
abbrev Reader := Bytes → Option (List (Bytes × Value))

def ofText (read : Reader) (text : Bytes) : Except ContextError Context :=
  match read text with
  | some bindings => ofBindings bindings
  | none => .error .notBindings

def ofJson (text : Bytes) : Except ContextError Context := ofText Json.bindings? text

def assign (c : Context) (text : Bytes) : Except ContextError Context :=
  match parseAssignment text with
  | .ok (name, value) => .ok (c.insert name (.string value))
  | .error e => .error e

def assignAll (c : Context) : List Bytes → Except ContextError Context
  | [] => .ok c
  | s :: ss =>
    match c.assign s with
    | .ok c => assignAll c ss
    | .error e => .error e

end Context
end Stencil
