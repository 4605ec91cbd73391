import Stencil.Order
import Stencil.Utf8
/-!
# Path — file paths and their order

A path is a byte string.  What it names is its list of components: repeated and trailing slashes say nothing, and
neither does a dot, except at the front of a relative path.  Paths are compared and ordered by their components.
-/
namespace Stencil

abbrev Path := Bytes

inductive Component
  | root
  /-- The dot at the front of a relative path. -/
  | here
  | up
  | name (s : Bytes)
deriving DecidableEq, Repr

namespace Component

def rank : Component → Nat
  | .root => 0
  | .here => 1
  | .up => 2
  | .name _ => 3

def lt : Component → Component → Bool
  | .name a, .name b => KeyOrder.lt a b
  | a, b => Nat.blt a.rank b.rank

theorem lt_irrefl (a : Component) : lt a a = false := by
  cases a with
  | name s => exact KeyOrder.irrefl s
  | root | here | up => rfl

theorem lt_trans (a b c : Component) (h₁ : lt a b = true) (h₂ : lt b c = true) : lt a c = true := by
  cases a <;> cases b <;> cases c <;> simp_all [lt, rank, Nat.blt]
  exact KeyOrder.trans _ _ _ h₁ h₂

theorem eq_of_not_lt (a b : Component) (h₁ : lt a b = false) (h₂ : lt b a = false) : a = b := by
  cases a <;> cases b <;> simp_all [lt, rank, Nat.blt]
  exact KeyOrder.eq_of_not_lt _ _ h₁ h₂

end Component

instance : KeyOrder Component where
  lt := Component.lt
  irrefl := Component.lt_irrefl
  trans := Component.lt_trans
  eq_of_not_lt := Component.eq_of_not_lt

namespace Path

def component? : Bytes → Option Component
  | [] => none
  | [Byte.dot] => none
  | [Byte.dot, Byte.dot] => some .up
  | s => some (.name s)

/-- The component that only the front of a path can have. -/
def front : Path → List Component
  | Byte.slash :: _ => [.root]
  | [Byte.dot] => [.here]
  | Byte.dot :: Byte.slash :: _ => [.here]
  | _ => []

def components (p : Path) : List Component := front p ++ (Bytes.split Byte.slash p).filterMap component?

def describe (p : Path) : String := Utf8.toText p

def join (p : Path) (name : Bytes) : Path :=
  match p.getLast? with
  | none => name
  | some Byte.slash => p ++ name
  | some _ => p ++ Byte.slash :: name

end Path
end Stencil
