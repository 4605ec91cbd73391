import Stencil.Bytes
import Stencil.Order
/-!
# Position — where a byte stands in a source

A position is a line and a column, both counted from zero and in bytes; people read them counted from one
(`Position.oneBased`).  `LineIndex` finds the position of an offset by binary search among the line starts.
-/
namespace Stencil

/-- A line and a column, counted in bytes from zero. -/
structure Position where
  line : Nat
  column : Nat
deriving DecidableEq, Repr, Inhabited

namespace Position

def zero : Position := ⟨0, 0⟩

def oneBased (p : Position) : String := s!"{p.line + 1}:{p.column + 1}"

def lt (p q : Position) : Bool :=
  Nat.blt p.line q.line || (p.line == q.line && Nat.blt p.column q.column)

theorem lt_iff (p q : Position) : lt p q = true ↔ p.line < q.line ∨ (p.line = q.line ∧ p.column < q.column) := by
  simp only [lt, Bool.or_eq_true, Bool.and_eq_true, Nat.blt_eq, beq_iff_eq]

end Position

instance : KeyOrder Position where
  lt := Position.lt
  irrefl p := by
    rw [← Bool.not_eq_true, Position.lt_iff]; omega
  trans p q r h₁ h₂ := by
    rw [Position.lt_iff] at *; omega
  eq_of_not_lt p q h₁ h₂ := by
    rw [← Bool.not_eq_true, Position.lt_iff] at h₁ h₂
    obtain ⟨_, _⟩ := p
    obtain ⟨_, _⟩ := q
    simp only [Position.mk.injEq] at *
    omega

structure LineIndex where
  /-- The first is `0`, each later one stands just after a newline, and they increase. -/
  starts : Array Nat
  size : Nat

namespace LineIndex

def startsAfter (offset : Nat) : Bytes → List Nat
  | [] => []
  | b :: r =>
    if b = Byte.newline then (offset + 1) :: startsAfter (offset + 1) r else startsAfter (offset + 1) r

def ofSource (s : Bytes) : LineIndex := ⟨(0 :: startsAfter 0 s).toArray, s.length⟩

/-- The last line of `lo, …, hi - 1` that starts at or before `offset`, given that line `lo` does. -/
def search (starts : Array Nat) (offset lo hi : Nat) : Nat :=
  if hi ≤ lo + 1 then lo
  else if starts.getD ((lo + hi) / 2) 0 ≤ offset then search starts offset ((lo + hi) / 2) hi
  else search starts offset lo ((lo + hi) / 2)
termination_by hi - lo

/-- The position of an offset; offsets past the end count as the end. -/
def position (index : LineIndex) (offset : Nat) : Position :=
  let offset := min offset index.size
  let line := search index.starts offset 0 index.starts.size
  ⟨line, offset - index.starts.getD line 0⟩

end LineIndex
end Stencil
