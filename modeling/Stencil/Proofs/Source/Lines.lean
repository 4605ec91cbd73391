import Stencil.Proofs.Path
import Stencil.Proofs.Source.Concat
/-!
# Lines — positions and the lines of a source

A position counts the newlines in front of an offset and the bytes behind the last of them
(`LineIndex.exists_position_eq`).  So it is the one place from which the offset is found again in the lines of the
source: there is a line of its number, which its column does not go beyond, and the lines in front of that one lead up to
it (`LineIndex.position_eq_iff`).
-/
namespace Stencil

open Position (through)

/-! ## Newlines in front of an offset -/

/-- The last line of a byte string starts at an offset: just behind its last newline, or at its front. -/
structure Bytes.LastLineAt (u : Bytes) (start : Nat) : Prop where
  le : start ≤ u.length
  behind : start = 0 ∨ u[start - 1]? = some Byte.newline
  last : Byte.newline ∉ u.drop start

namespace Bytes

variable {u : Bytes} {b : UInt8} {start : Nat}

theorem lastLineAt_newline (u : Bytes) : LastLineAt (u ++ [Byte.newline]) (u.length + 1) := by
  have hlength : (u ++ [Byte.newline]).length = u.length + 1 := List.length_append
  refine ⟨Nat.le_of_eq hlength.symm, .inr ?_, ?_⟩
  · rw [Nat.add_sub_cancel, List.getElem?_concat_length]
  · rw [List.drop_of_length_le (Nat.le_of_eq hlength)]
    exact List.not_mem_nil

theorem LastLineAt.concat (h : u.LastLineAt start) (hb : b ≠ Byte.newline) : LastLineAt (u ++ [b]) start := by
  obtain ⟨hle, hbehind, hlast⟩ := h
  refine ⟨?_, hbehind.imp_right fun hget => ?_, ?_⟩
  · rw [List.length_append]
    omega
  · rw [List.getElem?_append_left (List.getElem?_eq_some_iff.1 hget).1, hget]
  · rw [List.drop_append_of_le_length hle, List.mem_append, List.mem_singleton, not_or]
    exact ⟨hlast, Ne.symm hb⟩

end Bytes

/-- Bytes lead to as many lines as they have newlines, and as many columns as stand behind the last one. -/
theorem Position.exists_through_eq (u : Bytes) :
    ∃ start, u.LastLineAt start ∧ zero.through u = ⟨u.count Byte.newline, u.length - start⟩ := by
  induction u using List.reverseRecOn with
  | nil => exact ⟨0, ⟨Nat.le_refl 0, .inl rfl, List.not_mem_nil⟩, rfl⟩
  | append_singleton u b ih =>
    obtain ⟨start, hstart, hu⟩ := ih
    rw [through_append, hu, List.count_append, List.length_append, through, List.foldl_cons, List.foldl_nil, advance]
    by_cases hb : b = Byte.newline
    · subst hb
      exact ⟨u.length + 1, Bytes.lastLineAt_newline u, by simp⟩
    · refine ⟨start, hstart.concat hb, ?_⟩
      have hle := hstart.le
      simp [hb]
      omega

/-! ## Lines -/

def Bytes.sizeOfLines : List Bytes → Nat
  | [] => 0
  | line :: ls => line.length + 1 + sizeOfLines ls

theorem Bytes.sizeOfLines_take_lt {line : Bytes} : ∀ {ls : List Bytes} {i j : Nat}, ls[i]? = some line → i < j →
    sizeOfLines (ls.take i) + line.length < sizeOfLines (ls.take j)
  | _ :: ls, 0, j + 1, h, _ => by
    cases h
    simp only [List.take_zero, List.take_succ_cons, sizeOfLines]
    omega
  | _ :: ls, i + 1, j + 1, h, hij => by
    have ih : sizeOfLines (ls.take i) + line.length < sizeOfLines (ls.take j) :=
      sizeOfLines_take_lt h (Nat.lt_of_succ_lt_succ hij)
    simp only [List.take_succ_cons, sizeOfLines]
    omega

/-- A position marks an offset in a source: there is a line of its number, its column is not beyond the end of that line,
and the lines in front of it and the column make up the offset. -/
def Position.Marks (p : Position) (s : Bytes) (offset : Nat) : Prop :=
  ∃ line, s.lines[p.line]? = some line ∧ p.column ≤ line.length ∧
    Bytes.sizeOfLines (s.lines.take p.line) + p.column = offset

namespace Position

variable {p q : Position} {s : Bytes} {offset : Nat}

theorem Marks.unique (hp : p.Marks s offset) (hq : q.Marks s offset) : p = q := by
  obtain ⟨l, hl, hlcol, hlsum⟩ := hp
  obtain ⟨m, hm, hmcol, hmsum⟩ := hq
  obtain ⟨pline, pcol⟩ := p
  obtain ⟨qline, qcol⟩ := q
  dsimp only at *
  rcases Nat.lt_trichotomy pline qline with hlt | rfl | hlt
  · have := Bytes.sizeOfLines_take_lt hl hlt
    omega
  · rw [Position.mk.injEq]
    omega
  · have := Bytes.sizeOfLines_take_lt hm hlt
    omega

theorem zero_marks (s : Bytes) : zero.Marks s 0 := by
  obtain ⟨line, ls, hs⟩ := List.exists_cons_of_ne_nil (Bytes.split_ne_nil Byte.newline s)
  exact ⟨line, by rw [Bytes.lines, hs]; rfl, Nat.zero_le _, rfl⟩

theorem Marks.cons (b : UInt8) (h : p.Marks s offset) : ((zero.advance b).behind p).Marks (b :: s) (offset + 1) := by
  obtain ⟨line, hline, hcol, hsum⟩ := h
  obtain ⟨pline, pcol⟩ := p
  rw [Bytes.lines] at hline hsum
  by_cases hb : b = Byte.newline
  · -- the lines are those of `s` behind an empty one
    have hbehind : (zero.advance b).behind ⟨pline, pcol⟩ = ⟨pline + 1, pcol⟩ := by
      cases pline <;> simp [advance, behind, zero, hb, Nat.add_comm]
    rw [hbehind, Marks, Bytes.lines, hb, Bytes.split_cons_self]
    refine ⟨line, hline, hcol, ?_⟩
    simp only [List.take_succ_cons, Bytes.sizeOfLines, List.length_nil] at hsum ⊢
    omega
  · -- the first line of `s` is longer by the byte
    obtain ⟨first, ls, hs, hbs⟩ := Bytes.split_cons_of_ne hb s
    rw [hs] at hline hsum
    rw [Marks, Bytes.lines, hbs]
    cases pline with
    | zero =>
      have hbehind : (zero.advance b).behind ⟨0, pcol⟩ = ⟨0, pcol + 1⟩ := by
        simp [advance, behind, zero, hb, Nat.add_comm]
      rw [hbehind]
      cases hline
      refine ⟨_, rfl, Nat.succ_le_succ hcol, ?_⟩
      simp only [List.take_zero, Bytes.sizeOfLines] at hsum ⊢
      omega
    | succ n =>
      have hbehind : (zero.advance b).behind ⟨n + 1, pcol⟩ = ⟨n + 1, pcol⟩ := by
        simp [advance, behind, zero, hb]
      rw [hbehind]
      refine ⟨line, hline, hcol, ?_⟩
      simp only [List.take_succ_cons, Bytes.sizeOfLines, List.length_cons] at hsum ⊢
      omega

/-- **What the bytes in front of an offset lead to marks the offset.** -/
theorem through_marks : ∀ (s : Bytes) {offset : Nat}, offset ≤ s.length → (zero.through (s.take offset)).Marks s offset
  | s, 0, _ => by
    rw [List.take_zero]
    exact zero_marks s
  | b :: s, offset + 1, h => by
    rw [List.take_succ_cons, show zero.through (b :: s.take offset) = (zero.advance b).through (s.take offset) from rfl,
      through_eq]
    exact (through_marks s (Nat.le_of_succ_le_succ h)).cons b

end Position

namespace LineIndex

theorem position_eq_through (s : Bytes) (offset : Nat) :
    (ofSource s).position offset = Position.zero.through (s.take (min offset s.length)) := by
  rw [← position_min, position_eq s (Nat.min_le_right offset s.length)]

/-- **A position counts the newlines in front of the offset, and the bytes behind the last of them.** -/
theorem exists_position_eq (s : Bytes) (offset : Nat) :
    ∃ start, Bytes.LastLineAt (s.take (min offset s.length)) start ∧ (ofSource s).position offset =
      ⟨(s.take (min offset s.length)).count Byte.newline, min offset s.length - start⟩ := by
  obtain ⟨start, hstart, hp⟩ := Position.exists_through_eq (s.take (min offset s.length))
  rw [List.length_take, Nat.min_eq_left (Nat.min_le_right offset s.length)] at hp
  exact ⟨start, hstart, (position_eq_through s offset).trans hp⟩

/-- **The position of an offset is the one that marks it among the lines.** -/
theorem position_eq_iff {s : Bytes} {offset : Nat} {p : Position} :
    (ofSource s).position offset = p ↔ p.Marks s (min offset s.length) := by
  have hmarks := Position.through_marks s (Nat.min_le_right offset s.length)
  rw [← position_eq_through] at hmarks
  exact ⟨fun h => h ▸ hmarks, fun h => hmarks.unique h⟩

end LineIndex
end Stencil
