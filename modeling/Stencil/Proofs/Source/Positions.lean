import Stencil.Proofs.Source.Lossless
/-!
# Positions — where the tokens of a source stand

Later offsets have later positions (`LineIndex.position_lt`), and every token starts after the one before it, so the
tokens of a source stand at ever later positions (`Lexeme.inOrder_ofSource`).
-/
namespace Stencil

open KeyOrder (lt)

namespace LineIndex

theorem lt_of_mem_startsAfter {x : Nat} : ∀ {s : Bytes} {offset : Nat}, x ∈ startsAfter offset s → offset < x
  | b :: r, offset, h => by
    rw [startsAfter] at h
    split at h
    · rcases List.mem_cons.1 h with rfl | h
      · exact Nat.lt_succ_self offset
      · exact Nat.lt_of_succ_lt (lt_of_mem_startsAfter h)
    · exact Nat.lt_of_succ_lt (lt_of_mem_startsAfter h)

theorem pairwise_startsAfter : ∀ (s : Bytes) (offset : Nat), (startsAfter offset s).Pairwise (· < ·)
  | [], _ => .nil
  | b :: r, offset => by
    rw [startsAfter]
    split
    · exact .cons (fun _ => lt_of_mem_startsAfter) (pairwise_startsAfter r (offset + 1))
    · exact pairwise_startsAfter r (offset + 1)

theorem getD_starts_lt (s : Bytes) {i j : Nat} (hij : i < j) (hj : j < (ofSource s).starts.size) :
    (ofSource s).starts.getD i 0 < (ofSource s).starts.getD j 0 := by
  have hp : (0 :: startsAfter 0 s).Pairwise (· < ·) :=
    .cons (fun _ => lt_of_mem_startsAfter) (pairwise_startsAfter s 0)
  have hi : i < (ofSource s).starts.size := by omega
  rw [Array.getD_eq_getD_getElem?, Array.getD_eq_getD_getElem?, Array.getElem?_eq_getElem hi,
    Array.getElem?_eq_getElem hj]
  exact List.pairwise_iff_getElem.1 hp i j hi hj hij

theorem getD_starts_le (s : Bytes) {i j : Nat} (hij : i ≤ j) (hj : j < (ofSource s).starts.size) :
    (ofSource s).starts.getD i 0 ≤ (ofSource s).starts.getD j 0 := by
  rcases Nat.eq_or_lt_of_le hij with rfl | hlt
  · exact Nat.le_refl _
  · exact Nat.le_of_lt (getD_starts_lt s hlt hj)

/-- **What the search finds**: a line that starts at or before the offset, where the next one starts after it. -/
theorem search_spec {starts : Array Nat} {offset : Nat} : ∀ (lo hi : Nat), lo < hi → starts.getD lo 0 ≤ offset →
    hi = starts.size ∨ offset < starts.getD hi 0 →
    search starts offset lo hi < hi ∧ starts.getD (search starts offset lo hi) 0 ≤ offset ∧
      (search starts offset lo hi + 1 = starts.size ∨ offset < starts.getD (search starts offset lo hi + 1) 0) := by
  intro lo hi hlt hlo hhi
  rw [search]
  split
  · have heq : hi = lo + 1 := by omega
    subst heq
    exact ⟨hlt, hlo, hhi⟩
  · split
    · rename_i hle
      exact search_spec ((lo + hi) / 2) hi (by omega) hle hhi
    · rename_i hgt
      obtain ⟨h₁, h₂, h₃⟩ := search_spec lo ((lo + hi) / 2) (by omega) hlo (.inr (by omega))
      exact ⟨by omega, h₂, h₃⟩
termination_by lo hi => hi - lo

theorem position_min (s : Bytes) (offset : Nat) :
    (ofSource s).position (min offset s.length) = (ofSource s).position offset := by
  rw [position, position, show (ofSource s).size = s.length from rfl, Nat.min_assoc, Nat.min_self]

/-- **The line of a position is the last one that starts at or before the offset.** -/
theorem starts_le_iff (s : Bytes) (offset : Nat) : ((ofSource s).position offset).line < (ofSource s).starts.size ∧
    ∀ i < (ofSource s).starts.size,
      (ofSource s).starts.getD i 0 ≤ min offset s.length ↔ i ≤ ((ofSource s).position offset).line := by
  have hsize : 0 < (ofSource s).starts.size := by simp [ofSource]
  have hzero : (ofSource s).starts.getD 0 0 ≤ min offset s.length := by simp [ofSource]
  obtain ⟨hlt, hle, hnext⟩ := search_spec 0 _ hsize hzero (.inl rfl)
  rw [position, show (ofSource s).size = s.length from rfl]
  dsimp only
  generalize search (ofSource s).starts (min offset s.length) 0 (ofSource s).starts.size = line at hlt hle hnext ⊢
  refine ⟨hlt, fun i hi => ⟨fun h => ?_, fun h => (getD_starts_le s h hlt).trans hle⟩⟩
  -- a later line starts at or behind the next one
  by_contra hline
  have hmono := getD_starts_le s (show line + 1 ≤ i by omega) hi
  omega

theorem starts_add_column (s : Bytes) (offset : Nat) : (ofSource s).starts.getD ((ofSource s).position offset).line 0 +
    ((ofSource s).position offset).column = min offset s.length := by
  obtain ⟨hlt, hiff⟩ := starts_le_iff s offset
  exact Nat.add_sub_of_le ((hiff _ hlt).2 (Nat.le_refl _))

/-- A place in the index where an offset could be put in: the lines before it start before the offset, and those from it
on behind the offset. -/
structure IsInsertionPoint (starts : Array Nat) (offset i : Nat) : Prop where
  le : i ≤ starts.size
  before : ∀ j < i, starts.getD j 0 < offset
  behind : ∀ j, i ≤ j → j < starts.size → offset < starts.getD j 0

theorem line_eq_of_start (s : Bytes) {offset i : Nat} (hi : i < (ofSource s).starts.size)
    (h : (ofSource s).starts.getD i 0 = min offset s.length) : ((ofSource s).position offset).line = i := by
  obtain ⟨hlt, hiff⟩ := starts_le_iff s offset
  refine Nat.le_antisymm (Nat.le_of_not_lt fun hline => ?_) ((hiff i hi).1 (Nat.le_of_eq h))
  have hmono := getD_starts_lt s hline hlt
  have hle := (hiff _ hlt).2 (Nat.le_refl _)
  omega

/-- The line of an offset that no line starts at is the one in front of the place for it, which is not in front of all
lines. -/
theorem line_add_one_of_insertionPoint (s : Bytes) {offset i : Nat}
    (h : IsInsertionPoint (ofSource s).starts (min offset s.length) i) : ((ofSource s).position offset).line + 1 = i := by
  obtain ⟨hlt, hiff⟩ := starts_le_iff s offset
  refine Nat.le_antisymm (Nat.lt_of_not_le fun hline => ?_) (Nat.le_of_not_lt fun hline => ?_)
  · have hle := (hiff _ hlt).2 (Nat.le_refl _)
    have hbehind := h.behind _ hline hlt
    omega
  · have hi : ((ofSource s).position offset).line + 1 < (ofSource s).starts.size := Nat.lt_of_lt_of_le hline h.le
    have hle := (hiff _ hi).1 (Nat.le_of_lt (h.before _ hline))
    omega

/-- **Later offsets have later positions.** -/
theorem position_lt (s : Bytes) {a b : Nat} (hab : a < b) (hb : b ≤ s.length) :
    lt ((ofSource s).position a) ((ofSource s).position b) = true := by
  obtain ⟨hlt, hstart⟩ := starts_le_iff s a
  have hle := (hstart _ hlt).2 (Nat.le_refl _)
  have hline := ((starts_le_iff s b).2 _ hlt).1 (by omega)
  have hacol := starts_add_column s a
  have hbcol := starts_add_column s b
  show Position.lt _ _ = true
  rw [Position.lt_iff]
  rcases Nat.eq_or_lt_of_le hline with heq | hlt
  · rw [← heq] at hbcol
    exact .inr ⟨heq, by omega⟩
  · exact .inl hlt

end LineIndex

namespace Lexer

theorem bounds_of_mem_tokens {t : Token} {s : Bytes} {m : Mode} {offset : Nat}
    (ht : t ∈ (Lexer.mk m offset s).tokens) : offset ≤ t.start ∧ t.start < offset + s.length := by
  obtain ⟨hstart, hstop, -⟩ := span_of_mem_tokens m offset s t ht
  have hpos := List.length_pos_iff.2 (of_mem_tokens m offset s t ht).2
  rw [Token.stop] at hstop
  exact ⟨hstart, by omega⟩

theorem pairwise_start (s : Bytes) (m : Mode) (offset : Nat) :
    (Lexer.mk m offset s).tokens.Pairwise (fun t u => t.start < u.start) := by
  refine (pairwise_stop m offset s).imp_of_mem fun {t u} ht _ htu => ?_
  have hpos := List.length_pos_iff.2 (of_mem_tokens m offset s t ht).2
  rw [Token.stop] at htu
  omega

end Lexer

abbrev Lexeme.InOrder (ts : List Lexeme) : Prop := ts.Pairwise fun t u => lt t.pos u.pos = true

/-- **The tokens of a source stand at ever later positions.** -/
theorem Lexeme.inOrder_ofSource (s : Bytes) : Lexeme.InOrder (Lexeme.ofSource s) := by
  have hb : ∀ t ∈ (Lexer.ofSource s).tokens, t.start < s.length := fun t ht => by
    have h := (Lexer.bounds_of_mem_tokens ht).2
    omega
  rw [Lexeme.ofSource, Lexeme.InOrder, List.pairwise_map]
  refine (Lexer.pairwise_start s .outside 0).imp_of_mem fun {t u} ht hu htu => ?_
  exact LineIndex.position_lt s htu (Nat.le_of_lt (hb u hu))

theorem Lexeme.inOrder_eof (s : Bytes) : Lexeme.InOrder ((Token.ofSource s).map (LineIndex.ofSource s).lexeme) := by
  rw [Token.ofSource, List.map_append]
  refine List.pairwise_append.2 ⟨Lexeme.inOrder_ofSource s, List.pairwise_singleton _ _, fun t ht u hu => ?_⟩
  obtain ⟨x, hx, rfl⟩ := List.mem_map.1 ht
  rw [List.mem_singleton.1 hu]
  have hstart := (Lexer.bounds_of_mem_tokens hx).2
  rw [Nat.zero_add] at hstart
  exact LineIndex.position_lt s hstart (Nat.le_refl s.length)

end Stencil
