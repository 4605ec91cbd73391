import Stencil.Proofs.Grammar.Moved
import Stencil.Proofs.Source.Positions
import Stencil.Proofs.Source.Prefix
/-!
# Concat — the tokens of one source behind another

A source that ends with the closer of a tag or a comment leaves nothing open for what is put behind it: its own tokens
stay what they are, and the tokens of the second source follow, moved to where they now stand
(`Lexeme.ofSource_append`).  A position is what the bytes in front of it make of the first one
(`LineIndex.position_eq`), so the positions of the second source are counted on from the end of the first.
-/
namespace Stencil

/-! ## Positions -/

namespace Position

def advance (p : Position) (b : UInt8) : Position :=
  if b = Byte.newline then ⟨p.line + 1, 0⟩ else ⟨p.line, p.column + 1⟩

def through (p : Position) (u : Bytes) : Position := u.foldl advance p

/-- The position `q`, counted on from `p`. -/
def behind (p q : Position) : Position :=
  if q.line = 0 then ⟨p.line, p.column + q.column⟩ else ⟨p.line + q.line, q.column⟩

theorem advance_behind (p q : Position) (b : UInt8) : (p.behind q).advance b = p.behind (q.advance b) := by
  unfold advance behind
  by_cases hb : b = Byte.newline
  · by_cases hq : q.line = 0
    · simp [hb, hq]
    · simp [hb, hq, Nat.add_assoc]
  · by_cases hq : q.line = 0
    · simp [hb, hq, Nat.add_assoc]
    · simp [hb, hq]

theorem through_behind (p : Position) : ∀ (u : Bytes) (q : Position), (p.behind q).through u = p.behind (q.through u)
  | [], _ => rfl
  | b :: u, q => by
    show ((p.behind q).advance b).through u = p.behind ((q.advance b).through u)
    rw [advance_behind, through_behind p u]

theorem through_append (p : Position) (u v : Bytes) : p.through (u ++ v) = (p.through u).through v := List.foldl_append

theorem through_eq (p : Position) (u : Bytes) : p.through u = p.behind (zero.through u) := through_behind p u zero

end Position

namespace LineIndex

open Position (through)

/-- The bytes in front of an offset lead to the line that starts last at or before the offset. -/
theorem line_through : ∀ (s : Bytes) (start offset line o : Nat), start ≤ offset → offset ≤ o → o ≤ offset + s.length →
    ∃ k p, through ⟨line, offset - start⟩ (s.take (o - offset)) = p ∧ p.line = line + k ∧ p.column ≤ o ∧
      (start :: startsAfter offset s)[k]? = some (o - p.column) ∧
        ∀ x, (start :: startsAfter offset s)[k + 1]? = some x → o < x
  | [], start, offset, line, o, hs, ho, hle => by
    obtain rfl : o = offset := by simp only [List.length_nil] at hle; omega
    refine ⟨0, _, rfl, by rw [List.take_nil]; rfl, ?_, ?_, fun x hx => by cases hx⟩
    · rw [List.take_nil]
      exact Nat.sub_le o start
    · rw [List.take_nil]
      exact congrArg some (Nat.sub_sub_self hs).symm
  | b :: r, start, offset, line, o, hs, ho, hle => by
    rw [List.length_cons] at hle
    rcases Nat.eq_or_lt_of_le ho with rfl | hlt
    · refine ⟨0, _, rfl, by rw [Nat.sub_self]; rfl, ?_, ?_, fun x hx => ?_⟩
      · rw [Nat.sub_self]
        exact Nat.sub_le offset start
      · rw [Nat.sub_self]
        exact congrArg some (Nat.sub_sub_self hs).symm
      · exact lt_of_mem_startsAfter (List.mem_of_getElem? hx)
    · have htake : (b :: r).take (o - offset) = b :: r.take (o - (offset + 1)) := by
        rw [show o - offset = (o - (offset + 1)) + 1 by omega, List.take_succ_cons]
      rw [htake]
      show ∃ k p, through (Position.advance ⟨line, offset - start⟩ b) (r.take (o - (offset + 1))) = p ∧ _
      by_cases hb : b = Byte.newline
      · obtain ⟨k, p, hp, hline, hcol, hget, hnext⟩ :=
          line_through r (offset + 1) (offset + 1) (line + 1) o (Nat.le_refl _) (by omega) (by omega)
        rw [Nat.sub_self] at hp
        refine ⟨k + 1, p, ?_, by omega, hcol, ?_, fun x hx => ?_⟩
        · rw [Position.advance, if_pos hb]
          exact hp
        · rw [startsAfter, if_pos hb, List.getElem?_cons_succ]
          exact hget
        · rw [startsAfter, if_pos hb, List.getElem?_cons_succ] at hx
          exact hnext x hx
      · obtain ⟨k, p, hp, hline, hcol, hget, hnext⟩ :=
          line_through r start (offset + 1) line o (by omega) (by omega) (by omega)
        refine ⟨k, p, ?_, hline, hcol, ?_, fun x hx => ?_⟩
        · rw [Position.advance, if_neg hb, show offset - start + 1 = offset + 1 - start by omega]
          exact hp
        · rw [startsAfter, if_neg hb]
          exact hget
        · rw [startsAfter, if_neg hb] at hx
          exact hnext x hx

/-- **A position is what the bytes in front of it lead to.** -/
theorem position_eq (s : Bytes) {i : Nat} (hi : i ≤ s.length) :
    (ofSource s).position i = Position.zero.through (s.take i) := by
  obtain ⟨k, p, hp, hline, hcol, hget, hnext⟩ := line_through s 0 0 0 i (Nat.le_refl 0) (Nat.zero_le i) (by omega)
  rw [show Position.zero.through (s.take i) = p from hp]
  have hk : (ofSource s).starts[k]? = some (i - p.column) := by simpa [ofSource] using hget
  obtain ⟨hksize, -⟩ := Array.getElem?_eq_some_iff.1 hk
  have hkget : (ofSource s).starts.getD k 0 = i - p.column := by
    rw [Array.getD_eq_getD_getElem?, hk, Option.getD_some]
  have hknext : k + 1 < (ofSource s).starts.size → i < (ofSource s).starts.getD (k + 1) 0 := fun h => by
    rw [Array.getD_eq_getD_getElem?, Array.getElem?_eq_getElem h, Option.getD_some]
    exact hnext _ (by simp [ofSource])
  obtain ⟨hlt, hiff⟩ := starts_le_iff s i
  have hadd := starts_add_column s i
  rw [Nat.min_eq_left hi] at hiff hadd
  -- both are the last line that starts at or before the offset
  have hjk : ((ofSource s).position i).line = k := by
    refine Nat.le_antisymm (Nat.le_of_not_lt fun hkj => ?_) ((hiff k hksize).1 (by omega))
    have hle := (hiff (k + 1) (by omega)).2 hkj
    have hgt := hknext (by omega)
    omega
  rw [hjk, hkget] at hadd
  generalize (ofSource s).position i = q at hjk hadd
  cases p
  cases q
  simp only [Position.mk.injEq] at *
  omega

theorem position_append_left (a b : Bytes) {i : Nat} (hi : i ≤ a.length) :
    (ofSource (a ++ b)).position i = (ofSource a).position i := by
  rw [position_eq a hi, position_eq (a ++ b) (by rw [List.length_append]; omega), List.take_append_of_le_length hi]

theorem position_append_right (a b : Bytes) {i : Nat} (hi : i ≤ b.length) :
    (ofSource (a ++ b)).position (a.length + i) = (Position.zero.through a).behind ((ofSource b).position i) := by
  rw [position_eq b hi, position_eq (a ++ b) (by rw [List.length_append]; omega), List.take_length_add_append,
    Position.through_append, Position.through_eq]

end LineIndex

/-! ## Tokens -/

def TokenKind.IsCloser (k : TokenKind) : Prop := k.IsTagCloser ∨ k = .rBracePound

instance (k : TokenKind) : Decidable k.IsCloser := inferInstanceAs (Decidable (_ ∨ _))

theorem TokenKind.IsCloser.after_eq {k : TokenKind} (h : k.IsCloser) : k.after = .outside := by
  rcases h with (rfl | rfl) | rfl <;> rfl

theorem TokenKind.IsCloser.stopsAt {t : Lexeme} (h : t.kind.IsCloser) (rest : Bytes) : t.StopsAt rest := by
  obtain ⟨k, w, p⟩ := t
  rcases h with (rfl | rfl) | rfl <;> trivial

def Token.later (d : Nat) (t : Token) : Token := ⟨t.kind, t.start + d, t.text⟩

namespace Mode

theorem skip_gap_append (m : Mode) (s c : Bytes) : m.skip (m.gap s ++ c) = m.skip c := by
  cases m with
  | tag => exact List.dropWhile_append_of_pos fun b hb => (of_mem_gap hb).2
  | outside => rfl
  | comment => rfl

theorem scan_append_more {m : Mode} {s : Bytes} {p : Piece} (h : m.scan (m.skip s) = some p) (hp : p.kind ≠ .error)
    {c : Bytes} (hc : Lexeme.StopsAt ⟨p.kind, p.text, .zero⟩ (p.rest ++ c)) :
    m.scan (m.skip (s ++ c)) = some ⟨p.kind, p.text, p.rest ++ c, p.mode⟩ ∧ m.gap (s ++ c) = m.gap s := by
  have hs : m.gap s ++ (p.text ++ (p.rest ++ c)) = s ++ c := by
    rw [← List.append_assoc p.text, ← List.append_assoc, gap_append_text h]
  have hscan := scan_append (spelled_scan h) hc
  obtain ⟨hbefore, hafter⟩ := mode_scan h hp
  dsimp only at hscan
  rw [hbefore, hafter] at hscan
  have hskip : m.skip (s ++ c) = p.text ++ (p.rest ++ c) := by
    rw [← hs, skip_gap_append, skip_of_scan hscan hp]
  have hgap := gap_append_skip m (s ++ c)
  rw [hskip] at hgap
  exact ⟨by rw [hskip, hscan], List.append_cancel_right (hgap.trans hs.symm)⟩

end Mode

namespace Lexer

/-- The last of the tokens closes a tag or a comment, and none of them is an error. -/
def Closes (ts : List Token) : Prop := (∃ us t, ts = us ++ [t] ∧ t.kind.IsCloser) ∧ ∀ t ∈ ts, t.kind ≠ .error

theorem Closes.cons {t : Token} {ts : List Token} (h : Closes (t :: ts)) :
    t.kind ≠ .error ∧ (ts = [] ∧ t.kind.IsCloser ∨ Closes ts) := by
  obtain ⟨⟨us, last, hts, hlast⟩, hproper⟩ := h
  refine ⟨hproper t List.mem_cons_self, ?_⟩
  cases us with
  | nil =>
    obtain ⟨rfl, rfl⟩ := List.cons.inj hts
    exact .inl ⟨rfl, hlast⟩
  | cons u us => exact .inr ⟨⟨us, last, (List.cons.inj hts).2, hlast⟩, fun v hv => hproper v (List.mem_cons_of_mem t hv)⟩

theorem not_closes_nil : ¬ Closes [] := by
  rintro ⟨⟨us, t, hts, -⟩, -⟩
  simp at hts

theorem tokens_later (d : Nat) : ∀ (m : Mode) (offset : Nat) (s : Bytes),
    (Lexer.mk m (offset + d) s).tokens = (Lexer.mk m offset s).tokens.map (Token.later d) := by
  refine tokens_induction (motive := fun m offset s ts => (Lexer.mk m (offset + d) s).tokens = ts.map (Token.later d))
    (fun m offset s h => tokens_of_end h _) ?_
  intro m offset s p h ih
  rw [tokens_of_scan h, List.map_cons, ← ih, Token.later, Nat.add_right_comm offset d, Nat.add_right_comm _ d]

/-- **Nothing is open behind a closer**: the tokens of what follows are found as if they were the first. -/
theorem tokens_append (c : Bytes) : ∀ (m : Mode) (offset : Nat) (s : Bytes), Closes (Lexer.mk m offset s).tokens →
    (Lexer.mk m offset (s ++ c)).tokens =
      (Lexer.mk m offset s).tokens ++ (Lexer.mk .outside (offset + s.length) c).tokens := by
  intro m offset s hclosed
  cases h : m.scan (m.skip s) with
  | none =>
    rw [tokens_of_end h] at hclosed
    exact absurd hclosed not_closes_nil
  | some p =>
    have hlt := Mode.length_rest_lt h
    have hlen := congrArg List.length (Mode.gap_append_text h)
    simp only [List.length_append] at hlen
    rw [tokens_of_scan h] at hclosed ⊢
    obtain ⟨hp, ⟨hlast, ht⟩ | hrest⟩ := hclosed.cons
    · -- the token is the closer itself, and the source ends with it
      have hmode : p.mode = .outside := (Mode.mode_scan h hp).2.symm.trans ht.after_eq
      have hend : p.rest = [] := by
        cases h' : p.mode.scan (p.mode.skip p.rest) with
        | none =>
          rw [hmode] at h'
          exact Mode.eq_nil_of_scan h'
        | some q =>
          rw [tokens_of_scan h'] at hlast
          cases hlast
      obtain ⟨hscan, hgap⟩ := Mode.scan_append_more h hp (c := c)
        (TokenKind.IsCloser.stopsAt (t := ⟨p.kind, p.text, .zero⟩) ht _)
      rw [hend, List.length_nil, Nat.add_zero] at hlen
      rw [tokens_of_scan hscan, hgap, hlast]
      dsimp only
      rw [hmode, hend, ← hlen, Nat.add_assoc]
      rfl
    · cases h' : p.mode.scan (p.mode.skip p.rest) with
      | none =>
        rw [tokens_of_end h'] at hrest
        exact absurd hrest not_closes_nil
      | some q =>
        have hq := hrest
        rw [tokens_of_scan h'] at hq
        have hstops := Mode.stopsAt_next h hp h' hq.cons.1 (q.rest ++ c)
        rw [← List.append_assoc q.text, ← List.append_assoc, Mode.gap_append_text h'] at hstops
        obtain ⟨hscan, hgap⟩ := Mode.scan_append_more h hp hstops
        rw [tokens_of_scan hscan, hgap, tokens_append c p.mode _ p.rest hrest,
          show offset + s.length = offset + (m.gap s).length + p.text.length + p.rest.length by omega]
        rfl
termination_by _ _ s => s.length

end Lexer

/-- A source is empty, or ends with the last byte of the closer of a tag or a comment. -/
def Bytes.EndsClosed (a : Bytes) : Prop :=
  a = [] ∨ ∃ t ∈ Token.ofSource a, t.kind.IsCloser ∧ t.stop = a.length

theorem Lexer.closes_of_endsClosed {a : Bytes} (h : ∃ t ∈ Token.ofSource a, t.kind.IsCloser ∧ t.stop = a.length)
    (hproper : ∀ t ∈ (Lexer.ofSource a).tokens, t.kind ≠ .error) : Closes (Lexer.ofSource a).tokens := by
  obtain ⟨t, ht, hk, hstop⟩ := h
  refine ⟨?_, hproper⟩
  rcases List.mem_append.1 ht with ht | ht
  · obtain ⟨us, vs, hts⟩ := List.append_of_mem ht
    cases vs with
    | nil => exact ⟨us, t, hts, hk⟩
    | cons v vs =>
      -- a token behind the closer would reach over the end of the source
      have hv : v ∈ (Lexer.ofSource a).tokens := by
        rw [hts]
        exact List.mem_append_right us (List.mem_cons_of_mem t List.mem_cons_self)
      have hpair := pairwise_stop .outside 0 a
      rw [show (Lexer.mk .outside 0 a).tokens = us ++ t :: v :: vs from hts] at hpair
      have hle := List.rel_of_pairwise_cons (List.pairwise_append.1 hpair).2.1 List.mem_cons_self
      have hlt := (bounds_of_mem_tokens hv).2
      omega
  · rw [List.mem_singleton.1 ht] at hk
    exact absurd hk (show ¬ TokenKind.eof.IsCloser by decide)

namespace Lexeme

variable {a : Bytes}

theorem map_lexeme_append_left (a b : Bytes) : (Lexer.ofSource a).tokens.map (LineIndex.ofSource (a ++ b)).lexeme =
    Lexeme.ofSource a := by
  refine List.map_congr_left fun t ht => ?_
  have hlt := (Lexer.bounds_of_mem_tokens ht).2
  rw [LineIndex.lexeme, LineIndex.position_append_left a b (by omega), LineIndex.lexeme]

theorem map_lexeme_append_right (a b : Bytes) :
    (Lexer.mk .outside a.length b).tokens.map (LineIndex.ofSource (a ++ b)).lexeme =
      (Lexeme.ofSource b).map (mapPos (Position.zero.through a).behind) := by
  have hlater := Lexer.tokens_later a.length .outside 0 b
  rw [Nat.zero_add] at hlater
  rw [hlater, Lexeme.ofSource, List.map_map, List.map_map]
  refine List.map_congr_left fun t ht => ?_
  have hlt := (Lexer.bounds_of_mem_tokens ht).2
  have hpos := LineIndex.position_append_right a b (i := t.start) (by omega)
  rw [Nat.add_comm] at hpos
  show Lexeme.mk t.kind t.text ((LineIndex.ofSource (a ++ b)).position (t.start + a.length)) = _
  rw [hpos]
  rfl

/-- **Behind a closer the tokens of another source follow**, moved to where they now stand. -/
theorem ofSource_append (ha : a.EndsClosed) (hproper : ∀ t ∈ Lexeme.ofSource a, t.kind ≠ .error) (b : Bytes) :
    Lexeme.ofSource (a ++ b) =
      Lexeme.ofSource a ++ (Lexeme.ofSource b).map (mapPos (Position.zero.through a).behind) := by
  have htokens : (Lexer.ofSource (a ++ b)).tokens =
      (Lexer.ofSource a).tokens ++ (Lexer.mk .outside a.length b).tokens := by
    rcases ha with rfl | ha
    · rw [show (Lexer.ofSource []).tokens = [] from Lexer.tokens_of_end rfl 0]
      rfl
    · have hcloses := Lexer.closes_of_endsClosed ha fun t ht => hproper _ (List.mem_map_of_mem ht)
      have happ := Lexer.tokens_append b .outside 0 a hcloses
      rwa [Nat.zero_add] at happ
  rw [Lexeme.ofSource, htokens, List.map_append, map_lexeme_append_left, map_lexeme_append_right]

theorem eof_append (a b : Bytes) : (LineIndex.ofSource (a ++ b)).lexeme (.eof (a ++ b).length) =
    ((LineIndex.ofSource b).lexeme (.eof b.length)).mapPos (Position.zero.through a).behind := by
  rw [List.length_append]
  exact congrArg (Lexeme.mk _ _) (LineIndex.position_append_right a b (Nat.le_refl _))

end Lexeme
end Stencil
