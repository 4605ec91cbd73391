import Stencil.Proofs.Source.Positions
import Stencil.Proofs.Source.Prefix
/-!
# Comments — a source without its comments

`Bytes.withoutComments` takes the comments out of a source, from the opener of each to its closer.  What stood on both
sides of a comment comes together: where both are text on one line, they become one text.  `Lexeme.uncomment` says so of
tokens, and `Mode.words_uncommented` that nothing else happens: no opener and no newline comes to stand across a seam,
and the tokens of tags stay what they are.
-/
namespace Stencil

def TokenKind.IsOfComment (k : TokenKind) : Prop := k = .lBracePound ∨ k = .comment ∨ k = .rBracePound

instance (k : TokenKind) : Decidable k.IsOfComment := inferInstanceAs (Decidable (_ ∨ _))

namespace TokenKind

theorem IsOfComment.before_ne {k : TokenKind} : k.IsOfComment → k.before ≠ .tag := by cases k <;> decide

theorem IsOfComment.after_ne {k : TokenKind} : k.IsOfComment → k.after ≠ .tag := by cases k <;> decide

theorem isOfComment_of_before {k : TokenKind} : k.before = .comment → k.IsOfComment := by cases k <;> decide

theorem isOfComment_of_after {k : TokenKind} : k.after = .comment → k.IsOfComment := by cases k <;> decide

theorem after_ne_outside {k : TokenKind} : k.before = .outside → k ≠ .text → k.before ≠ k.after := by
  cases k <;> decide

end TokenKind

theorem Lexeme.stopsAt_of_ne {t : Lexeme} (h : t.kind.before ≠ t.kind.after) (rest : Bytes) : t.StopsAt rest := by
  obtain ⟨k, w, pos⟩ := t
  cases k <;> trivial

instance (t : Token) (i : Nat) : Decidable (t.Covers i) := inferInstanceAs (Decidable (_ ∧ _))

/-- The offset `i` belongs to a comment: to its opener, its content or its closer. -/
def Token.InComment (ts : List Token) (i : Nat) : Prop := ∃ t ∈ ts, t.kind.IsOfComment ∧ t.Covers i

instance (ts : List Token) (i : Nat) : Decidable (Token.InComment ts i) := inferInstanceAs (Decidable (∃ _ ∈ _, _))

/-- The bytes of a source that stands at `offset` that are in none of the comments among some tokens. -/
def Token.outsideComments (ts : List Token) (offset : Nat) (s : Bytes) : Bytes :=
  ((s.zipIdx offset).filter fun x => ¬ InComment ts x.2).map Prod.fst

def Bytes.withoutComments (s : Bytes) : Bytes := Token.outsideComments (Token.ofSource s) 0 s

namespace Token

theorem outsideComments_append (ts : List Token) (offset : Nat) (u v : Bytes) :
    outsideComments ts offset (u ++ v) = outsideComments ts offset u ++ outsideComments ts (offset + u.length) v := by
  rw [outsideComments, List.zipIdx_append, List.filter_append, List.map_append]
  rfl

theorem outsideComments_of_not {ts : List Token} {offset : Nat} {s : Bytes}
    (h : ∀ i, offset ≤ i → i < offset + s.length → ¬ InComment ts i) : outsideComments ts offset s = s := by
  have hkeep : (s.zipIdx offset).filter (fun x => ¬ InComment ts x.2) = s.zipIdx offset :=
    List.filter_eq_self.2 fun x hx => by
      have hmem := List.mem_zipIdx hx
      simpa using h x.2 hmem.1 (by omega)
  rw [outsideComments, hkeep, List.zipIdx_map_fst]

theorem outsideComments_of_forall {ts : List Token} {offset : Nat} {s : Bytes}
    (h : ∀ i, offset ≤ i → i < offset + s.length → InComment ts i) : outsideComments ts offset s = [] := by
  have hdrop : (s.zipIdx offset).filter (fun x => ¬ InComment ts x.2) = [] :=
    List.filter_eq_nil_iff.2 fun x hx => by
      have hmem := List.mem_zipIdx hx
      simpa using h x.2 hmem.1 (by omega)
  rw [outsideComments, hdrop, List.map_nil]

theorem outsideComments_congr {ts us : List Token} {offset : Nat} {s : Bytes}
    (h : ∀ i, offset ≤ i → (InComment ts i ↔ InComment us i)) :
    outsideComments ts offset s = outsideComments us offset s := by
  rw [outsideComments, outsideComments]
  refine congrArg _ (List.filter_congr fun x hx => ?_)
  simp only [h x.2 (List.mem_zipIdx hx).1]

theorem inComment_cons {t : Token} {ts : List Token} {i : Nat} :
    InComment (t :: ts) i ↔ t.kind.IsOfComment ∧ t.Covers i ∨ InComment ts i := by
  simp only [InComment, List.mem_cons, exists_eq_or_imp]

end Token

namespace Mode

/-- What is left of bytes at `offset` without the comments that are found from there on. -/
def uncommented (m : Mode) (offset : Nat) (s : Bytes) : Bytes :=
  Token.outsideComments (Lexer.mk m offset s).tokens offset s

theorem uncommented_of_end {m : Mode} {s : Bytes} (h : m.scan (m.skip s) = none) (offset : Nat) :
    m.uncommented offset s = s := by
  rw [uncommented, Lexer.tokens_of_end h]
  exact Token.outsideComments_of_not fun _ _ _ ⟨_, ht, _⟩ => List.not_mem_nil ht

/-- **A token is left out or stays**, with the gap in front of it. -/
theorem uncommented_of_scan {m : Mode} {s : Bytes} {p : Piece} (h : m.scan (m.skip s) = some p) (offset : Nat) :
    m.uncommented offset s = m.gap s ++ ((if p.kind.IsOfComment then [] else p.text) ++
      p.mode.uncommented (offset + (m.gap s).length + p.text.length) p.rest) := by
  have hs := gap_append_text h
  have hlater : ∀ i, i < offset + (m.gap s).length + p.text.length → ¬ Token.InComment
      (Lexer.mk p.mode (offset + (m.gap s).length + p.text.length) p.rest).tokens i := by
    rintro i hi ⟨t, ht, -, hcovers⟩
    have hstart := (Lexer.span_of_mem_tokens _ _ _ t ht).1
    have hle := hcovers.1
    omega
  rw [uncommented, Lexer.tokens_of_scan h, uncommented]
  generalize (Lexer.mk p.mode (offset + (m.gap s).length + p.text.length) p.rest).tokens = ts at hlater ⊢
  generalize m.gap s = g at hs hlater ⊢
  rw [← hs, Token.outsideComments_append, Token.outsideComments_append]
  congr 1
  · refine Token.outsideComments_of_not fun i hi hlt hc => ?_
    rcases Token.inComment_cons.1 hc with ⟨-, hcovers⟩ | hc
    · exact Nat.not_le.2 hlt hcovers.1
    · exact hlater i (by omega) hc
  congr 1
  · split
    · rename_i hk
      exact Token.outsideComments_of_forall fun i hi hlt => Token.inComment_cons.2 (.inl ⟨hk, hi, hlt⟩)
    · rename_i hk
      refine Token.outsideComments_of_not fun i hi hlt hc => ?_
      rcases Token.inComment_cons.1 hc with ⟨hk', -⟩ | hc
      · exact hk hk'
      · exact hlater i hlt hc
  · refine Token.outsideComments_congr fun i hi => ?_
    rw [Token.inComment_cons]
    refine or_iff_right fun ⟨_, hcovers⟩ => ?_
    exact Nat.not_le.2 hcovers.2 hi

end Mode

theorem Bytes.withoutComments_eq (s : Bytes) : s.withoutComments = Mode.outside.uncommented 0 s := by
  refine Token.outsideComments_congr fun i _ => ⟨?_, ?_⟩
  · rintro ⟨t, ht, hk, hcovers⟩
    rcases List.mem_append.1 ht with ht | ht
    · exact ⟨t, ht, hk, hcovers⟩
    · rw [List.mem_singleton.1 ht] at hk
      exact absurd hk (show ¬ TokenKind.eof.IsOfComment by decide)
  · rintro ⟨t, ht, h⟩
    exact ⟨t, List.mem_append_left _ ht, h⟩

/-! ## Tokens -/

namespace Lexeme

/-- A text in front of tokens.  A text that follows on the same line is joined on. -/
def joinText (t : Lexeme) : List Lexeme → List Lexeme
  | [] => [t]
  | u :: us =>
    if u.kind = .text ∧ u.text.head? ≠ some Byte.newline then ⟨.text, t.text ++ u.text, t.pos⟩ :: us else t :: u :: us

/-- A token in front of tokens, where comments are left out and texts run on. -/
def settle (t : Lexeme) (us : List Lexeme) : List Lexeme :=
  if t.kind.IsOfComment then us else if t.kind = .text then t.joinText us else t :: us

def uncomment (ts us : List Lexeme) : List Lexeme := ts.foldr settle us

theorem uncomment_cons (t : Lexeme) (ts us : List Lexeme) : uncomment (t :: ts) us = t.settle (uncomment ts us) := rfl

theorem uncomment_append (ts us vs : List Lexeme) : uncomment (ts ++ us) vs = uncomment ts (uncomment us vs) :=
  List.foldr_append

end Lexeme

namespace Mode

theorem clear_opensTag_of_getLast? {rest : Bytes} : ∀ {u : Bytes}, Bytes.Clear opensTag u [] →
    u.getLast? ≠ some Byte.lbrace → Bytes.Clear opensTag u rest
  | [], _, _ => trivial
  | [b], _, h => by
    refine ⟨?_, trivial⟩
    have hb : (b == Byte.lbrace) = false := by simpa using h
    cases rest with
    | nil => exact opensTag_singleton b
    | cons c rest => rw [List.nil_append, opensTag_cons, hb, Bool.false_and]
  | b :: c :: u, ⟨hb, hu⟩, h => by
    rw [List.getLast?_cons_cons] at h
    refine ⟨?_, clear_opensTag_of_getLast? hu h⟩
    rw [List.cons_append, opensTag_cons] at hb ⊢
    exact hb

theorem stopsAt_scanOutside {s : Bytes} {p : Piece} (h : scanOutside s = some p) :
    Lexeme.StopsAt ⟨p.kind, p.text, .zero⟩ p.rest := by
  cases ho : opensTag s with
  | true =>
    obtain ⟨k, w, r, hk, -, hs⟩ := scanOutside_of_opensTag ho
    cases h.symm.trans hs
    rcases hk with rfl | rfl | rfl <;> trivial
  | false =>
    cases s with
    | nil => cases h
    | cons b r =>
      cases h.symm.trans (scanOutside_of_not_opensTag ho)
      rcases Bytes.stop_cutAt endsText r with hnil | hstop
      · exact .inl hnil
      · rw [endsText, Bool.or_eq_true, beq_iff_eq] at hstop
        rcases hstop with hnewline | hopens
        · exact .inr (.inl hnewline)
        · exact .inr (.inr ⟨hopens, getLast?_ne_of_clear hopens (clear_scanOutside ho)⟩)

theorem joinText_words {c u : Bytes} (h : c.EndsAt u) : Lexeme.joinText ⟨.text, c, .zero⟩ (outside.words u) =
    ⟨.text, c, .zero⟩ :: outside.words u := by
  cases hs : outside.scan (outside.skip u) with
  | none => rw [words_of_end hs, Lexeme.joinText]
  | some p =>
    rw [words_of_scan hs, Lexeme.joinText, if_neg]
    rintro ⟨hk, hhead⟩
    replace hs : scanOutside u = some p := hs
    rcases h with rfl | hnewline | ⟨hopens, -⟩
    · cases hs
    · cases u with
      | nil => cases hnewline
      | cons b r =>
        obtain rfl : b = Byte.newline := Option.some.inj hnewline
        cases hs.symm.trans (scanOutside_of_not_opensTag rfl)
        exact hhead rfl
    · obtain ⟨k, w, r, hopener, -, hs'⟩ := scanOutside_of_opensTag hopens
      cases hs.symm.trans hs'
      rcases hopener with rfl | rfl | rfl <;> cases hk

/-- **A text in front of bytes is joined to the words**: no tag opens across the seam where the text does not end with a
brace. -/
theorem words_text {c u : Bytes} (hc : Lexeme.Spelled ⟨.text, c, .zero⟩)
    (h : c.getLast? ≠ some Byte.lbrace ∨ c.EndsAt u) :
    outside.words (c ++ u) = Lexeme.joinText ⟨.text, c, .zero⟩ (outside.words u) := by
  by_cases hends : c.EndsAt u
  · rw [joinText_words hends]
    exact words_append (t := ⟨.text, c, .zero⟩) hc hends
  -- the text runs on: what follows is no newline and no opener
  have hlast := h.resolve_right hends
  cases u with
  | nil => exact absurd (.inl rfl) hends
  | cons b r =>
    have hnewline : b ≠ Byte.newline := fun hb => hends (.inr (.inl (congrArg some hb)))
    have hopens : opensTag (b :: r) = false := by
      cases ho : opensTag (b :: r) with
      | false => rfl
      | true => exact absurd (.inr (.inr ⟨ho, hlast⟩)) hends
    have hscan := scanOutside_of_not_opensTag hopens
    have hrest := text_append_rest_scanOutside hscan
    have hspelled := spelled_scanOutside hscan
    have hstops := stopsAt_scanOutside hscan
    rw [words_of_scan (m := .outside) hscan, Lexeme.joinText, if_pos ⟨rfl, fun hb => hnewline (Option.some.inj hb)⟩]
    generalize (Bytes.cutAt endsText r).1 = v at hrest hspelled hstops ⊢
    generalize (Bytes.cutAt endsText r).2 = w at hrest hspelled hstops ⊢
    dsimp only at hrest hspelled hstops ⊢
    obtain ⟨-, hnl, hclear⟩ := hspelled
    have hjoined : Lexeme.Spelled ⟨.text, c ++ b :: v, .zero⟩ := by
      refine ⟨List.append_ne_nil_of_left_ne_nil hc.1 _, ?_, Bytes.clear_append.2 ⟨?_, hclear⟩⟩
      · rw [List.tail_append_of_ne_nil hc.1, List.mem_append, List.mem_cons]
        exact not_or.2 ⟨hc.2.1, not_or.2 ⟨Ne.symm hnewline, hnl⟩⟩
      · exact clear_opensTag_of_getLast? hc.2.2 hlast
    have hends' : Bytes.EndsAt (c ++ b :: v) w := by
      have hlast' : (c ++ b :: v).getLast? = (b :: v).getLast? := by
        rw [List.getLast?_append, List.getLast?_cons, Option.some_or]
      rw [Bytes.EndsAt, hlast']
      exact hstops
    rw [← hrest.2, ← List.append_assoc]
    exact words_append (t := ⟨.text, c ++ b :: v, .zero⟩) hjoined hends'

def besides : Mode → Mode
  | .comment => .outside
  | m => m

theorem besides_of_ne {m : Mode} (h : m ≠ .tag) (s : Bytes) : m.besides = .outside ∧ m.gap s = [] := by
  cases m with
  | tag => exact absurd rfl h
  | _ => exact ⟨rfl, rfl⟩

theorem besides_of_ne_comment {m : Mode} (h : m ≠ .comment) : m.besides = m := by
  cases m with
  | comment => exact absurd rfl h
  | _ => rfl

/-- A text of a source still ends where it ended, or may run on, when the comments behind it are left out. -/
theorem text_uncommented {s : Bytes} {p : Piece} (h : scanOutside s = some p) (hk : p.kind = .text) (offset : Nat) :
    p.text.getLast? ≠ some Byte.lbrace ∨ p.text.EndsAt (outside.uncommented offset p.rest) := by
  have hstops := stopsAt_scanOutside h
  simp only [Lexeme.StopsAt, hk] at hstops
  rcases hstops with hnil | hnewline | ⟨-, hlast⟩
  · rw [hnil]
    exact .inr (.inl rfl)
  · cases hrest : p.rest with
    | nil =>
      rw [hrest] at hnewline
      cases hnewline
    | cons b r =>
      rw [hrest] at hnewline
      obtain rfl : b = Byte.newline := Option.some.inj hnewline
      rw [uncommented_of_scan (m := .outside) (scanOutside_of_not_opensTag rfl)]
      exact .inr (.inr (.inl rfl))
  · exact .inl hlast

/-- A token of a tag stops where it stopped: no comment stands inside of tags. -/
theorem stopsAt_uncommented {m : Mode} {s : Bytes} {p : Piece} (h : m.scan s = some p) (hp : p.kind ≠ .error)
    (hcomment : ¬ p.kind.IsOfComment) (htext : p.kind ≠ .text) (hrest : ∀ t ∈ p.mode.words p.rest, t.kind ≠ .error)
    (offset : Nat) : Lexeme.StopsAt ⟨p.kind, p.text, .zero⟩ (p.mode.uncommented offset p.rest) := by
  obtain ⟨hbefore, hafter⟩ := mode_scan h hp
  cases m with
  | outside => exact Lexeme.stopsAt_of_ne (TokenKind.after_ne_outside hbefore htext) _
  | comment => exact absurd (TokenKind.isOfComment_of_before hbefore) hcomment
  | tag =>
    cases h' : p.mode.scan (p.mode.skip p.rest) with
    | none =>
      rw [uncommented_of_end h']
      exact stopsAt_scanTag h hp
    | some q =>
      rw [words_of_scan h', List.forall_mem_cons] at hrest
      rw [uncommented_of_scan h']
      by_cases hq : q.kind.IsOfComment
      · -- a comment is found outside of tags, so the token in front of it closes the tag
        refine Lexeme.stopsAt_of_ne (t := ⟨p.kind, p.text, .zero⟩) ?_ _
        dsimp only
        rw [hbefore, hafter, ← (mode_scan h' hrest.1).1]
        exact Ne.symm hq.before_ne
      · rw [if_neg hq]
        exact stopsAt_next h hp h' hrest.1 _

/-- **The words of a source without its comments are its words without comments**, those of texts that come together
joined. -/
theorem words_uncommented : ∀ (m : Mode) (offset : Nat) (s : Bytes), (∀ t ∈ m.words s, t.kind ≠ .error) →
    m.besides.words (m.uncommented offset s) = Lexeme.uncomment (m.words s) [] := by
  intro m offset s hs
  cases h : m.scan (m.skip s) with
  | none =>
    rw [words_of_end h, uncommented_of_end h]
    cases m with
    | comment =>
      rw [show s = [] from eq_nil_of_scan h]
      exact words_nil _
    | _ => exact words_of_end h
  | some p =>
    have hlt := length_rest_lt h
    rw [words_of_scan h, List.forall_mem_cons] at hs
    obtain ⟨hp, hs⟩ := hs
    obtain ⟨hbefore, hafter⟩ := mode_scan h hp
    have ih := words_uncommented p.mode (offset + (m.gap s).length + p.text.length) p.rest hs
    rw [words_of_scan h, uncommented_of_scan h, Lexeme.uncomment_cons, ← ih, Lexeme.settle]
    by_cases hk : p.kind.IsOfComment
    · obtain ⟨hbeside, hgap⟩ := besides_of_ne (hbefore ▸ hk.before_ne) s
      obtain ⟨hbeside', -⟩ := besides_of_ne (hafter ▸ hk.after_ne) p.rest
      rw [if_pos hk, if_pos hk, hgap, hbeside, hbeside', List.nil_append, List.nil_append]
    · have hm : m ≠ .comment := fun hm => hk (TokenKind.isOfComment_of_before (hbefore.trans hm))
      have hmode : p.mode ≠ .comment := fun hm => hk (TokenKind.isOfComment_of_after (hafter.trans hm))
      rw [if_neg hk, if_neg hk, besides_of_ne_comment hm, besides_of_ne_comment hmode, words_gap]
      dsimp only
      by_cases ht : p.kind = .text
      · rw [if_pos ht]
        rw [ht] at hbefore hafter
        obtain rfl : m = .outside := hbefore.symm
        rw [← hafter]
        have hspelled := spelled_scan h
        rw [ht] at hspelled ⊢
        exact words_text hspelled (text_uncommented h ht _)
      · rw [if_neg ht]
        have hstops := stopsAt_uncommented h hp hk ht hs (offset + (m.gap s).length + p.text.length)
        have hword := words_append (t := ⟨p.kind, p.text, .zero⟩) (spelled_scan h) hstops
        dsimp only at hword
        rwa [hbefore, hafter] at hword
termination_by _ _ s => s.length

end Mode

/-! ## Positions -/

namespace Lexeme

theorem map_erase_joinText (t : Lexeme) : ∀ us : List Lexeme,
    (t.joinText us).map erase = t.erase.joinText (us.map erase)
  | [] => rfl
  | u :: us => by
    rw [List.map_cons, joinText, joinText]
    exact apply_ite (List.map erase) _ _ _

theorem map_erase_settle (t : Lexeme) (us : List Lexeme) : (t.settle us).map erase = t.erase.settle (us.map erase) := by
  rw [settle, settle]
  by_cases hk : t.kind.IsOfComment
  · rw [if_pos hk, if_pos (show t.erase.kind.IsOfComment from hk)]
  rw [if_neg hk, if_neg (show ¬ t.erase.kind.IsOfComment from hk)]
  by_cases ht : t.kind = .text
  · rw [if_pos ht, if_pos (show t.erase.kind = .text from ht), map_erase_joinText]
  · rw [if_neg ht, if_neg (show t.erase.kind ≠ .text from ht), List.map_cons]

theorem map_erase_uncomment (us : List Lexeme) : ∀ ts : List Lexeme,
    (uncomment ts us).map erase = uncomment (ts.map erase) (us.map erase)
  | [] => rfl
  | t :: ts => by rw [uncomment_cons, map_erase_settle, map_erase_uncomment us ts, List.map_cons, uncomment_cons]

theorem sublist_settle (t : Lexeme) (us : List Lexeme) : ((t.settle us).map pos).Sublist (t.pos :: us.map pos) := by
  rw [settle]
  split
  · exact .cons _ (.refl _)
  split
  · cases us with
    | nil => exact .refl _
    | cons u us =>
      rw [joinText]
      split
      · exact .cons_cons _ (.cons _ (.refl _))
      · exact .refl _
  · exact .refl _

theorem sublist_uncomment : ∀ ts : List Lexeme, ((uncomment ts []).map pos).Sublist (ts.map pos)
  | [] => .refl _
  | t :: ts => (sublist_settle t _).trans (.cons_cons _ (sublist_uncomment ts))

theorem inOrder_uncomment {ts : List Lexeme} (h : InOrder ts) : InOrder (uncomment ts []) := by
  have hpos : (ts.map pos).Pairwise fun p q => KeyOrder.lt p q = true := List.pairwise_map.2 h
  exact List.pairwise_map.1 (hpos.sublist (sublist_uncomment ts))

/-- **The words of a source without its comments** are the words of the source without comments. -/
theorem map_erase_withoutComments {s : Bytes} (h : ∀ t ∈ Lexeme.ofSource s, t.kind ≠ .error) :
    (Lexeme.ofSource s.withoutComments).map erase = (uncomment (Lexeme.ofSource s) []).map erase := by
  have hwords : ∀ t ∈ Mode.outside.words s, t.kind ≠ .error := by
    rw [← map_erase_ofSource]
    exact List.forall_mem_map.2 h
  rw [map_erase_ofSource, Bytes.withoutComments_eq, map_erase_uncomment, map_erase_ofSource]
  exact Mode.words_uncommented .outside 0 s hwords

end Lexeme
end Stencil
