import Mathlib.Data.List.TakeWhile
import Stencil.Proofs.Source.Words
/-!
# Lossless — the tokens of a source and the gaps between them

The tokens of a source are parts of it, in order and apart from each other, and what lies between them are the blanks of
tags: nothing is lost (`IsTokenization`).  Each fact is an induction over the tokens, in which what has been scanned
before stands in front of what is left.

However a scanner is asked for its tokens, what it answers is handed out from the front of this one list
(`Lexer.answers_eq_handOut`).
-/
namespace Stencil

namespace Mode

theorem gap_append_text {m : Mode} {s : Bytes} {p : Piece} (h : m.scan (m.skip s) = some p) :
    m.gap s ++ (p.text ++ p.rest) = s := by
  rw [(text_append_rest h).2, gap_append_skip]

theorem eq_nil_of_scan {m : Mode} {s : Bytes} (h : m.scan s = none) : s = [] := by
  cases m with
  | outside =>
    replace h : scanOutside s = none := h
    unfold scanOutside at h
    split at h <;> first | rfl | cases h
  | tag =>
    replace h : scanTag s = none := h
    unfold scanTag at h
    split at h <;> first | rfl | cases h
  | comment =>
    replace h : scanComment s = none := h
    unfold scanComment at h
    split at h <;> first | rfl | cases h

theorem gap_of_end {m : Mode} {s : Bytes} (h : m.scan (m.skip s) = none) : m.gap s = s := by
  have hs := gap_append_skip m s
  rwa [eq_nil_of_scan h, List.append_nil] at hs

theorem of_mem_gap {m : Mode} {s : Bytes} {b : UInt8} (h : b ∈ m.gap s) : m = .tag ∧ Byte.isBlank b = true := by
  cases m with
  | tag => exact ⟨rfl, List.mem_takeWhile_imp h⟩
  | outside => cases h
  | comment => cases h

end Mode

namespace TokenKind

def IsTagOpener (k : TokenKind) : Prop := k = .lDoubleBrace ∨ k = .lBracePercent

def IsTagCloser (k : TokenKind) : Prop := k = .rDoubleBrace ∨ k = .rBracePercent

instance (k : TokenKind) : Decidable k.IsTagOpener := inferInstanceAs (Decidable (_ ∨ _))

instance (k : TokenKind) : Decidable k.IsTagCloser := inferInstanceAs (Decidable (_ ∨ _))

theorem opener_or_inside {k : TokenKind} : k.after = .tag → k.IsTagOpener ∨ (k.before = .tag ∧ ¬ k.IsTagCloser) := by
  cases k <;> decide

end TokenKind

theorem Mode.tag_of_scan {m : Mode} {s : Bytes} {p : Piece} (h : m.scan s = some p) (hp : p.mode = .tag) :
    p.kind.IsTagOpener ∨ (m = .tag ∧ ¬ p.kind.IsTagCloser) := by
  by_cases hk : p.kind = .error
  · refine .inr ⟨?_, by rw [hk]; decide⟩
    cases m with
    | tag => rfl
    | outside =>
      replace h : scanOutside s = some p := h
      unfold scanOutside at h
      split at h <;> cases h <;> cases hk
    | comment =>
      replace h : scanComment s = some p := h
      unfold scanComment at h
      split at h <;> cases h <;> cases hp
  · obtain ⟨hm, ha⟩ := Mode.mode_scan h hk
    rw [← hm]
    exact TokenKind.opener_or_inside (ha.trans hp)

/-! ## Tokens and gaps -/

namespace Token

def Covers (t : Token) (i : Nat) : Prop := t.start ≤ i ∧ i < t.stop

/-- The offset `i` lies between the opener of a tag and its closer, or after an opener that is not closed. -/
def InTag (ts : List Token) (i : Nat) : Prop :=
  ∃ o ∈ ts, o.kind.IsTagOpener ∧ o.stop ≤ i ∧ ∀ c ∈ ts, c.kind.IsTagCloser → o.stop ≤ c.start → i < c.start

/-- The bytes of tokens, each after the part of the source between it and the token before it, the first after the part
from `offset` on. -/
def weave (source : Bytes) : Nat → List Token → Bytes
  | _, [] => []
  | offset, t :: ts => (Span.mk offset t.start).text source ++ (t.text ++ weave source t.stop ts)

end Token

theorem Span.text_append (u v w : Bytes) :
    (Span.mk u.length (u.length + v.length)).text (u ++ (v ++ w)) = v := by
  rw [Span.text, if_pos ⟨by dsimp only; omega, by simp only [List.length_append]; omega⟩]
  simp

/-- **The tokens of a source**: parts of it in order, the end of the source last, with nothing but the blanks of tags
between them. -/
structure IsTokenization (source : Bytes) (ts : List Token) : Prop where
  length_le : ts.length ≤ source.length + 1
  eof_last : ∃ us, ts = us ++ [.eof source.length] ∧ ∀ t ∈ us, t.kind ≠ .eof ∧ t.text ≠ []
  text_eq : ∀ t ∈ ts, t.stop ≤ source.length ∧ t.span.text source = t.text
  ordered : ts.Pairwise fun t u => t.stop ≤ u.start
  gaps : ∀ (i : Nat) (b : UInt8), source[i]? = some b →
    (∃ t ∈ ts, t.Covers i) ∨ (Byte.isBlank b = true ∧ Token.InTag ts i)
  weave_eq : Token.weave source 0 ts = source

namespace Lexer

theorem length_tokens_le : ∀ (m : Mode) (offset : Nat) (s : Bytes), (Lexer.mk m offset s).tokens.length ≤ s.length := by
  refine tokens_induction (motive := fun _ _ s ts => ts.length ≤ s.length) (fun _ _ _ _ => Nat.zero_le _) ?_
  intro m offset s p h ih
  have hlt := Mode.length_rest_lt h
  rw [List.length_cons]
  omega

theorem of_mem_tokens : ∀ (m : Mode) (offset : Nat) (s : Bytes), ∀ t ∈ (Lexer.mk m offset s).tokens,
    t.kind ≠ .eof ∧ t.text ≠ [] := by
  refine tokens_induction (motive := fun _ _ _ ts => ∀ t ∈ ts, t.kind ≠ .eof ∧ t.text ≠ [])
    (fun _ _ _ _ _ ht => by cases ht) ?_
  intro m offset s p h ih t ht
  rcases List.mem_cons.1 ht with rfl | ht
  · refine ⟨fun hk => ?_, (Mode.text_append_rest h).1⟩
    have hs := Mode.spelled_scan h
    dsimp only at hk
    simp only [Lexeme.Spelled, hk] at hs
  · exact ih t ht

theorem span_of_mem_tokens : ∀ (m : Mode) (offset : Nat) (s : Bytes), ∀ t ∈ (Lexer.mk m offset s).tokens,
    offset ≤ t.start ∧ t.stop ≤ offset + s.length ∧
      ∀ before : Bytes, before.length = offset → t.span.text (before ++ s) = t.text := by
  refine tokens_induction (motive := fun _ offset s ts => ∀ t ∈ ts, offset ≤ t.start ∧ t.stop ≤ offset + s.length ∧
    ∀ before : Bytes, before.length = offset → t.span.text (before ++ s) = t.text) (fun _ _ _ _ _ ht => by cases ht) ?_
  intro m offset s p h ih t ht
  have hs := Mode.gap_append_text h
  have hlen := congrArg List.length hs
  simp only [List.length_append] at hlen
  rcases List.mem_cons.1 ht with rfl | ht
  · refine ⟨Nat.le_add_right _ _, by simp only [Token.stop]; omega, fun before hb => ?_⟩
    have htext := Span.text_append (before ++ m.gap s) p.text p.rest
    rw [List.append_assoc, hs, List.length_append, hb] at htext
    exact htext
  · obtain ⟨hstart, hstop, htext⟩ := ih t ht
    refine ⟨by omega, by omega, fun before hb => ?_⟩
    have h' := htext (before ++ (m.gap s ++ p.text)) (by simp only [List.length_append]; omega)
    rwa [List.append_assoc, List.append_assoc, hs] at h'

theorem pairwise_stop : ∀ (m : Mode) (offset : Nat) (s : Bytes),
    (Lexer.mk m offset s).tokens.Pairwise fun t u => t.stop ≤ u.start := by
  refine tokens_induction (motive := fun _ _ _ ts => ts.Pairwise fun t u => t.stop ≤ u.start) (fun _ _ _ _ => .nil) ?_
  intro m offset s p h ih
  exact .cons (fun u hu => (span_of_mem_tokens _ _ _ u hu).1) ih

/-- A byte that no token covers is a blank.  It stands in the tag that scanning starts in, before any closer, or in a
tag that is opened later. -/
theorem gaps_of_tokens : ∀ (m : Mode) (offset : Nat) (s : Bytes), ∀ (i : Nat) (b : UInt8), s[i]? = some b →
    (∃ t ∈ (Lexer.mk m offset s).tokens, t.Covers (offset + i)) ∨ (Byte.isBlank b = true ∧
      ((m = .tag ∧ ∀ c ∈ (Lexer.mk m offset s).tokens, c.kind.IsTagCloser → offset + i < c.start) ∨
        Token.InTag (Lexer.mk m offset s).tokens (offset + i))) := by
  refine tokens_induction (motive := fun m offset s ts => ∀ (i : Nat) (b : UInt8), s[i]? = some b →
    (∃ t ∈ ts, t.Covers (offset + i)) ∨ (Byte.isBlank b = true ∧
      ((m = .tag ∧ ∀ c ∈ ts, c.kind.IsTagCloser → offset + i < c.start) ∨ Token.InTag ts (offset + i)))) ?_ ?_
  · intro m offset s h i b hb
    rw [← Mode.gap_of_end h] at hb
    obtain ⟨hm, hblank⟩ := Mode.of_mem_gap (List.mem_of_getElem? hb)
    exact .inr ⟨hblank, .inl ⟨hm, fun _ hc => by cases hc⟩⟩
  · intro m offset s p h ih i b hb
    generalize hts : (Lexer.mk p.mode (offset + (m.gap s).length + p.text.length) p.rest).tokens = ts at ih
    have hstart : ∀ t ∈ ts, offset + (m.gap s).length + p.text.length ≤ t.start := fun t ht =>
      (span_of_mem_tokens _ _ _ t (hts ▸ ht)).1
    have hpos := List.length_pos_iff.2 (Mode.text_append_rest h).1
    rw [← Mode.gap_append_text h] at hb
    rcases Nat.lt_or_ge i (m.gap s).length with hi | hi
    · rw [List.getElem?_append_left hi] at hb
      obtain ⟨hm, hblank⟩ := Mode.of_mem_gap (List.mem_of_getElem? hb)
      refine .inr ⟨hblank, .inl ⟨hm, fun c hc _ => ?_⟩⟩
      rcases List.mem_cons.1 hc with rfl | hc
      · exact Nat.add_lt_add_left hi offset
      · have hle := hstart c hc
        omega
    rw [List.getElem?_append_right hi] at hb
    rcases Nat.lt_or_ge (i - (m.gap s).length) p.text.length with hj | hj
    · exact .inl ⟨_, List.mem_cons_self, by simp only [Token.Covers, Token.stop]; omega⟩
    rw [List.getElem?_append_right hj] at hb
    have hi' : offset + (m.gap s).length + p.text.length + (i - (m.gap s).length - p.text.length) = offset + i := by omega
    have hrest := ih _ b hb
    rw [hi'] at hrest
    rcases hrest with ⟨t, ht, hcovers⟩ | ⟨hblank, ⟨hmode, hclosers⟩ | ⟨o, ho, hopener, hle, hclosers⟩⟩
    · exact .inl ⟨t, List.mem_cons_of_mem _ ht, hcovers⟩
    · refine .inr ⟨hblank, ?_⟩
      rcases Mode.tag_of_scan h hmode with hopener | ⟨hm, hcloser⟩
      · refine .inr ⟨_, List.mem_cons_self, hopener, by simp only [Token.stop]; omega, fun c hc hk hoc => ?_⟩
        rcases List.mem_cons.1 hc with rfl | hc
        · simp only [Token.stop] at hoc
          omega
        · exact hclosers c hc hk
      · refine .inl ⟨hm, fun c hc hk => ?_⟩
        rcases List.mem_cons.1 hc with rfl | hc
        · exact absurd hk hcloser
        · exact hclosers c hc hk
    · refine .inr ⟨hblank, .inr ⟨o, List.mem_cons_of_mem _ ho, hopener, hle, fun c hc hk hoc => ?_⟩⟩
      rcases List.mem_cons.1 hc with rfl | hc
      · have hlt := hstart o ho
        simp only [Token.stop] at hoc
        omega
      · exact hclosers c hc hk hoc

theorem weave_tokens : ∀ (m : Mode) (offset : Nat) (s before : Bytes), before.length = offset →
    Token.weave (before ++ s) offset ((Lexer.mk m offset s).tokens ++ [.eof (offset + s.length)]) = s := by
  refine tokens_induction (motive := fun _ offset s ts => ∀ before : Bytes, before.length = offset →
    Token.weave (before ++ s) offset (ts ++ [.eof (offset + s.length)]) = s) ?_ ?_
  · intro m offset s h before hb
    have htext := Span.text_append before s []
    rw [List.append_nil, hb] at htext
    rw [List.nil_append, Token.weave, Token.weave, List.append_nil]
    exact htext.symm ▸ List.append_nil s
  · intro m offset s p h ih before hb
    have hs := Mode.gap_append_text h
    have hlen := congrArg List.length hs
    simp only [List.length_append] at hlen
    have hgap := Span.text_append before (m.gap s) (p.text ++ p.rest)
    have hrest := ih (before ++ (m.gap s ++ p.text)) (by simp only [List.length_append]; omega)
    rw [hs, hb] at hgap
    rw [List.append_assoc, List.append_assoc, hs,
      show offset + (m.gap s).length + p.text.length + p.rest.length = offset + s.length by omega] at hrest
    rw [List.cons_append, Token.weave, hgap, Token.stop, hrest, hs]

end Lexer

/-! ## Asking a scanner -/

namespace Lexer

/-- The answers to requests while the tokens `ts` are left and nothing but `eof` after them: each request takes what it
hands out off the front. -/
def handOut (eof : Token) : List Token → List Request → List Answer
  | _, [] => []
  | [], .next :: rs => .token eof :: handOut eof [] rs
  | [], .next? :: rs => .token? none :: handOut eof [] rs
  | t :: ts, .next :: rs => .token t :: handOut eof ts rs
  | t :: ts, .next? :: rs => .token? (some t) :: handOut eof ts rs
  | ts, .rest :: rs => .tokens (ts ++ [eof]) :: handOut eof [] rs

theorem tokens_of_next? {l l' : Lexer} {t : Token} (h : l.next? = some (t, l')) :
    l.tokens = t :: l'.tokens ∧ l'.size = l.size := by
  simp only [next?, Option.map_eq_some_iff, Prod.mk.injEq] at h
  obtain ⟨p, hp, rfl, rfl⟩ := h
  refine ⟨tokens_of_scan hp l.offset, ?_⟩
  have hlen := congrArg List.length (Mode.gap_append_text hp)
  simp only [List.length_append] at hlen
  simp only [size]
  omega

theorem tokens_of_next?_none {l : Lexer} (h : l.next? = none) : l.tokens = [] := by
  rw [next?, Option.map_eq_none_iff] at h
  exact tokens_of_end h l.offset

theorem next?_drained (l : Lexer) : l.drained.next? = none := by
  obtain ⟨m, offset, s⟩ := l
  cases m <;> rfl

/-- **However a scanner is asked, it hands out its tokens in order, and then the end of the source.** -/
theorem answers_eq_handOut (rs : List Request) : ∀ l : Lexer, l.answers rs = handOut (.eof l.size) l.tokens rs := by
  induction rs with
  | nil =>
    intro l
    rw [answers, handOut]
  | cons r rs ih =>
    intro l
    rw [answers, ih]
    cases r with
    | rest =>
      have hd := tokens_of_next?_none (next?_drained l)
      rw [answer, hd, handOut]
      rfl
    | next =>
      cases h : l.next? with
      | none => rw [answer, next, h, tokens_of_next?_none h, handOut]
      | some r =>
        obtain ⟨ht, hs⟩ := tokens_of_next? h
        rw [answer, next, h, hs, ht, handOut]
    | next? =>
      cases h : l.next? with
      | none => simp only [answer, h, tokens_of_next?_none h, handOut]
      | some r =>
        obtain ⟨ht, hs⟩ := tokens_of_next? h
        simp only [answer, h, hs, ht, handOut]

end Lexer

theorem Token.isTokenization_ofSource (source : Bytes) : IsTokenization source (Token.ofSource source) where
  length_le := by
    have h := Lexer.length_tokens_le .outside 0 source
    rw [Token.ofSource, List.length_append, List.length_singleton]
    exact Nat.succ_le_succ h
  eof_last := ⟨_, rfl, Lexer.of_mem_tokens .outside 0 source⟩
  text_eq := by
    intro t ht
    rcases List.mem_append.1 ht with ht | ht
    · obtain ⟨-, hstop, htext⟩ := Lexer.span_of_mem_tokens .outside 0 source t ht
      exact ⟨by omega, htext [] rfl⟩
    · rw [List.mem_singleton.1 ht]
      have htext := Span.text_append source [] []
      simp only [List.append_nil] at htext
      exact ⟨Nat.le_refl _, htext⟩
  ordered := by
    refine List.pairwise_append.2 ⟨Lexer.pairwise_stop .outside 0 source, List.pairwise_singleton _ _, ?_⟩
    intro t ht u hu
    rw [List.mem_singleton.1 hu]
    have hstop := (Lexer.span_of_mem_tokens .outside 0 source t ht).2.1
    rwa [Nat.zero_add] at hstop
  gaps := by
    intro i b hb
    have h := Lexer.gaps_of_tokens .outside 0 source i b hb
    rw [Nat.zero_add] at h
    rcases h with ⟨t, ht, hcovers⟩ | ⟨hblank, ⟨hm, -⟩ | ⟨o, ho, hopener, hle, hclosers⟩⟩
    · exact .inl ⟨t, List.mem_append_left _ ht, hcovers⟩
    · cases hm
    · refine .inr ⟨hblank, o, List.mem_append_left _ ho, hopener, hle, fun c hc hk => ?_⟩
      rcases List.mem_append.1 hc with hc | hc
      · exact hclosers c hc hk
      · rw [List.mem_singleton.1 hc] at hk
        exact absurd hk (show ¬ TokenKind.eof.IsTagCloser by decide)
  weave_eq := by
    have h := Lexer.weave_tokens .outside 0 source [] rfl
    rwa [Nat.zero_add] at h

/-- **Scanning loses nothing**: the tokens of a source are its tokenization, and however a scanner is asked for them, it
hands out this one list from the front, and then the end of the source. -/
theorem Lexer.ofSource_lossless (source : Bytes) : ∃ ts, Token.ofSource source = ts ++ [.eof source.length] ∧
    IsTokenization source (Token.ofSource source) ∧
      ∀ rs, (Lexer.ofSource source).answers rs = Lexer.handOut (.eof source.length) ts rs := by
  refine ⟨(Lexer.ofSource source).tokens, rfl, Token.isTokenization_ofSource source, fun rs => ?_⟩
  have h := Lexer.answers_eq_handOut rs (Lexer.ofSource source)
  rwa [show (Lexer.ofSource source).size = source.length from Nat.zero_add _] at h

end Stencil
