import Stencil.Proofs.Source.Lossless
/-!
# Prefix — a source that is cut off and completed

Cut off in front of one of its tokens and completed with other bytes, a source keeps the tokens before the cut
(`Lexer.words_take`).  The completion must not go on with the last of them: `Mode.Resumes` says in each mode what no
token goes on with.  Tokens before the last one see no more of what follows than the token after them (`stopsAt_next`).
-/
namespace Stencil
namespace Mode

/-- What no token goes on with that scanning is in this mode after: a newline, a space, the closer of a comment. -/
def Resumes : Mode → Bytes → Prop
  | .outside, s => s.head? = some Byte.newline
  | .tag, s => s.head? = some Byte.space
  | .comment, s => endsComment s = true ∧ s.head? = some Byte.pound

/-! ## Where tokens stop -/

theorem stopsAt_keyword {w rest : Bytes} {k : TokenKind} (hk : TokenKind.keyword? w = some k)
    (hr : endsWord rest = true) : Lexeme.StopsAt ⟨k, w, .zero⟩ rest := by
  have hmem := TokenKind.mem_of_keyword? hk
  simp only [TokenKind.keywords, List.mem_cons, Prod.mk.injEq, List.not_mem_nil, or_false] at hmem
  rcases hmem with h | h | h | h | h | h | h | h | h | h <;> obtain ⟨-, rfl⟩ := h <;> exact hr

theorem stopsAt_scanWord (b : UInt8) (r : Bytes) :
    Lexeme.StopsAt ⟨(scanWord b r).kind, (scanWord b r).text, .zero⟩ (scanWord b r).rest := by
  have hr : endsWord (Bytes.cutAt endsWord r).2 = true := by
    rcases Bytes.stop_cutAt endsWord r with h | h
    · rw [h]
      rfl
    · exact h
  simp only [scanWord]
  cases hk : TokenKind.keyword? (b :: (Bytes.cutAt endsWord r).1) with
  | some k => exact stopsAt_keyword hk hr
  | none => exact hr

theorem stopsAt_scanTag {s : Bytes} {p : Piece} (h : scanTag s = some p) (hp : p.kind ≠ .error) :
    Lexeme.StopsAt ⟨p.kind, p.text, .zero⟩ p.rest := by
  unfold scanTag at h
  split at h <;> cases h
  case h_6 r hr =>
    intro heq
    cases r with
    | nil => cases heq
    | cons b r =>
      rw [List.head?_cons, Option.some.injEq] at heq
      subst heq
      exact hr r rfl
  case h_12 r =>
    unfold scanString at hp ⊢
    split
    · trivial
    · rename_i hq
      split at hp
      · rename_i heq
        exact absurd heq (hq _)
      · exact absurd rfl hp
  case h_13 b r _ _ _ _ _ _ _ _ _ _ _ =>
    split
    · exact stopsAt_scanWord b r
    · rename_i hb
      rw [if_neg hb] at hp
      exact absurd rfl hp
  all_goals trivial

end Mode

theorem Lexeme.StopsAt.of_head {t : Lexeme} {b : UInt8} {r r' : Bytes} (ht : t.kind.before = .tag)
    (h : t.StopsAt (b :: r)) : t.StopsAt (b :: r') := by
  obtain ⟨k, w, pos⟩ := t
  cases k <;> first | exact h | cases ht

namespace Mode

/-- **A token stops at the token after it**, whatever comes then. -/
theorem stopsAt_next {m : Mode} {s : Bytes} {p q : Piece} (h : m.scan s = some p) (hp : p.kind ≠ .error)
    (h' : p.mode.scan (p.mode.skip p.rest) = some q) (hq : q.kind ≠ .error) (more : Bytes) :
    Lexeme.StopsAt ⟨p.kind, p.text, .zero⟩ (p.mode.gap p.rest ++ (q.text ++ more)) := by
  have hne := (text_append_rest h').1
  cases m with
  | outside =>
    cases ho : opensTag s with
    | true =>
      obtain ⟨k, w, r, hk, -, hs⟩ := scanOutside_of_opensTag ho
      have hps := h.symm.trans hs
      cases hps
      rcases hk with rfl | rfl | rfl <;> trivial
    | false =>
      have hseams := seamless_words .outside s
      rw [words_of_scan (m := .outside) h, words_of_scan h'] at hseams
      cases s with
      | nil => cases h
      | cons b r =>
        have hps := h.symm.trans (scanOutside_of_not_opensTag ho)
        cases hps
        exact (hseams.1 rfl).append hne more
  | tag =>
    have hstop := stopsAt_scanTag h hp
    rw [← gap_append_text h'] at hstop
    have hbefore := (mode_scan h hp).1
    cases hgap : p.mode.gap p.rest with
    | cons b g =>
      rw [hgap] at hstop
      exact hstop.of_head hbefore
    | nil =>
      rw [hgap] at hstop
      obtain ⟨b, w, hw⟩ := List.exists_cons_of_ne_nil hne
      rw [hw] at hstop ⊢
      exact hstop.of_head hbefore
  | comment =>
    replace h : scanComment s = some p := h
    unfold scanComment at h
    split at h <;> cases h
    · trivial
    · exact absurd rfl hp
    · rename_i b r _ _
      -- the body ends before a newline, which is no token, or before the closer
      replace h' : scanComment (Bytes.cutAt endsComment r).2 = some q := h'
      rcases Bytes.stop_cutAt endsComment r with hrest | hrest
      · rw [hrest] at h'
        cases h'
      · unfold scanComment at h'
        split at h' <;> cases h'
        · exact ⟨rfl, rfl⟩
        · exact absurd rfl hq
        · rename_i c r' hn hc heq
          rw [heq] at hrest
          unfold endsComment at hrest
          split at hrest
          · rename_i hcons
            cases hcons
            exact (hc rfl).elim
          · rename_i hcons
            cases hcons
            exact (hn _ rfl rfl).elim
          · cases hrest

theorem head?_gap_append {r c : Bytes} (hc : Mode.tag.Resumes c) :
    ∃ b u, Mode.tag.gap r ++ c = b :: u ∧ Byte.isBlank b = true := by
  cases hgap : Mode.tag.gap r with
  | cons b g => exact ⟨b, g ++ c, rfl, (of_mem_gap (hgap ▸ List.mem_cons_self)).2⟩
  | nil =>
    cases c with
    | nil => cases hc
    | cons b c =>
      have hb : b = Byte.space := Option.some.inj hc
      exact ⟨b, c, rfl, by rw [hb]; rfl⟩

theorem stopsAt_resumes {m : Mode} {s c : Bytes} {p : Piece} (h : m.scan s = some p) (hp : p.kind ≠ .error)
    (hc : p.mode.Resumes c) : Lexeme.StopsAt ⟨p.kind, p.text, .zero⟩ (p.mode.gap p.rest ++ c) := by
  obtain ⟨-, hafter⟩ := mode_scan h hp
  have hspelled := spelled_scan h
  rw [← hafter] at hc ⊢
  generalize p.kind = k at hp hspelled hc ⊢
  cases k with
  | text => exact .inr (.inl hc)
  | comment => exact hc
  | eof => exact hspelled.elim
  | error => exact absurd rfl hp
  | bang =>
    obtain ⟨b, u, hb, hblank⟩ := @head?_gap_append p.rest c hc
    show (Mode.tag.gap p.rest ++ c).head? ≠ some Byte.equals
    rw [hb]
    rintro heq
    rw [Option.some.inj heq] at hblank
    cases hblank
  | and | or | «if» | «elseif» | «else» | «end» | true | false | switch | case | identifier =>
    obtain ⟨b, u, hb, hblank⟩ := @head?_gap_append p.rest c hc
    show endsWord (Mode.tag.gap p.rest ++ c) = true
    rw [hb, endsWord]
    simp only [Byte.isBlank, Bool.or_eq_true, beq_iff_eq] at hblank
    rcases hblank with (rfl | rfl) | rfl <;> rfl
  | _ => trivial

/-! ## Cutting off -/

theorem words_of_skip {m : Mode} {s s' : Bytes} (h : m.skip s = m.skip s') : m.words s = m.words s' := by
  cases hs : m.scan (m.skip s) with
  | none => rw [words_of_end hs, words_of_end (h ▸ hs)]
  | some p =>
    have hs' : m.scan (m.skip s') = some p := h ▸ hs
    rw [words_of_scan hs, words_of_scan hs']

theorem words_gap (m : Mode) (s c : Bytes) : m.words (m.gap s ++ c) = m.words c := by
  refine words_of_skip ?_
  cases m with
  | tag => exact List.dropWhile_append_of_pos fun b hb => (of_mem_gap hb).2
  | outside => rfl
  | comment => rfl

end Mode

namespace Lexer

/-! ### The end of the source as one more token -/

theorem tokens_eof_of_end {m : Mode} {s : Bytes} (h : m.scan (m.skip s) = none) (offset : Nat) :
    (Lexer.mk m offset s).tokens ++ [.eof (offset + s.length)] = [.eof (offset + s.length)] := by
  rw [tokens_of_end h, List.nil_append]

theorem tokens_eof_of_scan {m : Mode} {s : Bytes} {p : Piece} (h : m.scan (m.skip s) = some p) (offset : Nat) :
    (Lexer.mk m offset s).tokens ++ [.eof (offset + s.length)] = ⟨p.kind, offset + (m.gap s).length, p.text⟩ ::
      ((Lexer.mk p.mode (offset + (m.gap s).length + p.text.length) p.rest).tokens ++
        [.eof (offset + (m.gap s).length + p.text.length + p.rest.length)]) := by
  have hlen := congrArg List.length (Mode.gap_append_text h)
  simp only [List.length_append] at hlen
  rw [tokens_of_scan h, List.cons_append,
    show offset + s.length = offset + (m.gap s).length + p.text.length + p.rest.length by omega]

theorem le_start {m : Mode} {offset : Nat} {s : Bytes} {us vs : List Token} {t : Token}
    (h : (Lexer.mk m offset s).tokens ++ [.eof (offset + s.length)] = us ++ t :: vs) : offset ≤ t.start := by
  have hmem : t ∈ (Lexer.mk m offset s).tokens ++ [.eof (offset + s.length)] :=
    h ▸ List.mem_append_right us List.mem_cons_self
  rcases List.mem_append.1 hmem with hmem | hmem
  · exact (span_of_mem_tokens _ _ _ t hmem).1
  · rw [List.mem_singleton.1 hmem]
    exact Nat.le_add_right _ _

theorem take_of_scan {m : Mode} {s : Bytes} {p : Piece} (h : m.scan (m.skip s) = some p) {offset start : Nat}
    (hstart : offset + (m.gap s).length + p.text.length ≤ start) : s.take (start - offset) =
      m.gap s ++ (p.text ++ p.rest.take (start - (offset + (m.gap s).length + p.text.length))) := by
  have hs := Mode.gap_append_text h
  generalize m.gap s = g at hs hstart ⊢
  rw [← hs, List.take_append, List.take_append, List.take_of_length_le (by omega), List.take_of_length_le (by omega)]
  congr 3
  omega

theorem take_first {m : Mode} {offset : Nat} {s : Bytes} {t : Token} {vs : List Token}
    (h : (Lexer.mk m offset s).tokens ++ [.eof (offset + s.length)] = t :: vs) : s.take (t.start - offset) = m.gap s := by
  cases hs : m.scan (m.skip s) with
  | none =>
    rw [tokens_eof_of_end hs, List.cons.injEq] at h
    rw [Mode.gap_of_end hs, ← h.1]
    exact List.take_of_length_le (by simp only [Token.eof]; omega)
  | some p =>
    rw [tokens_eof_of_scan hs, List.cons.injEq] at h
    have heq := Mode.gap_append_text hs
    generalize m.gap s = g at heq h ⊢
    rw [← h.1, ← heq, Nat.add_sub_cancel_left, List.take_left]

/-- Where the source is cut off behind the token that was scanned first, that token stops at what is left. -/
theorem stopsAt_take {m : Mode} {offset : Nat} {s c : Bytes} {p : Piece} {us vs : List Token} {t : Token}
    (h : m.scan s = some p) (hp : p.kind ≠ .error)
    (htokens : (Lexer.mk p.mode offset p.rest).tokens ++ [.eof (offset + p.rest.length)] = us ++ t :: vs)
    (hus : ∀ u ∈ us, u.kind ≠ .error) (hc : (p.mode.afterAll (us.map Token.kind)).Resumes c) :
    Lexeme.StopsAt ⟨p.kind, p.text, .zero⟩ (p.rest.take (t.start - offset) ++ c) := by
  cases us with
  | nil =>
    rw [take_first htokens]
    exact Mode.stopsAt_resumes h hp hc
  | cons u us =>
    cases h' : p.mode.scan (p.mode.skip p.rest) with
    | none =>
      rw [tokens_eof_of_end h'] at htokens
      simp at htokens
    | some q =>
      rw [tokens_eof_of_scan h', List.cons_append, List.cons.injEq] at htokens
      obtain ⟨rfl, htokens⟩ := htokens
      rw [take_of_scan h' (le_start htokens), List.append_assoc, List.append_assoc]
      exact Mode.stopsAt_next h hp h' (hus _ List.mem_cons_self) _

/-- **Completing a source**: cut off in front of `t` and completed by `c`, it keeps the tokens before the cut, if `c` does
not go on with the last of them. -/
theorem words_take : ∀ (us : List Token) (m : Mode) (offset : Nat) (s : Bytes) (t : Token) (vs : List Token),
    (Lexer.mk m offset s).tokens ++ [.eof (offset + s.length)] = us ++ t :: vs → (∀ u ∈ us, u.kind ≠ .error) →
    ∀ c, (m.afterAll (us.map Token.kind)).Resumes c →
      m.words (s.take (t.start - offset) ++ c) =
        us.map Token.word ++ (m.afterAll (us.map Token.kind)).words c
  | [], m, offset, s, t, vs, h, _, c, _ => by
    rw [take_first h, Mode.words_gap]
    rfl
  | u :: us, m, offset, s, t, vs, h, hus, c, hc => by
    cases hs : m.scan (m.skip s) with
    | none =>
      rw [tokens_eof_of_end hs] at h
      simp at h
    | some p =>
      rw [tokens_eof_of_scan hs, List.cons_append, List.cons.injEq] at h
      obtain ⟨rfl, h⟩ := h
      have hp : p.kind ≠ .error := hus _ List.mem_cons_self
      have hus' : ∀ u ∈ us, u.kind ≠ .error := fun u hu => hus u (List.mem_cons_of_mem _ hu)
      obtain ⟨hbefore, hafter⟩ := Mode.mode_scan hs hp
      simp only [List.map_cons, Mode.afterAll_cons, hafter] at hc ⊢
      have hword := Mode.words_append (Mode.spelled_scan hs) (stopsAt_take hs hp h hus' hc)
      rw [hbefore, hafter] at hword
      rw [take_of_scan hs (le_start h), List.append_assoc, List.append_assoc, Mode.words_gap, hword,
        words_take us p.mode _ p.rest t vs h hus' c hc]
      rfl

end Lexer
end Stencil
