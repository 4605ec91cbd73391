import Stencil.Proofs.Source.Spelling
/-!
# Words — the tokens of a source without their positions

`Mode.words` are the tokens that scanning finds, apart from where they stand.  They are read off the front
(`words_of_scan`), and writing a token in front of bytes that cannot go on with it puts it in front of the words
(`words_append`).  `Seamless` says of tokens that each text among them ends where the next token starts.
-/
namespace Stencil

def Token.word (t : Token) : Lexeme := ⟨t.kind, t.text, .zero⟩

def Mode.words (m : Mode) (s : Bytes) : List Lexeme := (Lexer.mk m 0 s).tokens.map Token.word

namespace Lexer

theorem tokens_of_scan {m : Mode} {s : Bytes} {p : Piece} (h : m.scan (m.skip s) = some p) (offset : Nat) :
    (Lexer.mk m offset s).tokens = ⟨p.kind, offset + (m.gap s).length, p.text⟩ ::
      (Lexer.mk p.mode (offset + (m.gap s).length + p.text.length) p.rest).tokens := by
  have hn : (Lexer.mk m offset s).next? = some (⟨p.kind, offset + (m.gap s).length, p.text⟩,
      ⟨p.mode, offset + (m.gap s).length + p.text.length, p.rest⟩) := by
    rw [next?, h]
    rfl
  rw [tokens]
  split
  · rename_i heq
    rw [hn, Option.some.injEq, Prod.mk.injEq] at heq
    rw [heq.1, heq.2]
  · rename_i heq
    rw [hn] at heq
    cases heq

theorem tokens_of_end {m : Mode} {s : Bytes} (h : m.scan (m.skip s) = none) (offset : Nat) :
    (Lexer.mk m offset s).tokens = [] := by
  have hn : (Lexer.mk m offset s).next? = none := by
    rw [next?, h]
    rfl
  rw [tokens]
  split
  · rename_i heq
    rw [hn] at heq
    cases heq
  · rfl

/-- **Induction over the tokens of a source**: a property of the tokens that are found from a place on holds where none
is found, and at every place if it holds after the next token. -/
theorem tokens_induction {motive : Mode → Nat → Bytes → List Token → Prop}
    (atEnd : ∀ m offset s, m.scan (m.skip s) = none → motive m offset s [])
    (scanned : ∀ m offset s p, m.scan (m.skip s) = some p →
      motive p.mode (offset + (m.gap s).length + p.text.length) p.rest
        (Lexer.mk p.mode (offset + (m.gap s).length + p.text.length) p.rest).tokens →
      motive m offset s (⟨p.kind, offset + (m.gap s).length, p.text⟩ ::
        (Lexer.mk p.mode (offset + (m.gap s).length + p.text.length) p.rest).tokens)) :
    ∀ (m : Mode) (offset : Nat) (s : Bytes), motive m offset s (Lexer.mk m offset s).tokens := by
  intro m offset s
  cases h : m.scan (m.skip s) with
  | none =>
    rw [tokens_of_end h]
    exact atEnd m offset s h
  | some p =>
    have hlt := Mode.length_rest_lt h
    rw [tokens_of_scan h]
    exact scanned m offset s p h (tokens_induction atEnd scanned p.mode _ p.rest)
termination_by _ _ s => s.length

theorem map_word_tokens (offset : Nat) : ∀ (m : Mode) (s : Bytes),
    (Lexer.mk m offset s).tokens.map Token.word = m.words s := by
  intro m s
  unfold Mode.words
  cases h : m.scan (m.skip s) with
  | none => rw [tokens_of_end h, tokens_of_end h]
  | some p =>
    have hlt := Mode.length_rest_lt h
    have ih := fun o => map_word_tokens o p.mode p.rest
    rw [tokens_of_scan h, tokens_of_scan h, List.map_cons, List.map_cons, ih, ih]
    rfl
termination_by _ s => s.length

end Lexer

namespace Mode

theorem words_of_scan {m : Mode} {s : Bytes} {p : Piece} (h : m.scan (m.skip s) = some p) :
    m.words s = ⟨p.kind, p.text, .zero⟩ :: p.mode.words p.rest := by
  rw [words, Lexer.tokens_of_scan h, List.map_cons, Lexer.map_word_tokens]
  rfl

theorem words_of_end {m : Mode} {s : Bytes} (h : m.scan (m.skip s) = none) : m.words s = [] := by
  rw [words, Lexer.tokens_of_end h]
  rfl

@[simp] theorem words_nil (m : Mode) : m.words [] = [] := by cases m <;> exact words_of_end rfl

@[simp] theorem words_space (s : Bytes) : Mode.tag.words (Byte.space :: s) = Mode.tag.words s := by
  have hs : Mode.tag.skip (Byte.space :: s) = Mode.tag.skip s := rfl
  cases h : Mode.tag.scan (Mode.tag.skip s) with
  | none => rw [words_of_end h, words_of_end (hs ▸ h)]
  | some p => rw [words_of_scan h, words_of_scan (hs ▸ h)]

/-- **A token in front of bytes that cannot go on with it is the first of the words.** -/
theorem words_append {t : Lexeme} {rest : Bytes} (ht : t.Spelled) (hr : t.StopsAt rest) :
    t.kind.before.words (t.text ++ rest) = t.erase :: t.kind.after.words rest := by
  have h := scan_append ht hr
  have hk : t.kind ≠ .error := by
    intro hk
    simp only [Lexeme.StopsAt, hk] at hr
  rw [words_of_scan (p := ⟨t.kind, t.text, rest, t.kind.after⟩) (by rw [skip_of_scan h hk, h])]
  rfl

theorem spelled_of_mem_words {t : Lexeme} : ∀ {m : Mode} {s : Bytes}, t ∈ m.words s → t.Spelled := by
  intro m s ht
  cases h : m.scan (m.skip s) with
  | none =>
    rw [words_of_end h] at ht
    cases ht
  | some p =>
    have hlt := length_rest_lt h
    rw [words_of_scan h] at ht
    rcases List.mem_cons.1 ht with rfl | ht
    · exact spelled_scan h
    · exact spelled_of_mem_words ht
termination_by _ s => s.length

end Mode

/-! ## Seams -/

/-- The bytes that tokens start with, up to the end of the first; those of `rest` when there are none. -/
def front : List Lexeme → Bytes → Bytes
  | [], rest => rest
  | t :: _, _ => t.text

/-- Each text among tokens ends where the next token starts, the last one where `rest` does. -/
def Seamless : List Lexeme → Bytes → Prop
  | [], _ => True
  | t :: ts, rest => (t.kind = .text → Bytes.EndsAt t.text (front ts rest)) ∧ Seamless ts rest

theorem seamless_append {us : List Lexeme} {rest : Bytes} : ∀ {ts : List Lexeme},
    Seamless (ts ++ us) rest ↔ Seamless ts (front us rest) ∧ Seamless us rest
  | [] => ⟨fun h => ⟨trivial, h⟩, fun h => h.2⟩
  | [t] => by simp only [List.cons_append, List.nil_append, Seamless, front, and_true]
  | t :: u :: ts => by
    rw [List.cons_append, Seamless, Seamless, seamless_append, and_assoc]
    rfl

theorem seamless_map_erase {rest : Bytes} : ∀ {ts : List Lexeme}, Seamless (ts.map Lexeme.erase) rest ↔ Seamless ts rest
  | [] => Iff.rfl
  | [_] => Iff.rfl
  | _ :: _ :: _ => and_congr Iff.rfl seamless_map_erase

theorem Bytes.EndsAt.append {c rest : Bytes} (h : c.EndsAt rest) (hne : rest ≠ []) (more : Bytes) :
    c.EndsAt (rest ++ more) := by
  match rest, h, hne with
  | b :: rest, .inr (.inl h), _ => exact .inr (.inl h)
  | b :: d :: rest, .inr (.inr ⟨ho, hl⟩), _ => exact .inr (.inr ⟨by
      rw [List.cons_append, List.cons_append, Mode.opensTag_cons]
      rwa [Mode.opensTag_cons] at ho, hl⟩)
  | [b], .inr (.inr ⟨ho, _⟩), _ => simp at ho

namespace Mode

theorem endsAt_words {b : UInt8} {r : Bytes} (h : opensTag (b :: r) = false) :
    Bytes.EndsAt (b :: (Bytes.cutAt endsText r).1) (front (Mode.outside.words (Bytes.cutAt endsText r).2) []) := by
  have hclear := clear_scanOutside h
  have hstop := Bytes.stop_cutAt endsText r
  generalize (Bytes.cutAt endsText r).1 = u at hclear ⊢
  generalize (Bytes.cutAt endsText r).2 = v at hclear hstop ⊢
  rcases hstop with rfl | hstop
  · rw [words_nil]
    exact .inl rfl
  · cases ho : opensTag v with
    | true =>
      obtain ⟨k, w, r, hk, hw, hs⟩ := scanOutside_of_opensTag ho
      have hwords := words_of_scan (m := .outside) hs
      have hopen : opensTag w = true := by
        rcases hk with rfl | rfl | rfl <;> cases hw <;> rfl
      rw [hwords]
      exact .inr (.inr ⟨hopen, getLast?_ne_of_clear ho hclear⟩)
    | false =>
      rw [endsText, ho, Bool.or_false, beq_iff_eq] at hstop
      cases v with
      | nil => cases hstop
      | cons d v =>
        rw [words_of_scan (m := .outside) (scanOutside_of_not_opensTag ho)]
        exact .inr (.inl hstop)

/-- **Each text of a source ends where the next token starts.** -/
theorem seamless_words : ∀ (m : Mode) (s : Bytes), Seamless (m.words s) [] := by
  intro m s
  cases h : m.scan (m.skip s) with
  | none =>
    rw [words_of_end h]
    trivial
  | some p =>
    have hlt := length_rest_lt h
    rw [words_of_scan h]
    refine ⟨fun hk => ?_, seamless_words p.mode p.rest⟩
    dsimp only at hk
    obtain ⟨hm, ha⟩ := mode_scan h (by rw [hk]; exact TokenKind.noConfusion)
    rw [hk] at hm
    subst hm
    replace h : scanOutside s = some p := h
    cases ho : opensTag s with
    | true =>
      obtain ⟨k, w, r, hk', -, hs⟩ := scanOutside_of_opensTag ho
      rw [hs, Option.some.injEq] at h
      subst h
      rcases hk' with rfl | rfl | rfl <;> cases hk
    | false =>
      cases s with
      | nil => cases h
      | cons b r =>
        rw [scanOutside_of_not_opensTag ho, Option.some.injEq] at h
        subst h
        exact endsAt_words ho
termination_by _ s => s.length

end Mode

theorem Token.map_word_ofSource (s : Bytes) :
    (Token.ofSource s).map Token.word = Mode.outside.words s ++ [(Token.eof 0).word] := by
  rw [Token.ofSource, List.map_append, Lexer.ofSource, Lexer.map_word_tokens]
  rfl

namespace Lexeme

theorem map_erase_ofSource (s : Bytes) : (Lexeme.ofSource s).map erase = Mode.outside.words s := by
  rw [Lexeme.ofSource, List.map_map, ← Lexer.map_word_tokens 0]
  rfl

theorem spelled_erase {t : Lexeme} : t.erase.Spelled ↔ t.Spelled := Iff.rfl

theorem spelled_of_mem {s : Bytes} {t : Lexeme} (h : t ∈ Lexeme.ofSource s) : t.Spelled := by
  have hmem : t.erase ∈ Mode.outside.words s := by
    rw [← map_erase_ofSource]
    exact List.mem_map_of_mem h
  exact spelled_erase.1 (Mode.spelled_of_mem_words hmem)

theorem seamless_ofSource (s : Bytes) : Seamless (Lexeme.ofSource s) [] := by
  rw [← seamless_map_erase, map_erase_ofSource]
  exact Mode.seamless_words .outside s

theorem kind_ne_eof {s : Bytes} {t : Lexeme} (h : t ∈ Lexeme.ofSource s) : t.kind ≠ .eof := by
  intro hk
  have hs := spelled_of_mem h
  simp only [Spelled, hk] at hs

end Lexeme
end Stencil
