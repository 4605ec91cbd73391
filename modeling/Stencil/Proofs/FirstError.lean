import Stencil.Proofs.Grammar.Closing
import Stencil.Proofs.RoundTrip
/-!
# FirstError — a parse error is found at the first token that no template goes on with

Whether a source is a template depends on its words alone (`Template.parse_of_words`).  Up to the token at which an
error is found, the source can be completed (`Template.parse_completed`), but no source that begins with the words up to
that token, that one included, is a template (`Template.parse_ne_ok_of_fail`).
-/
namespace Stencil

open Grammar
open KeyOrder (lt)
open Position (Increasing lineAfter line_lt_lineAfter)

namespace Position

def down (lines : Nat) (p : Position) : Position := ⟨lines + p.line, p.column⟩

theorem increasing_down (lines : Nat) : Increasing (down lines) := fun p q h => by
  rw [keyOrder_lt_iff] at h ⊢
  simp only [down]
  omega

end Position

namespace Lexeme

variable {us vs : List Lexeme}

theorem exists_append_inOrder (hus : Lexeme.InOrder us)
    (hvs : Lexeme.InOrder vs) :
    ∃ ws : List Lexeme, ws.map Lexeme.erase = vs.map Lexeme.erase ∧
      Lexeme.InOrder (us ++ ws) := by
  refine ⟨vs.map (Lexeme.mapPos (Position.down (lineAfter (us.map Lexeme.pos)))), ?_, ?_⟩
  · rw [List.map_map]
    rfl
  · refine List.pairwise_append.2 ⟨hus, List.pairwise_map.2 (hvs.imp (Position.increasing_down _ _ _)), ?_⟩
    intro x hx y hy
    obtain ⟨z, -, rfl⟩ := List.mem_map.1 hy
    have hmem : x.pos ∈ us.map Lexeme.pos := List.mem_map_of_mem hx
    exact (Position.keyOrder_lt_iff _ _).2 (.inl (Nat.lt_of_lt_of_le (line_lt_lineAfter hmem) (Nat.le_add_right _ _)))

/-- Tokens of the words of a source, of which those in front are given. -/
theorem exists_append_of_words {s : Bytes} {more : List Lexeme}
    (hus : Lexeme.InOrder us)
    (h : (Lexeme.ofSource s).map Lexeme.erase = us.map Lexeme.erase ++ more) :
    ∃ ws : List Lexeme, ws.map Lexeme.erase = more ∧
      Lexeme.InOrder (us ++ ws) ∧
        (Lexeme.ofSource s).map Lexeme.erase = (us ++ ws).map Lexeme.erase := by
  obtain ⟨l, vs, hs, -, hmore⟩ := List.map_eq_append_iff.1 h
  have hvs := (Lexeme.inOrder_ofSource s).sublist (hs ▸ List.sublist_append_right l vs)
  obtain ⟨ws, hws, hpair⟩ := exists_append_inOrder hus hvs
  exact ⟨ws, hws.trans hmore, hpair, by rw [h, List.map_append, hws, hmore]⟩

end Lexeme

namespace Template

variable {s : Bytes} {us more : List Lexeme} {p : Progress}

/-- **Words that led to a progress, and those of its completion, are a template.** -/
theorem parse_completed (h : Progress.start.after? 0 us = some p)
    (hus : Lexeme.InOrder us)
    (hwords : (Lexeme.ofSource s).map Lexeme.erase = us.map Lexeme.erase ++ p.place.mode.words p.closing) :
    ∃ t, parse s = .ok t := by
  obtain ⟨ws, hws, hpair, hs⟩ := Lexeme.exists_append_of_words hus hwords
  obtain ⟨t, hb, hd⟩ := p.spells_closing h hws
  obtain ⟨t₀, f, g, -, -, -, hp⟩ := parse_of_words hb hd hpair hs
  exact ⟨_, hp⟩

theorem spells_of_words {f : Template} (h : parse s = .ok f)
    (hus : Lexeme.InOrder us)
    (hwords : (Lexeme.ofSource s).map Lexeme.erase = us.map Lexeme.erase) :
    ∃ g : Template, SpellsBlocks us g ∧ g.nesting ≤ maxDepth := by
  obtain ⟨hb, hd⟩ := parse_eq_ok.1 h
  obtain ⟨t₀, f', g, -, -, -, hspell⟩ := hb.relocate hd (Lexeme.inOrder_ofSource s) hus hwords.symm
  exact ⟨_, hspell⟩

/-- **Where reading fails, no template goes on.** -/
theorem not_spells_of_fail (eof : Lexeme) (ws : List Lexeme) {e : ParseError} {depth : Nat} {standing : Standing}
    {g : Template} (heof : eof.kind = .eof) (h : Progress.start.after? 0 us = some p)
    (hfail : p.step 0 (ws.headD eof) = .fail e depth standing) (hd : g.nesting ≤ maxDepth) :
    ¬ SpellsBlocks (us ++ ws) g := fun hg => by
  have hts : ∀ u ∈ us ++ ws, u.kind ≠ .eof := fun u hu => (kind_ne_of_proper hg.proper hu).1
  have hok := (Parser.runTemplate_iff heof hts (Nat.zero_le maxDepth)).2 ⟨hg, by omega⟩
  rw [Parser.runTemplate_append h] at hok
  cases ws with
  | nil =>
    rw [Parser.runTemplate, show p.step 0 eof = _ from hfail] at hok
    cases hok
  | cons w ws =>
    rw [Parser.runTemplate, show p.step 0 w = _ from hfail] at hok
    cases hok

/-- **An error stops reading at a token** behind others that were all shifted. -/
theorem fail_of_parse_eq_error {src : Bytes} {e : ParseError} (h : parse src = .error e) :
    ∃ us t vs p depth standing, Token.ofSource src = us ++ t :: vs ∧
      Progress.start.after? 0 (us.map (LineIndex.ofSource src).lexeme) = some p ∧
        p.step 0 ((LineIndex.ofSource src).lexeme t) = .fail e depth standing := by
  obtain ⟨us, vs, p, hsplit, hrun, hfail⟩ := Parser.runTemplate_error (Prod.ext h rfl)
  obtain ⟨us, vs, htokens, rfl, rfl⟩ := List.map_eq_append_iff.1 hsplit
  rcases hfail with ⟨depth, standing, hfail⟩ | ⟨q, hshift⟩
  · cases vs with
    | nil =>
      refine ⟨us, .eof src.length, [], p, depth, standing, ?_, hrun, hfail⟩
      rw [Token.ofSource, htokens, List.append_nil]
    | cons t vs =>
      refine ⟨us, t, vs ++ [.eof src.length], p, depth, standing, ?_, hrun, hfail⟩
      rw [Token.ofSource, htokens, List.append_assoc, List.cons_append]
  · -- the end of a source may stand in no template, so it is not shifted
    have hproper := Progress.isProper_of_shift hrun hshift
    cases hproper

section

variable {src : Bytes} {t : Token} {us vs : List Token} {p : Progress}

theorem map_erase_lexeme (index : LineIndex) (us : List Token) :
    (us.map index.lexeme).map Lexeme.erase = us.map Token.word := by
  rw [List.map_map]
  rfl

theorem inOrder_front (h : Token.ofSource src = us ++ t :: vs) :
    Lexeme.InOrder ((us ++ [t]).map (LineIndex.ofSource src).lexeme) := by
  have hpair := Lexeme.inOrder_eof src
  rw [h, ← List.singleton_append, ← List.append_assoc, List.map_append] at hpair
  exact (List.pairwise_append.1 hpair).1

theorem inOrder_before (h : Token.ofSource src = us ++ t :: vs) :
    Lexeme.InOrder (us.map (LineIndex.ofSource src).lexeme) := by
  have hpair := inOrder_front h
  rw [List.map_append] at hpair
  exact (List.pairwise_append.1 hpair).1

/-- **In front of a token behind others that were all shifted, a source can be completed.** -/
theorem parse_take (h : Token.ofSource src = us ++ t :: vs)
    (hrun : Progress.start.after? 0 (us.map (LineIndex.ofSource src).lexeme) = some p) :
    ∃ f, parse (src.take t.start ++ p.closing) = .ok f := by
  refine parse_completed hrun (inOrder_before h) ?_
  have hmode := Progress.mode_after hrun
  rw [List.map_map, show Lexeme.kind ∘ (LineIndex.ofSource src).lexeme = Token.kind from rfl] at hmode
  have herr : ∀ u ∈ us, u.kind ≠ .error := fun u hu =>
    (kind_ne_of_proper (Progress.proper_of_after hrun) (List.mem_map_of_mem hu)).2
  have hwords := Lexer.words_take us .outside 0 src t vs (by rwa [Nat.zero_add]) herr p.closing
    (hmode ▸ p.resumes_closing)
  rw [Lexeme.map_erase_ofSource, map_erase_lexeme, ← hmode]
  exact hwords

/-- **No template begins with the words up to a token at which reading fails.** -/
theorem parse_ne_ok_of_fail {e : ParseError} {depth : Nat} {standing : Standing} {src' : Bytes} {f : Template}
    (h : Token.ofSource src = us ++ t :: vs)
    (hrun : Progress.start.after? 0 (us.map (LineIndex.ofSource src).lexeme) = some p)
    (hfail : p.step 0 ((LineIndex.ofSource src).lexeme t) = .fail e depth standing)
    (hbegins : (us ++ [t]).map Token.word <+: (Token.ofSource src').map Token.word) : parse src' ≠ .ok f := fun hf => by
  obtain ⟨rest, hrest⟩ := hbegins
  rw [Token.map_word_ofSource, ← Lexeme.map_erase_ofSource] at hrest
  rcases List.eq_nil_or_concat rest with rfl | ⟨more, x, rfl⟩
  · -- the other source ends with `t`, so `t` is the end of the source
    rw [List.append_nil, List.map_append, List.map_singleton] at hrest
    obtain ⟨hus, ht⟩ := List.append_inj' hrest rfl
    have hkind : t.kind = .eof := congrArg Lexeme.kind (List.singleton_inj.1 ht)
    rw [← map_erase_lexeme (LineIndex.ofSource src)] at hus
    obtain ⟨g, hg, hd⟩ := spells_of_words hf (inOrder_before h) hus.symm
    rw [← List.append_nil (us.map _)] at hg
    exact not_spells_of_fail ((LineIndex.ofSource src).lexeme t) [] hkind hrun hfail hd hg
  · rw [List.concat_eq_append, ← List.append_assoc] at hrest
    obtain ⟨hus, -⟩ := List.append_inj' hrest rfl
    rw [← map_erase_lexeme (LineIndex.ofSource src)] at hus
    obtain ⟨ws, -, hpair, hws⟩ := Lexeme.exists_append_of_words (inOrder_front h) hus.symm
    obtain ⟨g, hg, hd⟩ := spells_of_words hf hpair hws
    rw [List.map_append, List.map_singleton, List.append_assoc, List.singleton_append] at hg
    exact not_spells_of_fail ⟨.eof, [], .zero⟩ ((LineIndex.ofSource src).lexeme t :: ws) rfl hrun hfail hd hg

end

/-- **A parse error is found at the first token that no template goes on with**, unless it tells of too many open
constructs: the source in front of the token can be completed, but no source that begins with the words up to the token,
that one included, is a template. -/
theorem parse_error_at_first {src : Bytes} {e : ParseError} (h : parse src = .error e)
    (hm : e.message ≠ "template nested too deeply") :
    ∃ us t vs, Token.ofSource src = us ++ t :: vs ∧ e.pos = (LineIndex.ofSource src).position t.start ∧
      (∃ c f, parse (src.take t.start ++ c) = .ok f) ∧
        ∀ src' f, (us ++ [t]).map Token.word <+: (Token.ofSource src').map Token.word → parse src' ≠ .ok f := by
  obtain ⟨us, t, vs, p, depth, standing, htokens, hrun, hfail⟩ := fail_of_parse_eq_error h
  have hat : e.IsAt ((LineIndex.ofSource src).lexeme t) := by
    have hstep := Progress.step_accords 0 p ((LineIndex.ofSource src).lexeme t)
    rwa [hfail] at hstep
  have hpos := hat.resolve_left fun hc => hm (congrArg ParseError.Cause.message hc)
  exact ⟨us, t, vs, htokens, hpos, ⟨p.closing, parse_take htokens hrun⟩,
    fun _ _ hbegins => parse_ne_ok_of_fail htokens hrun hfail hbegins⟩

/-- A statement that is not ended, behind text that would open a tag with the next brace. -/
def unended : Bytes := utf8 "\x7b%if !a%\x7db\x7b"

theorem parse_error_at_first_at_unended : parse unended = .error ⟨.unclosed .cond, ⟨0, 11⟩⟩ ∧
    ∃ us t vs, Token.ofSource unended = us ++ t :: vs ∧ (LineIndex.ofSource unended).position t.start = ⟨0, 11⟩ ∧
      (∃ c f, parse (unended.take t.start ++ c) = .ok f) ∧
        ∀ src' f, (us ++ [t]).map Token.word <+: (Token.ofSource src').map Token.word → parse src' ≠ .ok f := by
  have h : parse unended = .error ⟨.unclosed .cond, ⟨0, 11⟩⟩ := by cbv
  obtain ⟨us, t, vs, htokens, hpos, hrest⟩ := parse_error_at_first h (by decide)
  exact ⟨h, us, t, vs, htokens, hpos.symm, hrest⟩

end Template
end Stencil
