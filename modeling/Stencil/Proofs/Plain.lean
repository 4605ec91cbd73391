import Stencil.Proofs.Grammar.Parse
import Stencil.Proofs.Render.Pieces
import Stencil.Proofs.Source.Lossless
import Stencil.Proofs.Source.Rules
import Stencil.Template.Format
/-!
# Plain — sources without tags

A source in which nothing opens a tag or a comment has no tokens but text (`Mode.words_eq_text_iff`), and their texts make
it up.  So it is read as a template of text blocks, which renders to the source in every scope, is its own canonical form
and says nothing about types (`Template.plain_passes_through`).  Braces that stand alone and closers are text like any
other.
-/
namespace Stencil

/-! ## Tokens -/

namespace Mode

open Lexical (openers opensTag_iff)

theorem clear_opensTag_iff {s : Bytes} : Bytes.Clear opensTag s [] ↔ ∀ o ∈ openers, ¬ o <:+: s := by
  refine ⟨fun h o ho => Lexical.not_infix_of_clear h ho, fun h => Bytes.clear_iff.2 fun u v hs _ => ?_⟩
  rw [List.append_nil, Bool.eq_false_iff]
  intro hopens
  obtain ⟨o, ho, r, rfl⟩ := opensTag_iff.1 hopens
  exact h o ho ⟨u, r, by rw [hs, List.append_assoc]⟩

/-- **The words of a source are all text exactly if it is clear of openers**, and then their texts make it up. -/
theorem words_eq_text_iff : ∀ s : Bytes, ((∀ t ∈ Mode.outside.words s, t.kind = .text) ↔ Bytes.Clear opensTag s []) ∧
    (Bytes.Clear opensTag s [] → ((Mode.outside.words s).map Lexeme.text).flatten = s)
  | [] => by simp [Bytes.Clear]
  | b :: r => by
    cases ho : opensTag (b :: r) with
    | true =>
      have hclear : ¬ Bytes.Clear opensTag (b :: r) [] := fun h => by
        rw [Bytes.Clear, List.append_nil, ho] at h
        cases h.1
      obtain ⟨k, w, rest, hk, -, hscan⟩ := scanOutside_of_opensTag ho
      rw [words_of_scan (m := .outside) hscan]
      refine ⟨iff_of_false (fun h => ?_) hclear, fun h => absurd h hclear⟩
      have htext : k = .text := h _ List.mem_cons_self
      rcases hk with rfl | rfl | rfl <;> cases htext
    | false =>
      have hscan := scanOutside_of_not_opensTag ho
      have hlt : (Bytes.cutAt endsText r).2.length ≤ r.length := Nat.le_of_lt_succ (length_rest_lt (m := .outside) hscan)
      obtain ⟨hkinds, htexts⟩ := words_eq_text_iff (Bytes.cutAt endsText r).2
      have hclear : Bytes.Clear opensTag (b :: r) [] ↔ Bytes.Clear opensTag (Bytes.cutAt endsText r).2 [] := by
        have hs : b :: r = (b :: (Bytes.cutAt endsText r).1) ++ (Bytes.cutAt endsText r).2 := by
          rw [List.cons_append, Bytes.cutAt_append]
        rw [hs, Bytes.clear_append, List.append_nil]
        exact and_iff_right (clear_scanOutside ho)
      rw [words_of_scan (m := .outside) hscan, List.forall_mem_cons, hclear]
      refine ⟨(and_iff_right rfl).trans hkinds, fun h => ?_⟩
      rw [List.map_cons, List.flatten_cons, htexts h, List.cons_append, Bytes.cutAt_append]
termination_by s => s.length

end Mode

theorem Token.ofSource_eq_text_iff {s : Bytes} : (∀ t ∈ Token.ofSource s, t.kind = .text ∨ t.kind = .eof) ↔
    ∀ t ∈ Lexeme.ofSource s, t.kind = .text := by
  rw [Token.ofSource, List.forall_mem_append, Lexeme.ofSource, List.forall_mem_map]
  refine (and_iff_left (List.forall_mem_singleton.2 (.inr rfl))).trans (forall₂_congr fun t ht => ?_)
  exact or_iff_left (Lexer.of_mem_tokens _ _ _ t ht).1

theorem Lexeme.ofSource_eq_text_iff {s : Bytes} :
    (∀ t ∈ Lexeme.ofSource s, t.kind = .text) ↔ ∀ t ∈ Mode.outside.words s, t.kind = .text := by
  rw [← Lexeme.map_erase_ofSource, List.forall_mem_map]
  rfl

theorem Lexeme.map_text_ofSource (s : Bytes) :
    (Lexeme.ofSource s).map Lexeme.text = (Mode.outside.words s).map Lexeme.text := by
  rw [← Lexeme.map_erase_ofSource, List.map_map]
  rfl

/-! ## Templates -/

def Lexeme.texts (ts : List Lexeme) : Template := ts.map fun t => .text t.text t.pos

namespace Lexeme

open Grammar

theorem spellsBlocks_texts : ∀ {ts : List Lexeme}, (∀ t ∈ ts, t.kind = .text) → SpellsBlocks ts (texts ts)
  | [], _ => .nil
  | _ :: _, h =>
    have ⟨ht, hts⟩ := List.forall_mem_cons.1 h
    .cons (.text ht) (spellsBlocks_texts hts)

theorem nesting_texts : ∀ ts : List Lexeme, (texts ts).nesting = 0
  | [] => rfl
  | _ :: ts => (Nat.zero_max _).trans (nesting_texts ts)

theorem print_texts : ∀ ts : List Lexeme, (texts ts).print = (ts.map Lexeme.text).flatten
  | [] => rfl
  | t :: ts => congrArg (t.text ++ ·) (print_texts ts)

theorem findings_texts (registry : Registry) : ∀ ts : List Lexeme, (texts ts).findings registry = []
  | [] => rfl
  | _ :: ts => findings_texts registry ts

theorem render_texts {σ : Type} (sink : Sink σ) (scope : Scope) : ∀ (ts : List Lexeme) (st : σ),
    (texts ts).render sink scope st = sink.feed st (.ok ()) (ts.map Lexeme.text)
  | [], _ => rfl
  | t :: ts, st => by
    have ih := render_texts sink scope ts
    simp only [Template.render, texts, List.map_cons, Block.writeList, Block.write, Sink.feed] at ih ⊢
    rcases sink.put st t.text with ⟨st, err | ⟨⟩⟩
    · rfl
    · exact ih st

theorem output_texts (scope : Scope) (ts : List Lexeme) :
    (texts ts).output scope = .ok (ts.map Lexeme.text).flatten := by
  rw [Template.output, render_texts, Sink.feed_memory]
  simp [Written.bytes, Written.nothing]

end Lexeme

namespace Template

open Lexical (openers)

theorem addTemplate_eq_self {registry : Registry} {t : Template} (h : t.findings registry = []) (a : Analysis)
    (path : Path) : a.addTemplate registry path t = a := by
  rw [Analysis.addTemplate, h]
  simp [Analysis.usagesOf, Analysis.diagnosticsOf]

/-- **Plain text passes through untouched.**  The tokens of a source are text, but for the end, exactly if no opener of a
tag or a comment stands in it.  Then it is a template; rendered in any scope it gives the source, in pieces that every
sink is fed with in the same order; its canonical form is the source; and an analysis records nothing of it. -/
theorem plain_passes_through (s : Bytes) :
    ((∀ t ∈ Token.ofSource s, t.kind = .text ∨ t.kind = .eof) ↔ ∀ o ∈ openers, ¬ o <:+: s) ∧
    ((∀ o ∈ openers, ¬ o <:+: s) → ∃ t, parse s = .ok t ∧
      (∀ scope, t.output scope = .ok s) ∧
      (∃ ps : List Bytes, ps.flatten = s ∧ ∀ {σ : Type} (sink : Sink σ) (scope : Scope) (st : σ),
        t.render sink scope st = sink.feed st (.ok ()) ps) ∧
      format s = .ok s ∧
      ∀ registry, (∀ (a : Analysis) (path : Path), a.addTemplate registry path t = a) ∧
        ∀ path, analyze registry [(path, t)] = (.empty, [])) := by
  obtain ⟨hkinds, htexts⟩ := Mode.words_eq_text_iff s
  rw [Mode.clear_opensTag_iff] at hkinds htexts
  refine ⟨Token.ofSource_eq_text_iff.trans (Lexeme.ofSource_eq_text_iff.trans hkinds), fun h => ?_⟩
  have hflat : ((Lexeme.ofSource s).map Lexeme.text).flatten = s := by rw [Lexeme.map_text_ofSource, htexts h]
  have hspell := Lexeme.spellsBlocks_texts (Lexeme.ofSource_eq_text_iff.2 (hkinds.2 h))
  have hparse : parse s = .ok (Lexeme.texts (Lexeme.ofSource s)) :=
    parse_eq_ok.2 ⟨hspell, by rw [Lexeme.nesting_texts]; exact Nat.zero_le _⟩
  refine ⟨_, hparse, fun scope => ?_, ⟨_, hflat, fun sink scope st => Lexeme.render_texts sink scope _ st⟩, ?_,
    fun registry => ⟨fun a path => ?_, fun path => ?_⟩⟩
  · rw [Lexeme.output_texts, hflat]
  · rw [format, hparse]
    exact congrArg Except.ok ((Lexeme.print_texts _).trans hflat)
  · exact addTemplate_eq_self (Lexeme.findings_texts registry _) a path
  · rw [analyze, List.foldl_cons, addTemplate_eq_self (Lexeme.findings_texts registry _)]
    exact Prod.ext rfl List.mergeSort_nil

/-- Braces that stand alone, and closers of tags and comments that were never opened. -/
def loneBraces : Bytes := utf8 "\x7b a\n\x7d\x7d %\x7d\n#\x7d \x7b\n\x7b"

theorem plain_passes_through_at_loneBraces : (∀ o ∈ openers, ¬ o <:+: loneBraces) ∧
    ∃ t, parse loneBraces = .ok t ∧ (∀ scope, t.output scope = .ok loneBraces) ∧ format loneBraces = .ok loneBraces := by
  have hplain : ∀ o ∈ openers, ¬ o <:+: loneBraces := by decide
  obtain ⟨t, hparse, houtput, -, hformat, -⟩ := (plain_passes_through loneBraces).2 hplain
  exact ⟨hplain, t, hparse, houtput, hformat⟩

end Template
end Stencil
