import Stencil.Proofs.Grammar.Moved
import Stencil.Proofs.Grammar.Parse
import Stencil.Proofs.Source.Positions
import Stencil.Proofs.Source.Printed
import Stencil.Template.Format
/-!
# RoundTrip — reading what was printed

The words of a printed template are those of its source, but for dropped white space, so reading it back gives the same
template at other positions.  The two stand in the same order: both are one template, moved by increasing maps
(`Template.parse_print`).
-/
namespace Stencil

open KeyOrder (lt)

namespace Position

theorem keyOrder_lt_iff (p q : Position) :
    KeyOrder.lt p q = true ↔ p.line < q.line ∨ (p.line = q.line ∧ p.column < q.column) := lt_iff p q

def Increasing (h : Position → Position) : Prop := ∀ p q, KeyOrder.lt p q = true → KeyOrder.lt (h p) (h q) = true

theorem Increasing.lt_eq {h : Position → Position} (hh : Increasing h) (p q : Position) :
    KeyOrder.lt (h p) (h q) = KeyOrder.lt p q := by
  cases hpq : KeyOrder.lt p q with
  | true => exact hh p q hpq
  | false =>
    cases hqp : KeyOrder.lt q p with
    | true => exact KeyOrder.asymm (hh q p hqp)
    | false =>
      rw [KeyOrder.eq_of_not_lt p q hpq hqp]
      exact KeyOrder.irrefl _

def lineAfter (ps : List Position) : Nat := (ps.map Position.line).sum + 1

theorem line_lt_lineAfter {p : Position} : ∀ {ps : List Position}, p ∈ ps → p.line < lineAfter ps
  | q :: ps, h => by
    rw [lineAfter, List.map_cons, List.sum_cons]
    rcases List.mem_cons.1 h with rfl | h
    · omega
    · have ih := line_lt_lineAfter h
      rw [lineAfter] at ih
      omega

/-- The positions of a list in their order, on the first line; all others come after them. -/
def nth (ps : List Position) : Position → Position
  | ⟨0, i⟩ => ps.getD i ⟨lineAfter ps, i⟩
  | ⟨l + 1, c⟩ => ⟨lineAfter ps + l + 1, c⟩

theorem nth_of_lt {ps : List Position} {i : Nat} (hi : i < ps.length) : nth ps ⟨0, i⟩ = ps[i] := by
  rw [nth, List.getD_eq_getElem?_getD, List.getElem?_eq_getElem hi, Option.getD_some]

theorem nth_of_le {ps : List Position} {i : Nat} (hi : ps.length ≤ i) : nth ps ⟨0, i⟩ = ⟨lineAfter ps, i⟩ := by
  rw [nth, List.getD_eq_getElem?_getD, List.getElem?_eq_none hi, Option.getD_none]

def number (ps : List Position) (p : Position) : Position := ⟨0, ps.idxOf p⟩

theorem nth_number_of_mem {ps : List Position} {p : Position} (hp : p ∈ ps) : nth ps (number ps p) = p := by
  have hi := List.idxOf_lt_length_of_mem hp
  rw [number, nth_of_lt hi, List.getElem_idxOf]

theorem nth_number_getElem {ps qs : List Position} (hps : ps.Nodup) {i : Nat} (hi : i < ps.length)
    (hi' : i < qs.length) : nth qs (number ps ps[i]) = qs[i] := by
  rw [number, hps.idxOf_getElem i hi, nth_of_lt hi']

theorem increasing_nth {ps : List Position} (hps : ps.Pairwise (fun p q => KeyOrder.lt p q = true)) :
    Increasing (nth ps) := by
  have hline : ∀ i, (nth ps ⟨0, i⟩).line ≤ lineAfter ps := by
    intro i
    by_cases hi : i < ps.length
    · rw [nth_of_lt hi]
      exact Nat.le_of_lt (line_lt_lineAfter (List.getElem_mem hi))
    · exact Nat.le_of_eq (congrArg Position.line (nth_of_le (Nat.le_of_not_lt hi)))
  rintro ⟨l, c⟩ ⟨m, d⟩ h
  rw [keyOrder_lt_iff] at h
  dsimp only at h
  cases l with
  | zero =>
    cases m with
    | zero =>
      have hcd : c < d := by omega
      by_cases hd : d < ps.length
      · have hc : c < ps.length := Nat.lt_trans hcd hd
        rw [nth_of_lt hd, nth_of_lt hc]
        exact List.pairwise_iff_getElem.1 hps c d hc hd hcd
      · rw [nth_of_le (Nat.le_of_not_lt hd), keyOrder_lt_iff]
        by_cases hc : c < ps.length
        · rw [nth_of_lt hc]
          exact .inl (line_lt_lineAfter (List.getElem_mem hc))
        · rw [nth_of_le (Nat.le_of_not_lt hc)]
          exact .inr ⟨rfl, hcd⟩
    | succ m =>
      have hc := hline c
      rw [keyOrder_lt_iff]
      refine .inl ?_
      simp only [nth] at hc ⊢
      omega
  | succ l =>
    cases m with
    | zero =>
      omega
    | succ m =>
      rw [keyOrder_lt_iff]
      simp only [nth]
      omega

end Position

open Grammar
open Position (Increasing nth number nth_number_of_mem nth_number_getElem increasing_nth)

namespace Lexeme

theorem map_mapPos_eq_self {f : Position → Position} {ts : List Lexeme} (h : ∀ t ∈ ts, f t.pos = t.pos) :
    ts.map (Lexeme.mapPos f) = ts := by
  refine (List.map_congr_left fun t ht => ?_).trans (List.map_id ts)
  rw [mapPos, h t ht, id]

end Lexeme

/-- **Tokens of the same words, in the order of their positions, spell one template** at the positions of either. -/
theorem Grammar.SpellsBlocks.relocate {ts us : List Lexeme} {t : Template} (h : SpellsBlocks ts t)
    (hd : t.nesting ≤ maxDepth) (hts : Lexeme.InOrder ts) (hus : Lexeme.InOrder us)
    (hwords : us.map Lexeme.erase = ts.map Lexeme.erase) :
    ∃ t₀ f g, Increasing f ∧ Increasing g ∧ t = Template.mapPos f t₀ ∧ SpellsBlocks us (Template.mapPos g t₀) ∧
      (Template.mapPos g t₀).nesting ≤ maxDepth := by
  have hps : (ts.map Lexeme.pos).Pairwise (fun p q => lt p q = true) := List.pairwise_map.2 hts
  have hqs : (us.map Lexeme.pos).Pairwise (fun p q => lt p q = true) := List.pairwise_map.2 hus
  have hnodup : (ts.map Lexeme.pos).Nodup := hps.imp fun h => KeyOrder.ne_of_lt h
  -- the tokens are numbered by their places, and either list gives the numbers positions
  have hself : Template.mapPos (nth (ts.map Lexeme.pos)) (Template.mapPos (number (ts.map Lexeme.pos)) t) = t := by
    have hmoved : ts.map (Lexeme.mapPos (nth (ts.map Lexeme.pos) ∘ number (ts.map Lexeme.pos))) = ts :=
      Lexeme.map_mapPos_eq_self fun x hx => nth_number_of_mem (List.mem_map_of_mem hx)
    have hm := h.mapPos (nth (ts.map Lexeme.pos) ∘ number (ts.map Lexeme.pos))
    rw [hmoved] at hm
    rw [Template.mapPos_mapPos]
    exact hm.unique h (Nat.le_trans (Nat.le_of_eq (Template.nesting_mapPos _ t)) hd) hd
  have hmoved : ts.map (Lexeme.mapPos (nth (us.map Lexeme.pos) ∘ number (ts.map Lexeme.pos))) = us := by
    have hlen : us.length = ts.length := by simpa using congrArg List.length hwords
    refine List.ext_getElem (by rw [List.length_map, hlen]) fun i hi hi' => ?_
    rw [List.length_map] at hi
    have hpos := @nth_number_getElem _ (us.map Lexeme.pos) hnodup i (by rwa [List.length_map])
      (by rwa [List.length_map])
    rw [List.getElem_map, List.getElem_map] at hpos
    have herase : us[i].erase = ts[i].erase := by
      have hget := congrArg (fun l => l[i]?) hwords
      simpa [List.getElem?_eq_getElem, hi, hi'] using hget
    simp only [Lexeme.erase, Lexeme.mk.injEq, and_true] at herase
    rw [List.getElem_map, Lexeme.mapPos, Function.comp_apply, hpos, ← herase.1, ← herase.2]
  have hm := h.mapPos (nth (us.map Lexeme.pos) ∘ number (ts.map Lexeme.pos))
  rw [hmoved] at hm
  refine ⟨_, _, _, increasing_nth hps, increasing_nth hqs, hself.symm, ?_, ?_⟩
  · rw [Template.mapPos_mapPos]
    exact hm
  · rw [Template.nesting_mapPos, Template.nesting_mapPos]
    exact hd

namespace Template

/-- **A source is read if its words are those of a template**, and is read as that template, moved. -/
theorem parse_of_words {s : Bytes} {ts : List Lexeme} {t : Template} (h : SpellsBlocks ts t) (hd : t.nesting ≤ maxDepth)
    (hts : Lexeme.InOrder ts) (hwords : (Lexeme.ofSource s).map Lexeme.erase = ts.map Lexeme.erase) :
    ∃ t₀ f g, Increasing f ∧ Increasing g ∧ t = mapPos f t₀ ∧ parse s = .ok (mapPos g t₀) := by
  obtain ⟨t₀, f, g, hf, hg, ht, hspell⟩ := h.relocate hd hts (Lexeme.inOrder_ofSource s) hwords
  exact ⟨t₀, f, g, hf, hg, ht, parse_eq_ok.2 hspell⟩

/-- The words of a printed template are those of its source without the blanks in front of cases, and spell it too. -/
theorem words_print {s : Bytes} {t : Template} (h : parse s = .ok t) :
    ∃ us, Keeps .elsewhere .elsewhere (Lexeme.ofSource s) us ∧ SpellsBlocks us t ∧
      (Lexeme.ofSource t.print).map Lexeme.erase = us.map Lexeme.erase := by
  obtain ⟨hb, -⟩ := parse_eq_ok.1 h
  obtain ⟨us, hkeeps, hus, hwords⟩ := hb.words (fun _ => Lexeme.spelled_of_mem) (Lexeme.seamless_ofSource s)
  refine ⟨us, hkeeps, hus, ?_⟩
  rw [Lexeme.map_erase_ofSource, Template.print, ← List.append_nil (Block.printList t), hwords, Mode.words_nil,
    List.append_nil]

/-- **Reading a printed template gives it back, moved.**  The template and what is read are moved from one template by
increasing maps, so their nodes stand in the same order. -/
theorem parse_print {s : Bytes} {t : Template} (h : parse s = .ok t) :
    ∃ t₀ f g, Increasing f ∧ Increasing g ∧ t = mapPos f t₀ ∧ parse t.print = .ok (mapPos g t₀) := by
  obtain ⟨-, hd⟩ := parse_eq_ok.1 h
  obtain ⟨us, hkeeps, hus, hwords⟩ := words_print h
  exact parse_of_words hus hd ((Lexeme.inOrder_ofSource s).sublist hkeeps.sublist) hwords

theorem format_of_parse {s : Bytes} {t : Template} (h : parse s = .ok t) : format s = .ok t.print := by
  rw [format, h]

/-- **Formatting loses nothing but positions, and formatting twice is formatting once.** -/
theorem format_round_trip (s : Bytes) :
    (∀ t : Template, parse s = .ok t → ∃ t', parse t.print = .ok t' ∧ t'.erase = t.erase) ∧
      (format s >>= format) = format s := by
  constructor
  · intro t h
    obtain ⟨t₀, f, g, -, -, ht, hp⟩ := parse_print h
    refine ⟨_, hp, ?_⟩
    rw [ht, erase_mapPos, erase_mapPos]
  · cases h : parse s with
    | error e =>
      have hf : format s = .error e := by rw [format, h]
      rw [hf]
      rfl
    | ok t =>
      obtain ⟨t₀, f, g, -, -, ht, hp⟩ := parse_print h
      rw [format_of_parse h]
      show format t.print = _
      rw [format_of_parse hp, print_mapPos, ht, print_mapPos]

/-- Text that ends in a brace, a comment that ends in a number sign, white space inside a switch, and operands with no
room for a space in front of them. -/
def seams : Bytes := utf8 "a\x7b\n\x7b\x7b!(b~\"c\")|f==!d\x7d\x7d\x7b#e##\x7d" ++
  utf8 "\x7b%switch g%\x7d\n \x7b%case h ,i(j)%\x7d\x7b \x7b%end%\x7d"

def formattedSeams : Bytes := utf8 "a\x7b\n\x7b\x7b !(b ~ \"c\") | f == !d \x7d\x7d\x7b#e##\x7d" ++
  utf8 "\x7b% switch g %\x7d\x7b% case h, i(j) %\x7d\x7b \x7b% end %\x7d"

theorem exists_parse_seams : ∃ t, parse seams = .ok t ∧ print t = formattedSeams :=
  exists_of_map_eq_ok (f := print) (by cbv)

theorem format_round_trip_at_seams : format seams = .ok formattedSeams ∧ format formattedSeams = .ok formattedSeams ∧
    ∃ t t', parse seams = .ok t ∧ parse formattedSeams = .ok t' ∧ erase t' = erase t := by
  obtain ⟨t, h, hprint⟩ := exists_parse_seams
  have hformat : format seams = .ok formattedSeams := hprint ▸ format_of_parse h
  obtain ⟨htree, htwice⟩ := format_round_trip seams
  obtain ⟨t', hp, he⟩ := htree t h
  rw [hprint] at hp
  rw [hformat] at htwice
  exact ⟨hformat, htwice, t, t', h, hp, he⟩

/-- **Formatting changes nothing but white space**: the tokens of a formatted source are those of the source, the end of
the source included, without the blank text in front of the cases of switches. -/
theorem format_keeps_words {s : Bytes} {t : Template} (h : parse s = .ok t) :
    (Token.ofSource t.print).map Token.word = withoutBlanks .elsewhere ((Token.ofSource s).map Token.word) := by
  obtain ⟨us, hkeeps, -, hwords⟩ := words_print h
  have hstay := congrArg (List.map Lexeme.erase) (hkeeps [(Token.eof 0).word])
  rw [← withoutBlanks_map_erase, List.map_append, List.map_append, Lexeme.map_erase_ofSource, ← hwords,
    Lexeme.map_erase_ofSource] at hstay
  rw [Token.map_word_ofSource, Token.map_word_ofSource]
  exact hstay.symm

theorem format_keeps_words_at_seams : ∃ t, parse seams = .ok t ∧ t.print = formattedSeams ∧
    (Token.ofSource formattedSeams).map Token.word =
      withoutBlanks .elsewhere ((Token.ofSource seams).map Token.word) := by
  obtain ⟨t, h, hprint⟩ := exists_parse_seams
  exact ⟨t, h, hprint, hprint ▸ format_keeps_words h⟩

end Template
end Stencil
