import Stencil.Command.Excerpt
import Stencil.Proofs.Grammar.Parse
import Stencil.Proofs.Grammar.Resumed
import Stencil.Proofs.Render.Moved
import Stencil.Proofs.Source.Lines
/-!
# Excerpt — every error is shown in its line

The parser and the renderer make no positions of their own: an error of a source stands at the position of one of its
offsets (`Template.pos_mem_of_parse_eq_error`, `Template.pos_mem_of_render_eq_error`).  Positions are exact, and so the
line of every one of them is there to be shown (`LineIndex.position_exact`).
-/
namespace Stencil

namespace LineIndex

def positions (s : Bytes) : List Position := (List.range (s.length + 1)).map (ofSource s).position

theorem mem_positions {s : Bytes} {p : Position} :
    p ∈ positions s ↔ ∃ offset ≤ s.length, p = (ofSource s).position offset := by
  simp only [positions, List.mem_map, List.mem_range, Nat.lt_succ_iff, eq_comm]

theorem position_mem_positions (s : Bytes) (offset : Nat) : (ofSource s).position offset ∈ positions s :=
  mem_positions.2 ⟨min offset s.length, Nat.min_le_right offset s.length, (position_min s offset).symm⟩

/-- Moves all positions but those of a source. -/
def displace (s : Bytes) (p : Position) : Position := if p ∈ positions s then p else ⟨p.line + 1, p.column⟩

theorem displace_eq_self_iff {s : Bytes} {p : Position} : displace s p = p ↔ p ∈ positions s := by
  unfold displace
  split
  · exact iff_of_true rfl ‹_›
  · rename_i hp
    refine iff_of_false (fun h => ?_) hp
    exact absurd (congrArg Position.line h) (Nat.succ_ne_self p.line)

theorem mapPos_displace_lexeme (s : Bytes) (t : Token) :
    ((ofSource s).lexeme t).mapPos (displace s) = (ofSource s).lexeme t :=
  congrArg (Lexeme.mk t.kind t.text) (displace_eq_self_iff.2 (position_mem_positions s t.start))

end LineIndex

namespace Template

open LineIndex (positions displace)

variable {s : Bytes}

/-- What is read of a source has no position but those of the source. -/
theorem parse_displace (s : Bytes) :
    parse s = ((parse s).map (mapPos (displace s))).mapError (ParseError.mapPos (displace s)) := by
  have hresumed := Parser.runTemplate_resumed (displace s) 0 [] ((LineIndex.ofSource s).lexeme (.eof s.length))
    (Lexeme.ofSource s) .start
  have htokens : (Lexeme.ofSource s).map (Lexeme.mapPos (displace s)) = Lexeme.ofSource s := by
    rw [Lexeme.ofSource, List.map_map]
    exact List.map_congr_left fun t _ => LineIndex.mapPos_displace_lexeme s t
  rw [htokens, LineIndex.mapPos_displace_lexeme] at hresumed
  exact hresumed

/-- **A parse error stands at a position of its source.** -/
theorem pos_mem_of_parse_eq_error {e : ParseError} (h : parse s = .error e) : e.pos ∈ positions s := by
  have hmove := parse_displace s
  rw [h] at hmove
  exact LineIndex.displace_eq_self_iff.1 (congrArg ParseError.pos (Except.error.inj hmove)).symm

theorem mapPos_displace {t : Template} (h : parse s = .ok t) : t.mapPos (displace s) = t := by
  have hmove := parse_displace s
  rw [h] at hmove
  exact (Except.ok.inj hmove).symm

/-- **A template fails to render at a position of its source.** -/
theorem pos_mem_of_render_eq_error {t : Template} (h : parse s = .ok t) {σ : Type} {sink : Sink σ} {scope : Scope}
    {st : σ} {cause : RenderError.Cause} {pos : Position}
    (herr : (t.render sink scope st).2 = .error (.template cause pos)) : pos ∈ positions s := by
  have hmove := congrArg Prod.snd (t.render_mapPos (displace s) sink scope st)
  rw [mapPos_displace h, moveResult, herr] at hmove
  injection hmove with hmove
  injection hmove with hcause hpos
  exact LineIndex.displace_eq_self_iff.1 hpos.symm

end Template

def Excerpt.numbered (p : Palette) (number : Nat) (line : Bytes) : String :=
  p.gray (lineNumber number ++ " | ") ++ shownLine line

theorem Excerpt.numbered_mem_lines {s : Bytes} {pos : Position} {line : Bytes} (h : s.lines[pos.line]? = some line)
    (p : Palette) (kind message : String) (path : Path) (hint : List String) :
    numbered p (pos.line + 1) line ∈ lines p kind message path s pos hint := by
  rw [lines, place, h]
  simp [numbered]

namespace LineIndex

/-- **Positions are exact.**  The position of an offset counts the newlines in front of it and the bytes behind the last
of them, offsets past the end counting as the end; and it is the one position whose line is among the lines of the
source, whose column is not beyond the end of that line, and which makes up the offset with the lines in front of it.
The line is in the index, does not start behind the offset, and the column is the rest; it is the line that starts at the
offset, or else the one in front of the place where the offset could be put in, which is never in front of all lines.
Later offsets up to the end have later positions, and those behind it the same.  So the report of an error at a position
of the source shows its line, and all errors that reading and rendering the source can end with are at such positions. -/
theorem position_exact (s : Bytes) :
    (∀ offset, ∃ start, Bytes.LastLineAt (s.take (min offset s.length)) start ∧ (ofSource s).position offset =
      ⟨(s.take (min offset s.length)).count Byte.newline, min offset s.length - start⟩) ∧
    (∀ offset p, (ofSource s).position offset = p ↔ p.Marks s (min offset s.length)) ∧
    (∀ offset, ((ofSource s).position offset).line < (ofSource s).starts.size ∧
      (ofSource s).starts.getD ((ofSource s).position offset).line 0 + ((ofSource s).position offset).column =
        min offset s.length) ∧
    (∀ offset, ∀ i < (ofSource s).starts.size, (ofSource s).starts.getD i 0 = min offset s.length →
      ((ofSource s).position offset).line = i) ∧
    (∀ offset i, IsInsertionPoint (ofSource s).starts (min offset s.length) i →
      ((ofSource s).position offset).line + 1 = i) ∧
    (∀ a b, a < b → b ≤ s.length → Position.lt ((ofSource s).position a) ((ofSource s).position b) = true) ∧
    (∀ offset, s.length ≤ offset → (ofSource s).position offset = (ofSource s).position s.length) ∧
    (∀ offset, ∃ line, s.lines[((ofSource s).position offset).line]? = some line ∧
      ∀ palette kind message path hint, Excerpt.numbered palette (((ofSource s).position offset).line + 1) line ∈
        Excerpt.lines palette kind message path s ((ofSource s).position offset) hint) ∧
    (∀ e, Template.parse s = .error e → ∃ offset ≤ s.length, e.pos = (ofSource s).position offset) ∧
    ∀ t scope cause pos, Template.parse s = .ok t → t.output scope = .error (.template cause pos) →
      ∃ offset ≤ s.length, pos = (ofSource s).position offset := by
  refine ⟨exists_position_eq s, fun _ _ => position_eq_iff,
    fun offset => ⟨(starts_le_iff s offset).1, starts_add_column s offset⟩, fun _ _ => line_eq_of_start s,
    fun _ _ => line_add_one_of_insertionPoint s, fun _ _ => position_lt s, fun offset h => ?_, fun offset => ?_,
    fun e h => mem_positions.1 (Template.pos_mem_of_parse_eq_error h), fun t scope cause pos h herr => ?_⟩
  · rw [← position_min, Nat.min_eq_right h]
  · obtain ⟨line, hline, -⟩ := position_eq_iff.1 (rfl : (ofSource s).position offset = _)
    exact ⟨line, hline, fun palette kind message path hint =>
      Excerpt.numbered_mem_lines hline palette kind message path hint⟩
  · rw [Template.output] at herr
    split at herr
    · cases herr
    · rename_i hrender
      cases herr
      exact mem_positions.1 (Template.pos_mem_of_render_eq_error h (congrArg Prod.snd hrender))

/-- A source with an empty line in front of a tag that cannot be read. -/
def unreadable : Bytes := utf8 "a\n\n\x7b\x7b b c \x7d\x7d\n"

/-- A source that can be read, with a name that stands for nothing in the scope. -/
def unboundName : Bytes := utf8 "x\n\x7b\x7b y \x7d\x7d"

theorem position_exact_at_unreadable :
    (ofSource unreadable).position 2 = ⟨1, 0⟩ ∧
    IsInsertionPoint (ofSource unreadable).starts (min 9 unreadable.length) 3 ∧
    ((ofSource unreadable).position 9).line + 1 = 3 ∧
    Position.lt ((ofSource unreadable).position 2) ((ofSource unreadable).position 3) = true ∧
    (ofSource unreadable).position 99 = (ofSource unreadable).position unreadable.length ∧
    (Template.parse unreadable = .error ⟨.expected (.token .rDoubleBrace) .identifier, ⟨2, 5⟩⟩ ∧
      ∃ offset ≤ unreadable.length, ⟨2, 5⟩ = (ofSource unreadable).position offset) ∧
    ∃ t, Template.parse unboundName = .ok t ∧
      t.output ⟨.standard, .empty, .empty⟩ = .error (.template (.unboundName (utf8 "y")) ⟨1, 3⟩) ∧
        ∃ offset ≤ unboundName.length, ⟨1, 3⟩ = (ofSource unboundName).position offset := by
  have hpoint : IsInsertionPoint (ofSource unreadable).starts (min 9 unreadable.length) 3 := by
    have hstarts : (ofSource unreadable).starts = #[0, 2, 3, 13] := by cbv
    have hlength : unreadable.length = 13 := by cbv
    rw [hstarts, hlength]
    refine ⟨by decide, by decide, fun j hle hlt => ?_⟩
    obtain rfl : j = 3 := Nat.le_antisymm (Nat.le_of_lt_succ hlt) hle
    decide
  obtain ⟨-, hmarks, -, -, hmiss, hlt, hpast, -, hparse, -⟩ := position_exact unreadable
  refine ⟨(hmarks 2 _).2 ⟨[], by cbv, Nat.zero_le 0, by cbv⟩, hpoint, hmiss 9 3 hpoint,
    hlt 2 3 (by decide) (by decide_cbv), hpast 99 (by decide_cbv), ?_, ?_⟩
  · have h : Template.parse unreadable = .error ⟨.expected (.token .rDoubleBrace) .identifier, ⟨2, 5⟩⟩ := by cbv
    exact ⟨h, hparse _ h⟩
  · obtain ⟨t, h, herr⟩ := Template.exists_of_map_eq_ok (s := unboundName)
      (f := (Template.output · ⟨.standard, .empty, .empty⟩))
      (a := .error (.template (.unboundName (utf8 "y")) ⟨1, 3⟩)) (by cbv)
    obtain ⟨-, -, -, -, -, -, -, -, -, hrender⟩ := position_exact unboundName
    exact ⟨t, h, herr, hrender t _ _ _ h herr⟩

end LineIndex
end Stencil
