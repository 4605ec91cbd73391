import Stencil.Proofs.Formatting
import Stencil.Proofs.Grammar.Comments
import Stencil.Proofs.Render.Pieces
/-!
# Comments — a source without its comments means the same

A source that is read is read without its comments too, as the template without its comments, moved
(`Template.parse_withoutComments`).  Comments write nothing and say nothing about types, and texts that are joined are
written as the same bytes in one piece.  So the template renders and is analyzed as before
(`Template.comments_are_inert`).
-/
namespace Stencil

/-! ## Rendering -/

namespace Sink

/-- The sink that takes everything and keeps it as one byte string. -/
def stream : Sink Bytes := ⟨fun st s => (st ++ s, none)⟩

theorem stream_put (st b : Bytes) : stream.put st b = (st ++ b, .ok ()) := rfl

theorem feed_stream (r : Except RenderError Unit) : ∀ (ps : List Bytes) (st : Bytes),
    stream.feed st r ps = (st ++ ps.flatten, r)
  | [], st => by rw [feed, List.flatten_nil, List.append_nil]
  | p :: ps, st => by
    rw [feed, stream_put, List.flatten_cons, ← List.append_assoc]
    exact feed_stream r ps (st ++ p)

end Sink

theorem Template.render_stream (t : Template) (s : Scope) : t.render Sink.stream s [] =
    ((t.render Sink.memory s .nothing).1.bytes, (t.render Sink.memory s .nothing).2) := by
  rw [render_eq_feed, Sink.feed_stream, flatten_pieces]
  rfl

section Output

variable (s : Scope)

theorem Block.writeList_joinText (c : Bytes) (p : Position) (bs : List Block) (st : Bytes) :
    Block.writeList Sink.stream s (Block.joinText c p bs) st = Block.writeList Sink.stream s bs (st ++ c) := by
  unfold Block.joinText
  split
  · split
    · simp only [Block.writeList, Block.write, Sink.stream_put, List.append_assoc]
    · rfl
  · rfl

mutual

theorem Block.write_uncomment (bs : List Block) : ∀ (b : Block) (st : Bytes),
    Block.writeList Sink.stream s (b.uncomment bs) st = Block.writeList Sink.stream s (b :: bs) st
  | .text c p, st => Block.writeList_joinText s c p bs st
  | .comment _ _, _ => rfl
  | .render _, _ => rfl
  | .cond branches none p, st => by
    rw [Block.uncomment, Block.writeList, Block.write, writeBranches_uncomment branches, Block.writeList, Block.write]
  | .cond branches (some body) p, st => by
    rw [Block.uncomment, Block.writeList, Block.write, writeBranches_uncomment branches, writeList_uncomment body,
      Block.writeList, Block.write]
  | .switch _ _ _, _ => rfl

/-- **Blocks write the same bytes without their comments**, and fail alike. -/
theorem Block.writeList_uncomment : ∀ (bs : List Block) (st : Bytes),
    Block.writeList Sink.stream s (Block.uncommentList bs) st = Block.writeList Sink.stream s bs st
  | [], _ => rfl
  | b :: bs, st => by
    rw [Block.uncommentList, write_uncomment _ b, Block.writeList, Block.writeList]
    simp only [writeList_uncomment bs]

theorem Block.writeBranches_uncomment : ∀ (bs : List (Expr × List Block)) (st : Bytes),
    Block.writeBranches Sink.stream s (Block.uncommentBranches bs) st = Block.writeBranches Sink.stream s bs st
  | [], _ => rfl
  | (c, body) :: bs, st => by
    rw [Block.uncommentBranches, Block.writeBranches, writeList_uncomment body, writeBranches_uncomment bs,
      Block.writeBranches]

end

end Output

/-! ## Types -/

section Types

variable (registry : Registry)

theorem Block.findingsList_joinText (c : Bytes) (p : Position) (bs : List Block) :
    Block.findingsList registry (Block.joinText c p bs) = Block.findingsList registry bs := by
  unfold Block.joinText
  split
  · split <;> rfl
  · rfl

mutual

theorem Block.findings_uncomment (bs : List Block) : ∀ b : Block,
    Block.findingsList registry (b.uncomment bs) = b.findings registry ++ Block.findingsList registry bs
  | .text c p => Block.findingsList_joinText registry c p bs
  | .comment _ _ => rfl
  | .render _ => rfl
  | .cond branches none p => by
    rw [Block.uncomment, Block.findingsList, Block.findings, findingsBranches_uncomment branches, Block.findings]
  | .cond branches (some body) p => by
    rw [Block.uncomment, Block.findingsList, Block.findings, findingsBranches_uncomment branches,
      findingsList_uncomment body, Block.findings]
  | .switch v cases p => by
    rw [Block.uncomment, Block.findingsList, Block.findings, findingsCases_uncomment cases, Block.findings]

/-- **Blocks say the same about types without their comments.** -/
theorem Block.findingsList_uncomment : ∀ bs : List Block,
    Block.findingsList registry (Block.uncommentList bs) = Block.findingsList registry bs
  | [] => rfl
  | b :: bs => by
    rw [Block.uncommentList, findings_uncomment _ b, findingsList_uncomment bs, Block.findingsList]

theorem Block.findingsBranches_uncomment : ∀ bs : List (Expr × List Block),
    Block.findingsBranches registry (Block.uncommentBranches bs) = Block.findingsBranches registry bs
  | [] => rfl
  | (c, body) :: bs => by
    rw [Block.uncommentBranches, Block.findingsBranches, findingsList_uncomment body, findingsBranches_uncomment bs,
      Block.findingsBranches]

theorem Block.findingsCases_uncomment : ∀ cs : List (List Expr × List Block),
    Block.findingsCases registry (Block.uncommentCases cs) = Block.findingsCases registry cs
  | [] => rfl
  | (ps, body) :: cs => by
    rw [Block.uncommentCases, Block.findingsCases, findingsList_uncomment body, findingsCases_uncomment cs,
      Block.findingsCases]

end

end Types

namespace Template

open Position (Increasing)

/-- **A source without its comments is read as the template without its comments**, moved. -/
theorem parse_withoutComments {s : Bytes} {t : Template} (h : parse s = .ok t) :
    ∃ t₀ f g, Increasing f ∧ Increasing g ∧ t.uncomment = mapPos f t₀ ∧
      parse s.withoutComments = .ok (mapPos g t₀) := by
  obtain ⟨hspells, hd⟩ := parse_eq_ok.1 h
  have hkinds : ∀ x ∈ Lexeme.ofSource s, x.kind ≠ .error := fun x hx =>
    (Grammar.kind_ne_of_proper hspells.proper hx).2
  refine parse_of_words hspells.uncomment ?_ (Lexeme.inOrder_uncomment (Lexeme.inOrder_ofSource s))
    (Lexeme.map_erase_withoutComments hkinds)
  exact Nat.le_trans (Nat.le_of_eq (Block.nestingList_uncommentList t)) hd

/-- **Comments are inert.**  A source that is read is read without its comments too.  In every scope it renders then to
the same bytes, up to the same end or the same error but for its position.  It is analyzed as before, by itself or among
other templates: the types are the same, and so are the kinds of the diagnostics, each as often as before. -/
theorem comments_are_inert {s : Bytes} {t : Template} (h : parse s = .ok t) :
    ∃ t' : Template, parse s.withoutComments = .ok t' ∧
      (∀ scope : Scope,
        (t'.render Sink.memory scope .nothing).1.bytes = (t.render Sink.memory scope .nothing).1.bytes ∧
          (t'.render Sink.memory scope .nothing).2.mapError RenderError.erase =
            (t.render Sink.memory scope .nothing).2.mapError RenderError.erase) ∧
      ∀ (registry : Registry) (path : Path) (before after : List (Path × Template)),
        (analyze registry (before ++ (path, t') :: after)).1 = (analyze registry (before ++ (path, t) :: after)).1 ∧
          ((analyze registry (before ++ (path, t') :: after)).2.map Diagnostic.kind).Perm
            ((analyze registry (before ++ (path, t) :: after)).2.map Diagnostic.kind) := by
  obtain ⟨t₀, f, g, -, -, ht, hp⟩ := parse_withoutComments h
  refine ⟨mapPos g t₀, hp, fun scope => ?_, fun registry => ?_⟩
  · -- joined texts are fewer pieces, so the runs agree only where the bytes are kept as one string
    have hstream : t.uncomment.render Sink.stream scope [] = t.render Sink.stream scope [] :=
      Block.writeList_uncomment scope t []
    rw [render_stream, render_stream, ht, render_mapPos, Prod.mk.injEq] at hstream
    rw [render_mapPos, ← hstream.2, erase_moveResult, erase_moveResult]
    exact ⟨hstream.1, rfl⟩
  · have herase : (mapPos g t₀).erase = t.uncomment.erase := by rw [ht, erase_mapPos, erase_mapPos]
    have hfindings : t.uncomment.findings registry = t.findings registry := Block.findingsList_uncomment registry t
    have hsame : (mapPos g t₀).erase.findings registry = t.erase.findings registry := by
      rw [herase, erase, findings_mapPos, hfindings, erase, findings_mapPos]
    exact Analysis.analyze_congr registry hsame

/-- Comments inside of a line, next to each other in front of a newline, and in the body of a branch. -/
def remarks : Bytes :=
  utf8 "a\x7b#b#\x7dc\x7b##\x7d\x7b#d#\x7d\n\x7b%if e%\x7df\x7b#g#\x7dh\x7b\x7be\x7d\x7d\x7b%end%\x7d"

-- the branch is taken, and `e` cannot be written in it
def remarked : Scope := ⟨.standard, .ofList [(utf8 "e", .bool true)], .empty⟩

/-- The texts on both sides of the first comment and of the last come together; the newline stays a text of its own. -/
theorem comments_are_inert_at_remarks :
    remarks.withoutComments = utf8 "ac\n\x7b%if e%\x7dfh\x7b\x7be\x7d\x7d\x7b%end%\x7d" ∧ ∃ t t' : Template,
      parse remarks = .ok t ∧ parse remarks.withoutComments = .ok t' ∧
        (t.render Sink.memory remarked .nothing).1.bytes = utf8 "ac\nfh" ∧
        (t.render Sink.memory remarked .nothing).2 = .error (.template (.mismatch (.rendered .bool)) ⟨1, 17⟩) ∧
        (t'.render Sink.memory remarked .nothing).1.bytes = utf8 "ac\nfh" ∧
        (t'.render Sink.memory remarked .nothing).2.mapError RenderError.erase =
          .error (.template (.mismatch (.rendered .bool)) .zero) ∧
        (analyze .standard [([], t')]).1 = (analyze .standard [([], t)]).1 := by
  refine ⟨by decide_cbv, ?_⟩
  obtain ⟨t, h, hrun⟩ := exists_of_map_eq_ok (s := remarks)
    (f := fun t => ((t.render Sink.memory remarked .nothing).1.bytes, (t.render Sink.memory remarked .nothing).2))
    (a := (utf8 "ac\nfh", .error (.template (.mismatch (.rendered .bool)) ⟨1, 17⟩))) (by cbv)
  obtain ⟨hwritten, hresult⟩ := Prod.mk.inj hrun
  obtain ⟨t', hp, hr, ha⟩ := comments_are_inert h
  obtain ⟨hbytes, hend⟩ := hr remarked
  rw [hwritten] at hbytes
  rw [hresult] at hend
  exact ⟨t, t', h, hp, hwritten, hresult, hbytes, hend, (ha .standard [] [] []).1⟩

end Template
end Stencil
