import Stencil.Proofs.Analysis.Order
import Stencil.Proofs.Formatting
import Stencil.Proofs.Grammar.Resumed
import Stencil.Proofs.Render.Pieces
import Stencil.Proofs.Source.Concat
/-!
# Composition — templates one behind the other

Behind a source that is a template and ends with a closer, another source means what it means by itself.  It is read as
the same template, at positions that are counted on, or fails with the same error (`Template.parse_append`).  Both are
rendered one after the other (`Template.render_append`), and names get the types that they get from two templates
(`Template.types_append`).
-/
namespace Stencil

open Position (zero)

/-! ## Reading -/

namespace Template

/-- **A template is read on behind a closer as from the start**, at positions counted on from there. -/
theorem parse_append {a : Bytes} {ta : Template} (ha : parse a = .ok ta) (hclosed : a.EndsClosed) (b : Bytes) :
    parse (a ++ b) = ((parse b).map fun t => ta ++ t.mapPos (zero.through a).behind).mapError
      (ParseError.mapPos (zero.through a).behind) := by
  obtain ⟨hspells, hdepth⟩ := parse_eq_ok.1 ha
  have hproper : ∀ t ∈ Lexeme.ofSource a, t.kind ≠ .error := fun t ht =>
    (Grammar.kind_ne_of_proper hspells.proper ht).2
  have hrun : Progress.start.after? 0 (Lexeme.ofSource a) =
      some (Progress.start.resumed (zero.through a).behind ta.reverse) := by
    have hread := hspells.read 0 [] [] [] (by rw [List.length_nil, Nat.zero_add]; exact hdepth)
    rw [List.append_nil, List.append_nil, Progress.after?_nil] at hread
    exact hread
  have hresumed := Parser.runTemplate_resumed (zero.through a).behind 0 ta.reverse
    ((LineIndex.ofSource b).lexeme (.eof b.length)) (Lexeme.ofSource b) .start
  rw [List.reverse_reverse] at hresumed
  show (Parser.runTemplate ((LineIndex.ofSource (a ++ b)).lexeme (.eof (a ++ b).length)) 0 .start
    (Lexeme.ofSource (a ++ b))).1 = _
  rw [Lexeme.ofSource_append hclosed hproper, Lexeme.eof_append, Parser.runTemplate_append hrun, hresumed]
  rfl

theorem erase_append (t u : Template) : erase (t ++ u) = t.erase ++ u.erase := Block.mapPosList_append _ t u

end Template

/-! ## Rendering -/

theorem Block.writeList_append {σ : Type} (sink : Sink σ) (s : Scope) (bs cs : List Block) (st : σ) :
    Block.writeList sink s (bs ++ cs) st =
      match Block.writeList sink s bs st with
      | (st, .ok ()) => Block.writeList sink s cs st
      | (st, .error err) => (st, .error err) := by
  induction bs generalizing st with
  | nil => rfl
  | cons b bs ih =>
    rw [List.cons_append, Block.writeList, Block.writeList]
    rcases b.write sink s st with ⟨st, err | ⟨⟩⟩
    · rfl
    · exact ih st

namespace Template

theorem render_memory (t : Template) (s : Scope) (w : Written) :
    (t.render Sink.memory s w).1.bytes = w.bytes ++ (t.render Sink.memory s .nothing).1.bytes ∧
      (t.render Sink.memory s w).2 = (t.render Sink.memory s .nothing).2 := by
  rw [render_eq_feed, Sink.feed_memory, ← flatten_pieces]
  refine ⟨?_, rfl⟩
  rw [Written.bytes, List.reverse_append, List.reverse_reverse, List.flatten_append, Written.bytes]

/-- **Two templates are rendered one after the other**, the second if the first comes to a good end. -/
theorem render_append (t u : Template) (s : Scope) :
    (render (t ++ u) Sink.memory s .nothing).1.bytes = (t.render Sink.memory s .nothing).1.bytes ++
        (match (t.render Sink.memory s .nothing).2 with
        | .ok () => (u.render Sink.memory s .nothing).1.bytes
        | .error _ => []) ∧
      (render (t ++ u) Sink.memory s .nothing).2 =
        match (t.render Sink.memory s .nothing).2 with
        | .ok () => (u.render Sink.memory s .nothing).2
        | .error err => .error err := by
  have happend := Block.writeList_append Sink.memory s t u .nothing
  rw [show render (t ++ u) Sink.memory s .nothing = _ from happend,
    show Block.writeList Sink.memory s t .nothing = t.render Sink.memory s .nothing from rfl]
  rcases t.render Sink.memory s .nothing with ⟨w, err | ⟨⟩⟩
  · exact ⟨(List.append_nil _).symm, rfl⟩
  · exact u.render_memory s w

end Template

/-! ## Types -/

def Finding.demand? : Finding → Option (Bytes × Ty)
  | .usage name ty _ => some (name, ty)
  | .problem _ _ => none

theorem Analysis.map_demand_usagesOf (path : Path) : ∀ fs : List Finding,
    (usagesOf path fs).map Usage.demand = fs.filterMap Finding.demand?
  | [] => rfl
  | .usage _ _ _ :: fs => congrArg (List.cons _) (map_demand_usagesOf path fs)
  | .problem _ _ :: fs => map_demand_usagesOf path fs

theorem Finding.filterMap_demand?_mapPos (f : Position → Position) (fs : List Finding) :
    (fs.map (Finding.mapPos f)).filterMap Finding.demand? = fs.filterMap Finding.demand? := by
  rw [List.filterMap_map]
  refine congrArg (List.filterMap · fs) (funext fun x => ?_)
  cases x <;> rfl

theorem Block.findingsList_append (registry : Registry) (bs cs : List Block) :
    Block.findingsList registry (bs ++ cs) = Block.findingsList registry bs ++ Block.findingsList registry cs := by
  induction bs with
  | nil => rfl
  | cons b bs ih => rw [List.cons_append, Block.findingsList, ih, Block.findingsList, List.append_assoc]

/-- **Names get the same types from two templates and from one that consists of both**, moved or not. -/
theorem Template.types_append (f : Position → Position) (registry : Registry) (t u : Template) (p q r : Path) :
    (analyze registry [(p, t ++ u.mapPos f)]).1 = (analyze registry [(q, t), (r, u)]).1 := by
  rw [Analysis.analyze_eq, Analysis.analyze_eq]
  refine Analysis.types_congr (List.Perm.of_eq ?_)
  simp only [Analysis.ofTemplates, List.flatMap_cons, List.flatMap_nil, List.append_nil, List.map_append,
    Analysis.map_demand_usagesOf]
  rw [Template.findings, Block.findingsList_append, List.filterMap_append,
    show Block.findingsList registry (u.mapPos f) = _ from u.findings_mapPos f registry,
    Finding.filterMap_demand?_mapPos]
  rfl

namespace Template

/-- **Templates compose by concatenation.**  Behind a source that is a template, and is empty or ends with a closer,
another source is a template exactly if it is one by itself, and fails with the same message otherwise.  The blocks of
both are one template, up to positions; rendering it writes what rendering the first writes and then, if that comes to a
good end, what rendering the second writes; and its names have the types that they have in the two together. -/
theorem concat_composes {a : Bytes} {ta : Template} (ha : parse a = .ok ta) (hclosed : a.EndsClosed) (b : Bytes) :
    ((∃ t, parse (a ++ b) = .ok t) ↔ ∃ tb, parse b = .ok tb) ∧
    (∀ e, parse b = .error e → ∃ e', parse (a ++ b) = .error e' ∧ e'.message = e.message ∧
      e'.pos = (zero.through a).behind e.pos) ∧
    ∀ tb, parse b = .ok tb → ∃ t, parse (a ++ b) = .ok t ∧ t.erase = ta.erase ++ tb.erase ∧
      (∀ s : Scope, (t.render Sink.memory s .nothing).1.bytes = (ta.render Sink.memory s .nothing).1.bytes ++
          (match (ta.render Sink.memory s .nothing).2 with
          | .ok () => (tb.render Sink.memory s .nothing).1.bytes
          | .error _ => []) ∧
        (t.render Sink.memory s .nothing).2.mapError RenderError.erase =
          (match (ta.render Sink.memory s .nothing).2 with
          | .ok () => (tb.render Sink.memory s .nothing).2
          | .error err => .error err).mapError RenderError.erase) ∧
      ∀ (registry : Registry) (p q r : Path),
        (analyze registry [(p, t)]).1 = (analyze registry [(q, ta), (r, tb)]).1 := by
  have hparse := parse_append ha hclosed b
  refine ⟨?_, fun e he => ?_, fun tb hb => ?_⟩
  · rw [hparse]
    cases parse b with
    | error e => exact ⟨fun ⟨_, h⟩ => (nomatch h), fun ⟨_, h⟩ => (nomatch h)⟩
    | ok tb => exact ⟨fun _ => ⟨tb, rfl⟩, fun _ => ⟨_, rfl⟩⟩
  · rw [he] at hparse
    exact ⟨_, hparse, rfl, rfl⟩
  · rw [hb] at hparse
    refine ⟨_, hparse, ?_, fun s => ?_, fun registry p q r => types_append _ registry ta tb p q r⟩
    · rw [erase_append, erase_mapPos]
    · obtain ⟨hbytes, hend⟩ := render_append ta (tb.mapPos (zero.through a).behind) s
      have hmoved := tb.render_mapPos (zero.through a).behind Sink.memory s .nothing
      rw [hbytes, hend, hmoved]
      refine ⟨rfl, ?_⟩
      rcases (ta.render Sink.memory s .nothing).2 with err | ⟨⟩
      · rfl
      · exact erase_moveResult _ _

/-- A source that ends with a closer. -/
def salutation : Bytes := utf8 "Dear\n\x7b\x7b name \x7d\x7d"

def wishes : Bytes := utf8 ",\n\x7b% if glad %\x7d\x7b\x7b name \x7d\x7d\x7b% end %\x7d"

def unfinished : Bytes := utf8 "\n \x7b\x7b"

def greeting : Scope :=
  ⟨.standard, .ofList [(utf8 "name", .string (utf8 "Ada")), (utf8 "glad", .bool true)], .empty⟩

theorem concat_composes_at_salutation : salutation.EndsClosed ∧
    (∃ ta tb t, parse salutation = .ok ta ∧ parse wishes = .ok tb ∧ parse (salutation ++ wishes) = .ok t ∧
      t.erase = ta.erase ++ tb.erase ∧ (t.render Sink.memory greeting .nothing).1.bytes = utf8 "Dear\nAda,\nAda" ∧
      (analyze .standard [([], t)]).1 = (analyze .standard [([], ta), ([], tb)]).1) ∧
    ∃ e e', parse unfinished = .error e ∧ e.pos = ⟨1, 3⟩ ∧ parse (salutation ++ unfinished) = .error e' ∧
      e'.pos = ⟨2, 3⟩ ∧ e'.message = e.message := by
  have hclosed : salutation.EndsClosed :=
    .inr ⟨⟨.rDoubleBrace, 13, utf8 "\x7d\x7d"⟩, by decide_cbv, by decide, by decide⟩
  obtain ⟨ta, ha, hra⟩ := exists_of_map_eq_ok (s := salutation)
    (f := fun t => ((t.render Sink.memory greeting .nothing).1.bytes, (t.render Sink.memory greeting .nothing).2))
    (a := (utf8 "Dear\nAda", .ok ())) (by cbv)
  obtain ⟨tb, hb, hrb⟩ := exists_of_map_eq_ok (s := wishes)
    (f := fun t => (t.render Sink.memory greeting .nothing).1.bytes) (a := utf8 ",\nAda") (by cbv)
  have he : parse unfinished = .error ⟨.expected .expression .eof, ⟨1, 3⟩⟩ := by cbv
  refine ⟨hclosed, ?_, ?_⟩
  · obtain ⟨t, ht, herase, hrender, htypes⟩ := (concat_composes ha hclosed wishes).2.2 tb hb
    obtain ⟨hbytes, hend⟩ := Prod.mk.inj hra
    have htogether := (hrender greeting).1
    rw [hbytes, hend, hrb] at htogether
    exact ⟨ta, tb, t, ha, hb, ht, herase, htogether, htypes _ _ _ _⟩
  · obtain ⟨e', he', hmessage, hpos⟩ := (concat_composes ha hclosed unfinished).2.1 _ he
    have hmoved : (zero.through salutation).behind ⟨1, 3⟩ = ⟨2, 3⟩ := by cbv
    exact ⟨_, e', he, rfl, he', hpos.trans hmoved, hmessage⟩

end Template
end Stencil
