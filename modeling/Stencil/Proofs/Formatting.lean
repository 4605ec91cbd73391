import Stencil.Proofs.Analysis.Moved
import Stencil.Proofs.Render.Moved
/-!
# Formatting — a formatted template means what its source means

What is read back from a printed template is the template moved by increasing maps (`Template.parse_print`).  Rendering
and analysis are blind to positions, and diagnostics keep their order, so nothing else changes.
-/
namespace Stencil

def Diagnostic.erase (d : Diagnostic) : Diagnostic := d.mapPos fun _ => .zero

def RenderError.erase (e : RenderError) : RenderError := e.mapPos fun _ => .zero

theorem RenderError.message_eq_of_erase {d e : RenderError} (h : d.erase = e.erase) : d.message = e.message := by
  have hm := congrArg RenderError.message h
  rwa [erase, erase, message_mapPos, message_mapPos] at hm

variable (f : Position → Position)

theorem erase_moveResult {σ : Type} (r : σ × Except RenderError Unit) :
    (moveResult f r).2.mapError RenderError.erase = r.2.mapError RenderError.erase := by
  obtain ⟨st, err | ok⟩ := r
  · exact congrArg Except.error (err.mapPos_mapPos f _)
  · rfl

theorem map_erase_mapPos (ds : List Diagnostic) :
    (ds.map (Diagnostic.mapPos f)).map Diagnostic.erase = ds.map Diagnostic.erase := by
  rw [List.map_map]
  rfl

namespace Template

/-- **Formatting preserves meaning.**  A source and its formatted source render alike, in every scope and into every
sink, up to the position of an error; and they are analyzed alike, up to the positions of the diagnostics, which keep
their order. -/
theorem format_preserves_meaning {s : Bytes} {t : Template} (h : parse s = .ok t) :
    ∃ g : Template, parse t.print = .ok g ∧
      (∀ {σ : Type} (sink : Sink σ) (scope : Scope) (st : σ),
        (g.render sink scope st).1 = (t.render sink scope st).1 ∧
          (g.render sink scope st).2.mapError RenderError.erase =
            (t.render sink scope st).2.mapError RenderError.erase) ∧
      ∀ (registry : Registry) (path : Path),
        (analyze registry [(path, g)]).1 = (analyze registry [(path, t)]).1 ∧
          (analyze registry [(path, g)]).2.map Diagnostic.erase =
            (analyze registry [(path, t)]).2.map Diagnostic.erase := by
  obtain ⟨t₀, a, b, ha, hb, ht, hp⟩ := parse_print h
  refine ⟨mapPos b t₀, hp, fun sink scope st => ?_, fun registry path => ?_⟩
  · rw [ht, render_mapPos, render_mapPos, erase_moveResult, erase_moveResult]
    exact ⟨rfl, rfl⟩
  · have hga := analyze_mapPos ha registry [(path, t₀)]
    have hgb := analyze_mapPos hb registry [(path, t₀)]
    rw [List.map_cons, List.map_nil] at hga hgb
    rw [ht, hga, hgb, map_erase_mapPos, map_erase_mapPos]
    exact ⟨rfl, rfl⟩

/-- A name wanted at two types, a string for a condition, and a truth value for an argument. -/
def conflict : Bytes := utf8 "\x7b\x7ba\x7d\x7d\x7b%if a~b%\x7d\x7b\x7b!a|upper\x7d\x7d\x7b%end%\x7d"

theorem format_preserves_meaning_at_conflict : ∃ t g : Template, parse conflict = .ok t ∧
    t.print = utf8 "\x7b\x7b a \x7d\x7d\x7b% if a ~ b %\x7d\x7b\x7b !a | upper \x7d\x7d\x7b% end %\x7d" ∧
    parse t.print = .ok g ∧
    (g.render Sink.memory ⟨.standard, .ofList [(utf8 "a", .string (utf8 "x"))], .empty⟩ .nothing).1.bytes = utf8 "x" ∧
    (analyze .standard [([], g)]).2.map Diagnostic.erase = [⟨[], .zero, .wrongUsage .bool .string⟩,
      ⟨[], .zero, .wrongUsage .string .bool⟩, ⟨[], .zero, .wrongUsage .string .bool⟩] := by
  have hrun : (parse conflict).map (fun t : Template => (t.print,
      (t.render Sink.memory ⟨.standard, .ofList [(utf8 "a", .string (utf8 "x"))], .empty⟩ .nothing).1.bytes,
      (analyze .standard [([], t)]).2.map Diagnostic.erase)) = .ok
      (utf8 "\x7b\x7b a \x7d\x7d\x7b% if a ~ b %\x7d\x7b\x7b !a | upper \x7d\x7d\x7b% end %\x7d", utf8 "x",
        [⟨[], .zero, .wrongUsage .bool .string⟩, ⟨[], .zero, .wrongUsage .string .bool⟩,
          ⟨[], .zero, .wrongUsage .string .bool⟩]) := by cbv
  obtain ⟨t, h, ht⟩ := exists_of_map_eq_ok hrun
  simp only [Prod.mk.injEq] at ht
  obtain ⟨hprint, hbytes, hdiagnostics⟩ := ht
  obtain ⟨g, hp, hr, ha⟩ := format_preserves_meaning h
  exact ⟨t, g, h, hprint, hp, (congrArg Written.bytes (hr _ _ _).1).trans hbytes, (ha _ _).2.trans hdiagnostics⟩

end Template
end Stencil
