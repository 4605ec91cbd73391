import Stencil.Render
/-!
# Pieces — rendering is one list of writes

What a template writes does not depend on the sink it is written into: there is one list of byte strings, and one end,
that every sink is fed with until it takes no more (`Template.render_eq_feed`).  The sink that takes everything shows
both, so what any other sink is left with can be told from it.
-/
namespace Stencil

namespace Sink

variable {σ : Type} (sink : Sink σ)

/-- Puts byte strings into a sink one after the other; after the last comes the end `r`, after a failing one nothing. -/
def feed (st : σ) (r : Except RenderError Unit) : List Bytes → σ × Except RenderError Unit
  | [] => (st, r)
  | p :: ps =>
    match sink.put st p with
    | (st, .ok ()) => feed st r ps
    | (st, .error err) => (st, .error err)

theorem feed_append (r : Except RenderError Unit) (ps : List Bytes) : ∀ (qs : List Bytes) (st : σ),
    (match sink.feed st (.ok ()) qs with
      | (st, .ok ()) => sink.feed st r ps
      | (st, .error err) => (st, .error err)) = sink.feed st r (qs ++ ps)
  | [], _ => rfl
  | q :: qs, st => by
    rw [List.cons_append, feed, feed]
    rcases sink.put st q with ⟨st, err | ⟨⟩⟩
    · rfl
    · exact feed_append r ps qs st

theorem feed_error (err : RenderError) (next : σ → σ × Except RenderError Unit) : ∀ (ps : List Bytes) (st : σ),
    (match sink.feed st (.error err) ps with
      | (st, .ok ()) => next st
      | (st, .error err) => (st, .error err)) = sink.feed st (.error err) ps
  | [], _ => rfl
  | p :: ps, st => by
    rw [feed]
    rcases sink.put st p with ⟨st, err | ⟨⟩⟩
    · rfl
    · exact feed_error err next ps st

theorem feed_singleton (st : σ) (p : Bytes) : sink.feed st (.ok ()) [p] = sink.put st p := by
  rw [feed]
  rcases sink.put st p with ⟨st, err | ⟨⟩⟩ <;> rfl

end Sink

/-! ## Blocks -/

/-- A way to write that feeds every sink with the same pieces and comes to the same end. -/
def IsFeeding (write : {σ : Type} → Sink σ → σ → σ × Except RenderError Unit) : Prop :=
  ∃ (ps : List Bytes) (r : Except RenderError Unit), ∀ {σ : Type} (sink : Sink σ) (st : σ),
    write sink st = sink.feed st r ps

theorem isFeeding_done (r : Except RenderError Unit) : IsFeeding fun _ st => (st, r) := ⟨[], r, fun _ _ => rfl⟩

theorem isFeeding_put (b : Bytes) : IsFeeding fun sink st => sink.put st b :=
  ⟨[b], .ok (), fun sink st => (sink.feed_singleton st b).symm⟩

mutual

theorem Block.isFeeding_write (s : Scope) : ∀ b : Block, IsFeeding fun sink st => b.write sink s st
  | .text c _ => isFeeding_put c
  | .comment _ _ => isFeeding_done _
  | .render e => by
    simp only [Block.write]
    cases e.output s with
    | ok b => exact isFeeding_put b
    | error err => exact isFeeding_done _
  | .cond branches none _ => by
    simp only [Block.write]
    rcases Block.isFeeding_writeBranches s branches with h | ⟨ps, r, h⟩
    · simp only [h]
      exact isFeeding_done _
    · exact ⟨ps, r, fun sink st => by simp only [h]⟩
  | .cond branches (some body) _ => by
    simp only [Block.write]
    rcases Block.isFeeding_writeBranches s branches with h | ⟨ps, r, h⟩
    · simp only [h]
      exact Block.isFeeding_writeList s body
    · exact ⟨ps, r, fun sink st => by simp only [h]⟩
  | .switch _ _ _ => isFeeding_done _

theorem Block.isFeeding_writeList (s : Scope) : ∀ bs : List Block, IsFeeding fun sink st => Block.writeList sink s bs st
  | [] => isFeeding_done _
  | b :: bs => by
    obtain ⟨ps, r, hb⟩ := Block.isFeeding_write s b
    obtain ⟨qs, r', hbs⟩ := Block.isFeeding_writeList s bs
    simp only [Block.writeList, hb, hbs]
    cases r with
    | ok => exact ⟨ps ++ qs, r', fun sink st => sink.feed_append r' qs ps st⟩
    | error err => exact ⟨ps, .error err, fun sink st => sink.feed_error err _ ps st⟩

/-- No branch is taken, in whatever sink, or one is and feeds every sink with the same pieces. -/
theorem Block.isFeeding_writeBranches (s : Scope) : ∀ bs : List (Expr × List Block),
    (∀ {σ : Type} (sink : Sink σ) (st : σ), Block.writeBranches sink s bs st = none) ∨
      ∃ (ps : List Bytes) (r : Except RenderError Unit), ∀ {σ : Type} (sink : Sink σ) (st : σ),
        Block.writeBranches sink s bs st = some (sink.feed st r ps)
  | [] => .inl fun _ _ => rfl
  | (c, body) :: bs => by
    simp only [Block.writeBranches]
    cases c.holds s with
    | error err => exact .inr ⟨[], .error err, fun _ _ => rfl⟩
    | ok b =>
      cases b with
      | true =>
        obtain ⟨ps, r, h⟩ := Block.isFeeding_writeList s body
        exact .inr ⟨ps, r, fun sink st => congrArg some (h sink st)⟩
      | false => exact Block.isFeeding_writeBranches s bs

end

theorem Sink.feed_memory (r : Except RenderError Unit) : ∀ (ps : List Bytes) (w : Written),
    Sink.memory.feed w r ps = (⟨ps.reverse ++ w.pieces⟩, r)
  | [], _ => rfl
  | p :: ps, w => by
    rw [feed, show Sink.memory.put w p = (w.add p, .ok ()) from rfl]
    simp only [feed_memory r ps, Written.add, List.reverse_cons, List.append_assoc, List.singleton_append]

namespace Template

def pieces (t : Template) (s : Scope) : List Bytes := (t.render Sink.memory s .nothing).1.pieces.reverse

def ending (t : Template) (s : Scope) : Except RenderError Unit := (t.render Sink.memory s .nothing).2

/-- **Rendering feeds every sink with the same pieces and comes to the same end**, unless the sink fails. -/
theorem render_eq_feed {σ : Type} (t : Template) (sink : Sink σ) (s : Scope) (st : σ) :
    t.render sink s st = sink.feed st (t.ending s) (t.pieces s) := by
  obtain ⟨ps, r, h⟩ := Block.isFeeding_writeList s t
  have hmemory : t.render Sink.memory s .nothing = (⟨ps.reverse ++ []⟩, r) := (h _ _).trans (Sink.feed_memory r ps _)
  rw [ending, pieces, hmemory, List.append_nil, List.reverse_reverse]
  exact h sink st

theorem flatten_pieces (t : Template) (s : Scope) :
    (t.pieces s).flatten = (t.render Sink.memory s .nothing).1.bytes := rfl

end Template
end Stencil
