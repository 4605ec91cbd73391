import Mathlib
import Stencil.Proofs.Grammar.Moved
import Stencil.Render
/-!
# Moved rendering — positions decide nothing but where errors are reported

A template that is moved writes the same bytes and fails for the same cause; only the position of the error moves along
(`Template.render_mapPos`).
-/
namespace Stencil

def RenderError.mapPos (f : Position → Position) : RenderError → RenderError
  | .template cause pos => .template cause (f pos)
  | .sink failure => .sink failure

variable (f : Position → Position)

theorem RenderError.mapPos_mapPos (g : Position → Position) (e : RenderError) :
    (e.mapPos f).mapPos g = e.mapPos (g ∘ f) := by
  cases e <;> rfl

theorem RenderError.message_mapPos (e : RenderError) : (e.mapPos f).message = e.message := by
  cases e <;> rfl

/-! ## Expressions -/

theorem Value.negate_mapPos (v : Value) (p : Position) :
    v.negate (f p) = (v.negate p).mapError (RenderError.mapPos f) := by
  cases v <;> rfl

theorem Value.asArgument_mapPos (v : Value) (n : Nat) (g : Bytes) (want : Ty) (p : Position) :
    v.asArgument n g want (f p) = (v.asArgument n g want p).mapError (RenderError.mapPos f) := by
  unfold Value.asArgument
  split <;> rfl

theorem BinOp.apply_mapPos (op : BinOp) (l r : Value) (p : Position) :
    op.apply l r (f p) = (op.apply l r p).mapError (RenderError.mapPos f) := by
  cases op <;> cases l <;> cases r <;> rfl

theorem Scope.callee_mapPos (s : Scope) (x : Ident) (n : Nat) :
    s.callee (x.mapPos f) n = (s.callee x n).mapError (RenderError.mapPos f) := by
  unfold Scope.callee
  rw [Ident.mapPos_name]
  split
  · rfl
  · split <;> rfl

mutual

theorem Expr.eval_mapPos (s : Scope) : ∀ e : Expr,
    (e.mapPos f).eval s = (e.eval s).mapError (RenderError.mapPos f)
  | .lit _ _ => rfl
  | .var x => by
    rw [Expr.mapPos, Expr.eval, Expr.eval, Ident.mapPos_name]
    split <;> rfl
  | .not e p => by
    rw [Expr.mapPos, Expr.eval, eval_mapPos s e, Expr.eval]
    cases e.eval s with
    | error err => rfl
    | ok v => exact v.negate_mapPos f p
  | .binary op l r => by
    rw [Expr.mapPos, Expr.eval, eval_mapPos s l, eval_mapPos s r, Expr.eval]
    cases l.eval s with
    | error err => rfl
    | ok a =>
      cases r.eval s with
      | error err => rfl
      | ok b =>
        rw [Expr.pos_mapPos]
        exact op.apply_mapPos f a b l.pos
  | .paren e _ => by rw [Expr.mapPos, Expr.eval, eval_mapPos s e, Expr.eval]
  | .call x args => by
    rw [Expr.mapPos, Expr.eval, Expr.length_mapPosList, Scope.callee_mapPos, Expr.eval]
    cases s.callee x args.length with
    | error err => rfl
    | ok b =>
      simp only [Except.mapError, Ident.mapPos_name, evalArgs_mapPos s x.name 1 args b.params]
      cases Expr.evalArgs s x.name 1 args b.params <;> rfl
  | .pipe a x => by
    rw [Expr.mapPos, Expr.eval, Scope.callee_mapPos, eval_mapPos s a, Expr.eval]
    cases s.callee x 1 with
    | error err => rfl
    | ok b =>
      cases a.eval s with
      | error err => rfl
      | ok v =>
        simp only [Except.mapError, Ident.mapPos_name, Expr.pos_mapPos, Value.asArgument_mapPos]
        cases v.asArgument 1 x.name (b.params.headD .string) a.pos <;> rfl

theorem Expr.evalArgs_mapPos (s : Scope) (g : Bytes) : ∀ (n : Nat) (es : List Expr) (wants : List Ty),
    Expr.evalArgs s g n (Expr.mapPosList f es) wants = (Expr.evalArgs s g n es wants).mapError (RenderError.mapPos f)
  | _, [], _ => rfl
  | _, _ :: _, [] => rfl
  | n, e :: es, want :: wants => by
    rw [Expr.mapPosList, Expr.evalArgs, eval_mapPos s e, evalArgs_mapPos s g (n + 1) es wants, Expr.evalArgs]
    cases e.eval s with
    | error err => rfl
    | ok v =>
      simp only [Except.mapError, Expr.pos_mapPos, Value.asArgument_mapPos]
      cases v.asArgument n g want e.pos with
      | error err => rfl
      | ok v => cases Expr.evalArgs s g (n + 1) es wants <;> rfl

end

theorem Expr.output_mapPos (s : Scope) (e : Expr) :
    (e.mapPos f).output s = (e.output s).mapError (RenderError.mapPos f) := by
  unfold Expr.output
  rw [eval_mapPos, pos_mapPos]
  cases e.eval s with
  | error err => rfl
  | ok v => cases v <;> rfl

theorem Expr.holds_mapPos (s : Scope) (e : Expr) :
    (e.mapPos f).holds s = (e.holds s).mapError (RenderError.mapPos f) := by
  unfold Expr.holds
  rw [eval_mapPos, pos_mapPos]
  cases e.eval s with
  | error err => rfl
  | ok v => cases v <;> rfl

/-! ## Blocks -/

/-- A sink after a write, and the error of the write, whose position is changed. -/
def moveResult {σ : Type} (r : σ × Except RenderError Unit) : σ × Except RenderError Unit :=
  (r.1, r.2.mapError (RenderError.mapPos f))

theorem Sink.put_mapPos {σ : Type} (sink : Sink σ) (st : σ) (b : Bytes) :
    moveResult f (sink.put st b) = sink.put st b := by
  unfold Sink.put
  split <;> rfl

mutual

theorem Block.write_mapPos {σ : Type} (sink : Sink σ) (s : Scope) : ∀ (b : Block) (st : σ),
    (b.mapPos f).write sink s st = moveResult f (b.write sink s st)
  | .text c _, st => (sink.put_mapPos f st c).symm
  | .comment _ _, _ => rfl
  | .render e, st => by
    rw [Block.mapPos, Block.write, Expr.output_mapPos, Block.write]
    cases e.output s with
    | error err => rfl
    | ok b => exact (sink.put_mapPos f st b).symm
  | .cond branches none _, st => by
    rw [Block.mapPos, Block.write, writeBranches_mapPos sink s branches st, Block.write]
    cases Block.writeBranches sink s branches st <;> rfl
  | .cond branches (some body) _, st => by
    rw [Block.mapPos, Block.write, writeBranches_mapPos sink s branches st, writeList_mapPos sink s body st, Block.write]
    cases Block.writeBranches sink s branches st <;> rfl
  | .switch _ _ _, _ => rfl

theorem Block.writeList_mapPos {σ : Type} (sink : Sink σ) (s : Scope) : ∀ (bs : List Block) (st : σ),
    Block.writeList sink s (Block.mapPosList f bs) st = moveResult f (Block.writeList sink s bs st)
  | [], _ => rfl
  | b :: bs, st => by
    rw [Block.mapPosList, Block.writeList, write_mapPos sink s b st, Block.writeList]
    rcases b.write sink s st with ⟨st', err | ⟨⟩⟩
    · rfl
    · exact writeList_mapPos sink s bs st'

theorem Block.writeBranches_mapPos {σ : Type} (sink : Sink σ) (s : Scope) :
    ∀ (bs : List (Expr × List Block)) (st : σ), Block.writeBranches sink s (Block.mapPosBranches f bs) st =
      (Block.writeBranches sink s bs st).map (moveResult f)
  | [], _ => rfl
  | (c, body) :: bs, st => by
    rw [Block.mapPosBranches, Block.writeBranches, Expr.holds_mapPos, Block.writeBranches]
    rcases c.holds s with err | (_ | _)
    · rfl
    · exact writeBranches_mapPos sink s bs st
    · exact congrArg some (writeList_mapPos sink s body st)

end

/-- **A template that is moved writes the same and fails for the same cause**, at the position that is moved. -/
theorem Template.render_mapPos {σ : Type} (t : Template) (sink : Sink σ) (s : Scope) (st : σ) :
    (t.mapPos f).render sink s st = moveResult f (t.render sink s st) := Block.writeList_mapPos f sink s t st

end Stencil
