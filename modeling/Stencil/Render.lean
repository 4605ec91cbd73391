import Stencil.Analysis
import Stencil.Context
import Stencil.Render.Sink
/-!
# Render — the output of a template

`Expr.eval` gives an expression's value in a scope, which says what functions there are and what names stand for: the
context decides, and otherwise the zero value of the type that analysis gave the name.  Both operands of every operator
are evaluated, left before right.

`Template.render` writes a template's output into a sink.  What was written before an error stays there.
-/
namespace Stencil

structure Scope where
  registry : Registry
  context : Context
  types : TypeMap

namespace Scope

def look (s : Scope) (name : Bytes) : Option Value :=
  match s.context.find? name with
  | some v => some v
  | none => (s.types.find? name).bind Value.zero?

end Scope

def TypeMismatch.at (m : TypeMismatch) (pos : Position) : RenderError := .template (.mismatch m) pos

def BinOp.apply (op : BinOp) (l r : Value) (pos : Position) : Except RenderError Value :=
  match op, l, r with
  | .concat, .string a, .string b => .ok (.string (a ++ b))
  | .and, .bool a, .bool b => .ok (.bool (a && b))
  | .or, .bool a, .bool b => .ok (.bool (a || b))
  | .eq, .string a, .string b => .ok (.bool (a == b))
  | .eq, .bool a, .bool b => .ok (.bool (a == b))
  | .ne, .string a, .string b => .ok (.bool (a != b))
  | .ne, .bool a, .bool b => .ok (.bool (a != b))
  | op, l, r => .error ((TypeMismatch.operands l.ty op r.ty).at pos)

def Value.negate (v : Value) (pos : Position) : Except RenderError Value :=
  match v with
  | .bool b => .ok (.bool !b)
  | v => .error ((TypeMismatch.negated v.ty).at pos)

def Literal.value : Literal → Value
  | .bool b => .bool b
  | .string s => .string s

def Value.asArgument (v : Value) (number : Nat) (func : Bytes) (want : Ty) (pos : Position) :
    Except RenderError Value :=
  if v.ty = want then .ok v else .error ((TypeMismatch.argument number func want v.ty).at pos)

def Scope.callee (s : Scope) (f : Ident) (args : Nat) : Except RenderError Builtin :=
  match s.registry.find? f.name with
  | none => .error (.template (.unknownFunction f.name) f.pos)
  | some b =>
    if b.params.length = args then .ok b
    else .error (.template (.argCount f.name b.params.length args) f.pos)

theorem Scope.callee_eq_ok {s : Scope} {f : Ident} {n : Nat} {b : Builtin} (h : s.callee f n = .ok b) :
    s.registry.find? f.name = some b ∧ b.params.length = n := by
  rw [Scope.callee] at h
  split at h
  · cases h
  · rename_i b' hb
    split at h
    · rename_i hn
      cases h
      exact ⟨hb, hn⟩
    · cases h

mutual

def Expr.eval (s : Scope) : Expr → Except RenderError Value
  | .lit v _ => .ok v.value
  | .var x =>
    match s.look x.name with
    | some v => .ok v
    | none => .error (.template (.unboundName x.name) x.pos)
  | .not e p =>
    match e.eval s with
    | .ok v => v.negate p
    | .error err => .error err
  | .binary op l r =>
    match l.eval s with
    | .error err => .error err
    | .ok a =>
      match r.eval s with
      | .error err => .error err
      | .ok b => op.apply a b l.pos
  | .paren e _ => e.eval s
  | .call f args =>
    match s.callee f args.length with
    | .error err => .error err
    | .ok b =>
      match Expr.evalArgs s f.name 1 args b.params with
      | .error err => .error err
      | .ok vs => .ok (b.run vs)
  | .pipe a f =>
    match s.callee f 1 with
    | .error err => .error err
    | .ok b =>
      match a.eval s with
      | .error err => .error err
      | .ok v =>
        match v.asArgument 1 f.name (b.params.headD .string) a.pos with
        | .error err => .error err
        | .ok v => .ok (b.run [v])

/-- The values of the arguments of a function, from argument `number` on, each checked against its parameter before the
next is evaluated. -/
def Expr.evalArgs (s : Scope) (func : Bytes) (number : Nat) : List Expr → List Ty → Except RenderError (List Value)
  | e :: es, want :: wants =>
    match e.eval s with
    | .error err => .error err
    | .ok v =>
      match v.asArgument number func want e.pos with
      | .error err => .error err
      | .ok v =>
        match Expr.evalArgs s func (number + 1) es wants with
        | .error err => .error err
        | .ok vs => .ok (v :: vs)
  | _, _ => .ok []

end

/-- **A pipe has the value of the call with one argument.** -/
theorem Expr.eval_pipe (s : Scope) (a : Expr) (f : Ident) : (Expr.pipe a f).eval s = (Expr.call f [a]).eval s := by
  rw [Expr.eval, Expr.eval, List.length_singleton]
  cases h : s.callee f 1 with
  | error err => rfl
  | ok b =>
    obtain ⟨want, hwant⟩ := List.length_eq_one_iff.1 (Scope.callee_eq_ok h).2
    simp only [hwant, Expr.evalArgs, List.headD_cons]
    cases a.eval s with
    | error err => rfl
    | ok v =>
      dsimp only
      cases v.asArgument 1 f.name want a.pos <;> rfl

def Expr.output (s : Scope) (e : Expr) : Except RenderError Bytes :=
  match e.eval s with
  | .ok (.string b) => .ok b
  | .ok v => .error ((TypeMismatch.rendered v.ty).at e.pos)
  | .error err => .error err

def Expr.holds (s : Scope) (e : Expr) : Except RenderError Bool :=
  match e.eval s with
  | .ok (.bool b) => .ok b
  | .ok v => .error ((TypeMismatch.condition v.ty).at e.pos)
  | .error err => .error err

def Sink.put {σ : Type} (sink : Sink σ) (st : σ) (b : Bytes) : σ × Except RenderError Unit :=
  match sink.write st b with
  | (st, none) => (st, .ok ())
  | (st, some failure) => (st, .error (.sink failure))

mutual

def Block.write {σ : Type} (sink : Sink σ) (s : Scope) : Block → σ → σ × Except RenderError Unit
  | .text c _, st => sink.put st c
  | .comment _ _, st => (st, .ok ())
  | .render e, st =>
    match e.output s with
    | .ok b => sink.put st b
    | .error err => (st, .error err)
  | .cond branches none _, st =>
    match Block.writeBranches sink s branches st with
    | some r => r
    | none => (st, .ok ())
  | .cond branches (some body) _, st =>
    match Block.writeBranches sink s branches st with
    | some r => r
    | none => Block.writeList sink s body st
  | .switch _ _ p, st => (st, .error (.template .switchUnsupported p))
termination_by structural b => b

def Block.writeList {σ : Type} (sink : Sink σ) (s : Scope) : List Block → σ → σ × Except RenderError Unit
  | [], st => (st, .ok ())
  | b :: bs, st =>
    match b.write sink s st with
    | (st, .ok ()) => Block.writeList sink s bs st
    | (st, .error err) => (st, .error err)
termination_by structural bs => bs

/-- Writes the output of the first branch whose condition holds; nothing when none holds. -/
def Block.writeBranches {σ : Type} (sink : Sink σ) (s : Scope) :
    List (Expr × List Block) → σ → Option (σ × Except RenderError Unit)
  | [], _ => none
  | (c, body) :: rest, st =>
    match c.holds s with
    | .error err => some (st, .error err)
    | .ok true => some (Block.writeList sink s body st)
    | .ok false => Block.writeBranches sink s rest st
termination_by structural bs => bs

end

namespace Template

def render {σ : Type} (t : Template) (sink : Sink σ) (s : Scope) (st : σ) : σ × Except RenderError Unit :=
  Block.writeList sink s t st

def output (t : Template) (s : Scope) : Except RenderError Bytes :=
  match t.render Sink.memory s .nothing with
  | (w, .ok ()) => .ok w.bytes
  | (_, .error err) => .error err

end Template
end Stencil
