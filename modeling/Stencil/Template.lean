import Stencil.Bytes
import Stencil.Position
import Stencil.Types
/-!
# Template — what a source means

A template is a list of blocks: text, comments, rendered expressions, conditions and switches.  Expressions keep the
parentheses they were written with.  Every node carries the position it was read at, and `mapPos` changes all of them;
`erase` forgets them, so that two templates can be compared up to where they stand.
-/
namespace Stencil

structure Ident where
  name : Bytes
  pos : Position
deriving DecidableEq, Repr

inductive Literal
  | bool (value : Bool)
  | string (body : Bytes)
deriving DecidableEq, Repr

namespace Literal

def source : Literal → Bytes
  | .bool true => utf8 "true"
  | .bool false => utf8 "false"
  | .string body => Byte.quote :: (body ++ [Byte.quote])

def ty : Literal → Ty
  | .bool _ => .bool
  | .string _ => .string

end Literal

inductive BinOp
  | eq | ne | and | or | concat
deriving DecidableEq, Repr

namespace BinOp

def symbol : BinOp → String
  | .eq => "=="
  | .ne => "!="
  | .and => "and"
  | .or => "or"
  | .concat => "~"

/-- How tightly an operator binds its operands; all of them bind to the left. -/
def precedence : BinOp → Nat
  | .or => 1
  | .and => 2
  | .eq => 3
  | .ne => 3
  | .concat => 4

end BinOp

inductive Expr
  | lit (value : Literal) (pos : Position)
  | var (name : Ident)
  | not (operand : Expr) (pos : Position)
  | binary (op : BinOp) (left right : Expr)
  | paren (inner : Expr) (pos : Position)
  | call (func : Ident) (args : List Expr)
  | pipe (arg : Expr) (func : Ident)
deriving Repr

namespace Expr

def pos : Expr → Position
  | .lit _ p => p
  | .var x => x.pos
  | .not _ p => p
  | .binary _ l _ => l.pos
  | .paren _ p => p
  | .call f _ => f.pos
  | .pipe a _ => a.pos

def unparen : Expr → Expr
  | .paren e _ => e.unparen
  | e => e

end Expr

def Ident.mapPos (f : Position → Position) (x : Ident) : Ident := ⟨x.name, f x.pos⟩

mutual

def Expr.mapPos (f : Position → Position) : Expr → Expr
  | .lit v p => .lit v (f p)
  | .var x => .var (x.mapPos f)
  | .not e p => .not (e.mapPos f) (f p)
  | .binary op l r => .binary op (l.mapPos f) (r.mapPos f)
  | .paren e p => .paren (e.mapPos f) (f p)
  | .call x args => .call (x.mapPos f) (Expr.mapPosList f args)
  | .pipe a x => .pipe (a.mapPos f) (x.mapPos f)

def Expr.mapPosList (f : Position → Position) : List Expr → List Expr
  | [] => []
  | e :: es => e.mapPos f :: Expr.mapPosList f es

end

inductive Block
  | text (content : Bytes) (pos : Position)
  | comment (content : Bytes) (pos : Position)
  | render (e : Expr)
  | cond (branches : List (Expr × List Block)) (otherwise : Option (List Block)) (pos : Position)
  /-- A choice between cases, each with its patterns; reserved, it has no meaning yet. -/
  | switch (value : Expr) (cases : List (List Expr × List Block)) (pos : Position)
deriving Repr

abbrev Template := List Block

mutual

def Block.mapPos (f : Position → Position) : Block → Block
  | .text c p => .text c (f p)
  | .comment c p => .comment c (f p)
  | .render e => .render (e.mapPos f)
  | .cond branches none p => .cond (Block.mapPosBranches f branches) none (f p)
  | .cond branches (some body) p => .cond (Block.mapPosBranches f branches) (some (Block.mapPosList f body)) (f p)
  | .switch v cases p => .switch (v.mapPos f) (Block.mapPosCases f cases) (f p)
termination_by structural b => b

def Block.mapPosList (f : Position → Position) : List Block → List Block
  | [] => []
  | b :: bs => b.mapPos f :: Block.mapPosList f bs
termination_by structural bs => bs

def Block.mapPosBranches (f : Position → Position) : List (Expr × List Block) → List (Expr × List Block)
  | [] => []
  | (c, body) :: rest => (c.mapPos f, Block.mapPosList f body) :: Block.mapPosBranches f rest
termination_by structural bs => bs

def Block.mapPosCases (f : Position → Position) : List (List Expr × List Block) → List (List Expr × List Block)
  | [] => []
  | (ps, body) :: rest => (Expr.mapPosList f ps, Block.mapPosList f body) :: Block.mapPosCases f rest
termination_by structural cs => cs

end

namespace Template

def mapPos (f : Position → Position) (t : Template) : Template := Block.mapPosList f t

def erase (t : Template) : Template := mapPos (fun _ => Position.zero) t

end Template
end Stencil
