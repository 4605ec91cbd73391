import Stencil.Template
import Stencil.Template.ParseError
/-!
# Reading — an expression while it is being read

Expressions are read token by token, with what is still open kept beside: a `Reading` is the innermost parenthesis
level, the levels around it, and what may come next.  `Reading.step` takes one token.  It shifts the token, or accepts
the expression when the token cannot go on with it (that token is not consumed), or fails.

Operators are placed by `Expr.extend`: the tree read so far gets a further operand at its right edge, below every
operator that binds less tightly.  Parentheses, `!` and calls count as open constructs until they are complete, and at
most `maxDepth` may be open at once.
-/
namespace Stencil

/-- The number of constructs that may be open at once. -/
def maxDepth : Nat := 128

structure Lexeme where
  kind : TokenKind
  text : Bytes
  pos : Position
deriving DecidableEq, Repr

namespace Lexeme

/-- The error of a token that stands where something else was expected.  What the lexer could not make sense of is
reported as such. -/
def unexpected (t : Lexeme) (what : Expectation) : ParseError :=
  match t.kind, t.text with
  | .error, Byte.newline :: _ => ⟨.newlineInTag, t.pos⟩
  | .error, Byte.quote :: _ => ⟨.unterminatedString, t.pos⟩
  | .error, text => ⟨.stray text, t.pos⟩
  | kind, _ => ⟨.expected what kind, t.pos⟩

def ident (t : Lexeme) : Ident := ⟨t.text, t.pos⟩

end Lexeme

def TokenKind.binOp? : TokenKind → Option BinOp
  | .or => some .or
  | .and => some .and
  | .eqEq => some .eq
  | .notEq => some .ne
  | .tilde => some .concat
  | _ => none

def Lexeme.body (t : Lexeme) : Bytes := (t.text.drop 1).dropLast

/-- Puts `op` and its right operand `e` at the right edge of a tree, below the operators that bind less tightly. -/
def Expr.extend : Expr → BinOp → Expr → Expr
  | .binary o l r, op, e =>
    if o.precedence < op.precedence then .binary o l (r.extend op e) else .binary op (.binary o l r) e
  | t, op, e => .binary op t e

/-- One parenthesis level: the tree and the operator that wait for an operand, and the `!`s in front of it, the
innermost first. -/
structure Level where
  pending : Option (Expr × BinOp)
  nots : List Position
deriving Repr

namespace Level

def start : Level := ⟨none, []⟩

end Level

namespace Expr

def joined (e : Expr) (pending : Option (Expr × BinOp)) : Expr :=
  match pending with
  | none => e
  | some (t, op) => t.extend op e

def negated (e : Expr) (nots : List Position) : Expr := nots.foldl (fun e p => .not e p) e

end Expr

inductive Frame
  | paren (pos : Position) (outer : Level)
  /-- A call with the arguments read so far, the latest first. -/
  | call (func : Ident) (args : List Expr) (outer : Level)
deriving Repr

inductive Phase
  | operand
  | firstArg
  /-- A name has been read; an opening parenthesis would make it a call. -/
  | named (x : Ident)
  | complete (e : Expr)
  | function (e : Expr)
deriving Repr

structure Reading where
  phase : Phase
  level : Level
  frames : List Frame
deriving Repr

inductive Standing
  | behind
  | inFront
  /-- In front of the tag that the token is the first of. -/
  | atTag (opener : Lexeme)
deriving Repr

inductive Reading.Step
  | shift (r : Reading)
  | accept (e : Expr)
  /-- The token is an error; so many constructs are open, and the parser comes to stand there. -/
  | fail (e : ParseError) (depth : Nat) (standing : Standing)
deriving Repr

namespace Reading

def start : Reading := ⟨.operand, .start, []⟩

def framesDepth : List Frame → Nat
  | [] => 0
  | .paren _ outer :: frames => outer.nots.length + 1 + framesDepth frames
  | .call _ _ outer :: frames => outer.nots.length + 1 + framesDepth frames

def depth (r : Reading) : Nat := r.level.nots.length + framesDepth r.frames

def enter (base : Nat) (pos : Position) (r : Reading) : Step :=
  if maxDepth < base + r.depth then .fail ⟨.tooDeep, pos⟩ (base + r.depth) .behind else .shift r

/-- The reading after the operand `e` of a level, with the `!`s in front of it applied. -/
def operandRead (level : Level) (frames : List Frame) (e : Expr) : Reading :=
  ⟨.complete (e.negated level.nots), ⟨level.pending, []⟩, frames⟩

def stepOperand (base : Nat) (level : Level) (frames : List Frame) (t : Lexeme) : Step :=
  match t.kind with
  | .bang => enter base t.pos ⟨.operand, ⟨level.pending, t.pos :: level.nots⟩, frames⟩
  | .lParen => enter base t.pos ⟨.operand, .start, .paren t.pos level :: frames⟩
  | .identifier => .shift ⟨.named t.ident, level, frames⟩
  | .stringLiteral => .shift (operandRead level frames (.lit (.string t.body) t.pos))
  | .true => .shift (operandRead level frames (.lit (.bool true) t.pos))
  | .false => .shift (operandRead level frames (.lit (.bool false) t.pos))
  | _ => .fail (t.unexpected .expression) (base + level.nots.length + framesDepth frames) .inFront

/-- A token that cannot go on with a level, whose tree is `e`: the level ends before it. -/
def stepEnd (base : Nat) (frames : List Frame) (e : Expr) (t : Lexeme) : Step :=
  match frames, t.kind with
  | [], _ => .accept e
  | .paren pos outer :: frames, .rParen => .shift (operandRead outer frames (.paren e pos))
  | .call func args outer :: frames, .rParen =>
    .shift (operandRead outer frames (.call func (e :: args).reverse))
  | .call func args outer :: frames, .comma =>
    .shift ⟨.operand, .start, .call func (e :: args) outer :: frames⟩
  | frames, _ => .fail (t.unexpected (.token .rParen)) (base + framesDepth frames) .inFront

def stepComplete (base : Nat) (pending : Option (Expr × BinOp)) (frames : List Frame) (e : Expr) (t : Lexeme) :
    Step :=
  if t.kind = .pipe then .shift ⟨.function e, ⟨pending, []⟩, frames⟩
  else
    match t.kind.binOp? with
    | some op => .shift ⟨.operand, ⟨some (e.joined pending, op), []⟩, frames⟩
    | none => stepEnd base frames (e.joined pending) t

def stepFirstArg (base : Nat) (level : Level) (frames : List Frame) (t : Lexeme) : Step :=
  match frames, t.kind with
  | .call func args outer :: frames, .rParen => .shift (operandRead outer frames (.call func args.reverse))
  | frames, _ => stepOperand base level frames t

def stepNamed (base : Nat) (level : Level) (frames : List Frame) (x : Ident) (t : Lexeme) : Step :=
  if t.kind = .lParen then enter base x.pos ⟨.firstArg, .start, .call x [] level :: frames⟩
  else stepComplete base level.pending frames ((Expr.var x).negated level.nots) t

def stepFunction (base : Nat) (level : Level) (frames : List Frame) (e : Expr) (t : Lexeme) : Step :=
  if t.kind = .identifier then .shift ⟨.complete (.pipe e t.ident), level, frames⟩
  else .fail (t.unexpected .functionName) (base + level.nots.length + framesDepth frames) .inFront

def step (base : Nat) (r : Reading) (t : Lexeme) : Step :=
  match r.phase with
  | .operand => stepOperand base r.level r.frames t
  | .firstArg => stepFirstArg base r.level r.frames t
  | .named x => stepNamed base r.level r.frames x t
  | .complete e => stepComplete base r.level.pending r.frames e t
  | .function e => stepFunction base r.level r.frames e t

end Reading
end Stencil
