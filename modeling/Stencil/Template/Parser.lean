import Stencil.Template.Reading
import Stencil.Token.Lexer
/-!
# Parser — from tokens to a template

Blocks are read token by token like expressions.  `Progress` is how far reading has come: the place in the current
tag or body, the blocks of the current body, and the statements around it, innermost first.  `Progress.step` takes one
token; `Template.parse` runs it over the tokens of a source.

A `Parser` can be driven repeatedly, for whole templates and for single expressions.  After an error it stands where
the error was found, and the constructs open there stay counted, so a later call may nest less deeply.
-/
namespace Stencil

inductive Use
  | render
  | cond (pos : Position) (before : List (Expr × List Block))
  | switch (pos : Position)
  /-- To be a pattern of a case of the switch at `pos`, after the cases and the patterns read before it, the latest
  first. -/
  | pattern (pos : Position) (value : Expr) (before : List (List Expr × List Block)) (patterns : List Expr)
deriving Repr

inductive Opening
  | branch (pos : Position) (before : List (Expr × List Block)) (cond : Expr)
  | otherwise (pos : Position) (before : List (Expr × List Block))
  | case (pos : Position) (value : Expr) (before : List (List Expr × List Block)) (patterns : List Expr)
deriving Repr

def Opening.statement : Opening → Statement
  | .branch .. => .cond
  | .otherwise .. => .cond
  | .case .. => .switch

inductive Place
  | body
  | tag (opener : Lexeme)
  | expr (use : Use) (reading : Reading)
  | comment (pos : Position)
  | commentEnd (pos : Position) (content : Bytes)
  | elseEnd (pos : Position) (before : List (Expr × List Block))
  | statementEnd (block : Block)
  /-- After the tag of a switch: nothing but white space may stand before the first case. -/
  | firstCase (pos : Position) (value : Expr)
  | firstCaseTag (pos : Position) (value : Expr) (opener : Lexeme)
deriving Repr

/-- The number of constructs that are open at a place, apart from the bodies around it. -/
def Place.depth : Place → Nat
  | .body => 0
  | .tag _ => 0
  | .expr .render r => r.depth
  | .expr _ r => 1 + r.depth
  | .comment _ => 0
  | .commentEnd _ _ => 0
  | .elseEnd _ _ => 1
  | .statementEnd _ => 1
  | .firstCase _ _ => 1
  | .firstCaseTag _ _ _ => 1

/-- How far reading has come: the place, the blocks of the current body, the latest first, and the statements around
it, innermost first, each with the blocks before it in its own body. -/
structure Progress where
  place : Place
  blocks : List Block
  outer : List (Opening × List Block)
deriving Repr

inductive Progress.Step
  | shift (p : Progress)
  | accept (t : Template)
  /-- The token is an error; so many constructs are open, and the parser comes to stand there. -/
  | fail (e : ParseError) (depth : Nat) (standing : Standing)
deriving Repr

namespace Progress

def start : Progress := ⟨.body, [], []⟩

def depth (p : Progress) : Nat := p.outer.length + p.place.depth

def push (p : Progress) (b : Block) : Progress := ⟨.body, b :: p.blocks, p.outer⟩

def openBody (p : Progress) (o : Opening) : Progress := ⟨.body, [], (o, p.blocks) :: p.outer⟩

def unexpected (base : Nat) (p : Progress) (t : Lexeme) (what : Expectation) : Step :=
  .fail (t.unexpected what) (base + p.depth) .inFront

def expect (base : Nat) (p : Progress) (t : Lexeme) (kind : TokenKind) (next : Progress) : Step :=
  if t.kind = kind then .shift next else unexpected base p t (.token kind)

def stepBody (base : Nat) (p : Progress) (t : Lexeme) : Step :=
  match t.kind with
  | .text => .shift (p.push (.text t.text t.pos))
  | .lDoubleBrace => .shift ⟨.expr .render .start, p.blocks, p.outer⟩
  | .lBracePercent => .shift ⟨.tag t, p.blocks, p.outer⟩
  | .lBracePound => .shift ⟨.comment t.pos, p.blocks, p.outer⟩
  | .eof =>
    match p.outer with
    | [] => .accept p.blocks.reverse
    | (o, _) :: _ => .fail ⟨.unclosed o.statement, t.pos⟩ (base + p.depth) .inFront
  | _ => unexpected base p t .textOrTag

def openStatement (base : Nat) (p : Progress) (opener t : Lexeme) : Step :=
  if maxDepth < base + p.depth + 1 then .fail ⟨.tooDeep, opener.pos⟩ (base + p.depth + 1) .inFront
  else
    match t.kind with
    | .if => .shift ⟨.expr (.cond opener.pos []) .start, p.blocks, p.outer⟩
    | .switch => .shift ⟨.expr (.switch opener.pos) .start, p.blocks, p.outer⟩
    | _ => .fail (t.unexpected .statement) (base + p.depth + 1) .inFront

/-- A word that goes on with a statement or ends it, where the innermost statement is `o`. -/
def stepOpening (base : Nat) (p : Progress) (o : Opening) (before : List Block) (outer : List (Opening × List Block))
    (opener t : Lexeme) : Step :=
  let body := p.blocks.reverse
  match o, t.kind with
  | .branch pos bs c, .elseif => .shift ⟨.expr (.cond pos ((c, body) :: bs)) .start, before, outer⟩
  | .branch pos bs c, .else => .shift ⟨.elseEnd pos ((c, body) :: bs), before, outer⟩
  | .branch pos bs c, .end => .shift ⟨.statementEnd (.cond ((c, body) :: bs).reverse none pos), before, outer⟩
  | .otherwise pos bs, .end => .shift ⟨.statementEnd (.cond bs.reverse (some body) pos), before, outer⟩
  | .otherwise _ _, .elseif => .fail ⟨.elseifAfterElse, t.pos⟩ (base + p.depth) .behind
  | .otherwise _ _, .else => .fail ⟨.duplicateElse, t.pos⟩ (base + p.depth) .behind
  | .case pos v cs ps, .case => .shift ⟨.expr (.pattern pos v ((ps, body) :: cs) []) .start, before, outer⟩
  | .case pos v cs ps, .end => .shift ⟨.statementEnd (.switch v ((ps, body) :: cs).reverse pos), before, outer⟩
  | .case _ _ _ _, _ => .fail (t.unexpected .caseOrEnd) (base + p.depth) (.atTag opener)
  | _, _ => .fail ⟨.insideCond t.kind, t.pos⟩ (base + p.depth) .behind

def isInner : TokenKind → Bool
  | .elseif => true
  | .else => true
  | .end => true
  | .case => true
  | _ => false

def stepTag (base : Nat) (p : Progress) (opener t : Lexeme) : Step :=
  if isInner t.kind then
    match p.outer with
    | [] => .fail ⟨.outsideBlock t.kind, t.pos⟩ (base + p.depth) (.atTag opener)
    | (o, before) :: outer => stepOpening base p o before outer opener t
  else openStatement base p opener t

/-- The token after an expression: it ends the tag, or a comma leads on to the next pattern. -/
def stepUse (base : Nat) (p : Progress) (use : Use) (e : Expr) (t : Lexeme) : Step :=
  match use with
  | .render => expect base p t .rDoubleBrace (p.push (.render e))
  | .cond pos bs => expect base p t .rBracePercent (p.openBody (.branch pos bs e))
  | .switch pos => expect base p t .rBracePercent ⟨.firstCase pos e, p.blocks, p.outer⟩
  | .pattern pos v cs ps =>
    if t.kind = .comma then .shift ⟨.expr (.pattern pos v cs (e :: ps)) .start, p.blocks, p.outer⟩
    else expect base p t .rBracePercent (p.openBody (.case pos v cs (e :: ps).reverse))

def stepExpr (base : Nat) (p : Progress) (use : Use) (r : Reading) (t : Lexeme) : Step :=
  let around := base + p.outer.length + (Place.expr use .start).depth
  match r.step around t with
  | .shift r => .shift ⟨.expr use r, p.blocks, p.outer⟩
  | .accept e => stepUse base ⟨.expr use .start, p.blocks, p.outer⟩ use e t
  | .fail e depth standing => .fail e depth standing

def stepFirstCase (base : Nat) (p : Progress) (pos : Position) (value : Expr) (t : Lexeme) : Step :=
  match t.kind with
  | .lBracePercent => .shift ⟨.firstCaseTag pos value t, p.blocks, p.outer⟩
  | .eof => .fail ⟨.unclosed .switch, t.pos⟩ (base + p.depth) .inFront
  | .text => if t.text.all Byte.isSpace then .shift p else unexpected base p t .caseTag
  | _ => unexpected base p t .caseTag

def stepFirstCaseTag (base : Nat) (p : Progress) (pos : Position) (value : Expr) (opener t : Lexeme) : Step :=
  match t.kind with
  | .case => .shift ⟨.expr (.pattern pos value [] []) .start, p.blocks, p.outer⟩
  | .end => .shift ⟨.statementEnd (.switch value [] pos), p.blocks, p.outer⟩
  | _ => .fail (t.unexpected .caseOrEnd) (base + p.depth) (.atTag opener)

def stepComment (base : Nat) (p : Progress) (pos : Position) (t : Lexeme) : Step :=
  if t.kind = .comment then .shift ⟨.commentEnd pos t.text, p.blocks, p.outer⟩
  else expect base p t .rBracePound (p.push (.comment [] pos))

def step (base : Nat) (p : Progress) (t : Lexeme) : Step :=
  match p.place with
  | .body => stepBody base p t
  | .tag opener => stepTag base p opener t
  | .expr use r => stepExpr base p use r t
  | .comment pos => stepComment base p pos t
  | .commentEnd pos content => expect base p t .rBracePound (p.push (.comment content pos))
  | .elseEnd pos bs => expect base p t .rBracePercent (p.openBody (.otherwise pos bs))
  | .statementEnd b => expect base p t .rBracePercent (p.push b)
  | .firstCase pos value => stepFirstCase base p pos value t
  | .firstCaseTag pos value opener => stepFirstCaseTag base p pos value opener t

end Progress

/-- A parser: the tokens still to read, the token that marks their end, and the number of open constructs. -/
structure Parser where
  rest : List Lexeme
  eof : Lexeme
  depth : Nat
deriving Repr

namespace Parser

/-- The tokens that a parser stands in front of after an error at the first of `ts`. -/
def standingAt : Standing → List Lexeme → List Lexeme
  | .behind, ts => ts.tail
  | .inFront, ts => ts
  | .atTag opener, ts => opener :: ts

/-- Reads on with a template.  The end of the tokens counts as one more token, which is never shifted. -/
def runTemplate (eof : Lexeme) (base : Nat) : Progress → List Lexeme → Except ParseError Template × Parser
  | p, [] =>
    match p.step base eof with
    | .accept t => (.ok t, ⟨[], eof, base + p.depth⟩)
    | .fail e depth standing => (.error e, ⟨standingAt standing [], eof, depth⟩)
    | .shift _ => (.error (eof.unexpected .textOrTag), ⟨[], eof, base⟩)
  | p, t :: ts =>
    match p.step base t with
    | .shift p => runTemplate eof base p ts
    | .accept tpl => (.ok tpl, ⟨t :: ts, eof, base + p.depth⟩)
    | .fail e depth standing => (.error e, ⟨standingAt standing (t :: ts), eof, depth⟩)

/-- Reads on with an expression, up to the first token that cannot go on with it.  The `!`s in front of a name are complete
with the name, so of an expression that is accepted only the frames still count. -/
def runExpr (eof : Lexeme) (base : Nat) : Reading → List Lexeme → Except ParseError Expr × Parser
  | r, [] =>
    match r.step base eof with
    | .accept e => (.ok e, ⟨[], eof, base + Reading.framesDepth r.frames⟩)
    | .fail e depth standing => (.error e, ⟨standingAt standing [], eof, depth⟩)
    | .shift _ => (.error (eof.unexpected .expression), ⟨[], eof, base⟩)
  | r, t :: ts =>
    match r.step base t with
    | .shift r => runExpr eof base r ts
    | .accept e => (.ok e, ⟨t :: ts, eof, base + Reading.framesDepth r.frames⟩)
    | .fail e depth standing => (.error e, ⟨standingAt standing (t :: ts), eof, depth⟩)

def template (p : Parser) : Except ParseError Template × Parser := runTemplate p.eof p.depth .start p.rest

def expr (p : Parser) : Except ParseError Expr × Parser := runExpr p.eof p.depth .start p.rest

end Parser

def LineIndex.lexeme (index : LineIndex) (t : Token) : Lexeme := ⟨t.kind, t.text, index.position t.start⟩

def Lexeme.ofSource (s : Bytes) : List Lexeme :=
  (Lexer.ofSource s).tokens.map (LineIndex.ofSource s).lexeme

def Parser.ofSource (s : Bytes) : Parser :=
  ⟨Lexeme.ofSource s, (LineIndex.ofSource s).lexeme (.eof s.length), 0⟩

def Template.parse (s : Bytes) : Except ParseError Template := (Parser.ofSource s).template.1

end Stencil
