import Stencil.Position
import Stencil.Token
/-!
# ParseError — why a source is no template

A parse error is a cause and the position of the token it was found at.  Reading stops at the first one.
`ParseError.message` words the cause and `ParseError.describe` adds the position.
-/
namespace Stencil

inductive Expectation
  | token (kind : TokenKind)
  | expression
  | functionName
  | textOrTag
  | statement
  | caseTag
  | caseOrEnd
deriving DecidableEq, Repr

def Expectation.describe : Expectation → String
  | .token kind => kind.describe
  | .expression => "expression"
  | .functionName => "function name after '|'"
  | .textOrTag => "text or tag"
  | .statement => "'if' or 'switch'"
  | .caseTag => "'\x7b% case %\x7d'"
  | .caseOrEnd => "'case' or 'end'"

inductive Statement
  | cond | switch
deriving DecidableEq, Repr

def Statement.word : Statement → String
  | .cond => "if"
  | .switch => "switch"

inductive ParseError.Cause
  | expected (what : Expectation) (found : TokenKind)
  /-- A tag goes on over the end of its line. -/
  | newlineInTag
  | unterminatedString
  | stray (text : Bytes)
  /-- `elseif`, `else`, `end` or `case` where no statement is open. -/
  | outsideBlock (word : TokenKind)
  | unclosed (statement : Statement)
  | elseifAfterElse
  | duplicateElse
  | insideCond (word : TokenKind)
  | tooDeep
deriving DecidableEq, Repr

structure ParseError where
  cause : ParseError.Cause
  pos : Position
deriving DecidableEq, Repr

namespace ParseError

def Cause.message : Cause → String
  | .expected what found => s!"expected {what.describe}, found {found.describe}"
  | .newlineInTag => "unexpected newline inside tag"
  | .unterminatedString => "unterminated string literal"
  | .stray text => s!"unexpected character '{text.escape}'"
  | .outsideBlock word => s!"unexpected {word.describe} outside of a block"
  | .unclosed statement =>
    s!"unexpected end of input, expected '\x7b% end %\x7d' to close '{statement.word}'"
  | .elseifAfterElse => "'elseif' after 'else'"
  | .duplicateElse => "duplicate 'else'"
  | .insideCond word => s!"unexpected {word.describe} inside 'if'"
  | .tooDeep => "template nested too deeply"

def message (e : ParseError) : String := e.cause.message

def describe (e : ParseError) : String := s!"{e.message} at {e.pos.oneBased}"

end ParseError
end Stencil
