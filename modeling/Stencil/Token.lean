import Stencil.Bytes
/-!
# Token — the words of the template syntax

A token is a kind, the offset at which it starts and the bytes it covers.  `TokenKind.describe` is how messages name a
kind, `TokenKind.keyword?` which words are reserved, and `Span.text` cuts a span out of a source.
-/
namespace Stencil

inductive TokenKind
  | lDoubleBrace | rDoubleBrace | lBracePercent | rBracePercent | lBracePound | rBracePound
  | lParen | rParen | comma
  | bang | notEq | eqEq | pipe | tilde
  | and | or | if | elseif | else | end | true | false | switch | case
  | identifier | stringLiteral | text | comment | eof | error
deriving DecidableEq, Repr, Inhabited

namespace TokenKind

def keywords : List (Bytes × TokenKind) :=
  [(utf8 "and", .and), (utf8 "or", .or), (utf8 "if", .if), (utf8 "elseif", .elseif), (utf8 "else", .else),
   (utf8 "end", .end), (utf8 "true", .true), (utf8 "false", .false), (utf8 "switch", .switch), (utf8 "case", .case)]

def keyword? (word : Bytes) : Option TokenKind := keywords.lookup word

def describe : TokenKind → String
  | .lDoubleBrace => "'\x7b\x7b'"
  | .rDoubleBrace => "'\x7d\x7d'"
  | .lBracePercent => "'\x7b%'"
  | .rBracePercent => "'%\x7d'"
  | .lBracePound => "'\x7b#'"
  | .rBracePound => "'#\x7d'"
  | .lParen => "'('"
  | .rParen => "')'"
  | .comma => "','"
  | .bang => "'!'"
  | .notEq => "'!='"
  | .eqEq => "'=='"
  | .pipe => "'|'"
  | .tilde => "'~'"
  | .and => "'and'"
  | .or => "'or'"
  | .if => "'if'"
  | .elseif => "'elseif'"
  | .else => "'else'"
  | .end => "'end'"
  | .true => "'true'"
  | .false => "'false'"
  | .switch => "'switch'"
  | .case => "'case'"
  | .identifier => "identifier"
  | .stringLiteral => "string literal"
  | .text => "text"
  | .comment => "comment"
  | .eof => "end of input"
  | .error => "invalid input"

end TokenKind

structure Token where
  kind : TokenKind
  start : Nat
  text : Bytes
deriving DecidableEq, Repr, Inhabited

namespace Token

def stop (t : Token) : Nat := t.start + t.text.length

def eof (size : Nat) : Token := ⟨.eof, size, []⟩

end Token

structure Span where
  start : Nat
  stop : Nat
deriving DecidableEq, Repr

namespace Span

/-- The bytes a span covers; nothing when it does not fit the source. -/
def text (s : Span) (source : Bytes) : Bytes :=
  if s.start ≤ s.stop ∧ s.stop ≤ source.length then (source.drop s.start).take (s.stop - s.start) else []

def length? (s : Span) : Option Nat := if s.start ≤ s.stop then some (s.stop - s.start) else none

def isEmpty (s : Span) : Bool := s.start == s.stop

end Span

def Token.span (t : Token) : Span := ⟨t.start, t.stop⟩

end Stencil
