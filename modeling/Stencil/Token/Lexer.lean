import Stencil.Token
/-!
# Lexer — a source as a stream of tokens

Scanning has three modes: outside of tags, inside a tag (after two opening braces, or a brace and a percent sign),
and inside a comment.  `Mode.scan` reads one token off the front of a source and says in which mode to go on; it fails
on no input, since bytes that start no token are handed out as `error` tokens one at a time.  Blanks in front of a
token of a tag belong to no token (`Mode.skip`).

`Lexer` is the scanner between two tokens: its mode, its offset and the bytes still to read.  `Lexer.next` hands out
one token, and the `eof` token again and again at the end; `Lexer.tokens` hands out all that are left.  A scanner can be
asked for tokens in any of these ways and in any order (`Lexer.answers`).
-/
namespace Stencil

inductive Mode
  | outside | tag | comment
deriving DecidableEq, Repr, Inhabited

/-- One token read off the front of a source: its kind and bytes, the bytes after it, and the mode they are in. -/
structure Piece where
  kind : TokenKind
  text : Bytes
  rest : Bytes
  mode : Mode
deriving Repr

namespace Mode

def opensTag : Bytes → Bool
  | Byte.lbrace :: Byte.lbrace :: _ => true
  | Byte.lbrace :: Byte.percent :: _ => true
  | Byte.lbrace :: Byte.pound :: _ => true
  | _ => false

def endsText (s : Bytes) : Bool := s.head? == some Byte.newline || opensTag s

def endsComment : Bytes → Bool
  | Byte.newline :: _ => true
  | Byte.pound :: Byte.rbrace :: _ => true
  | _ => false

def endsString (s : Bytes) : Bool := s.head? == some Byte.quote || s.head? == some Byte.newline

def endsWord : Bytes → Bool
  | [] => true
  | b :: _ => !Byte.isNamePart b

/-- One token outside of tags: an opener, or text up to the next newline or opener, whose first byte may be any. -/
def scanOutside : Bytes → Option Piece
  | [] => none
  | Byte.lbrace :: Byte.lbrace :: r => some ⟨.lDoubleBrace, [Byte.lbrace, Byte.lbrace], r, .tag⟩
  | Byte.lbrace :: Byte.percent :: r => some ⟨.lBracePercent, [Byte.lbrace, Byte.percent], r, .tag⟩
  | Byte.lbrace :: Byte.pound :: r => some ⟨.lBracePound, [Byte.lbrace, Byte.pound], r, .comment⟩
  | b :: r => some ⟨.text, b :: (Bytes.cutAt endsText r).1, (Bytes.cutAt endsText r).2, .outside⟩

/-- A string after its opening quote: up to the next quote, or an error up to the end of the line. -/
def scanString (r : Bytes) : Piece :=
  match (Bytes.cutAt endsString r).2 with
  | Byte.quote :: r' => ⟨.stringLiteral, Byte.quote :: ((Bytes.cutAt endsString r).1 ++ [Byte.quote]), r', .tag⟩
  | r' => ⟨.error, Byte.quote :: (Bytes.cutAt endsString r).1, r', .tag⟩

def scanWord (b : UInt8) (r : Bytes) : Piece :=
  let word := b :: (Bytes.cutAt endsWord r).1
  ⟨(TokenKind.keyword? word).getD .identifier, word, (Bytes.cutAt endsWord r).2, .tag⟩

def scanTag : Bytes → Option Piece
  | [] => none
  | Byte.rbrace :: Byte.rbrace :: r => some ⟨.rDoubleBrace, [Byte.rbrace, Byte.rbrace], r, .outside⟩
  | Byte.percent :: Byte.rbrace :: r => some ⟨.rBracePercent, [Byte.percent, Byte.rbrace], r, .outside⟩
  | Byte.bang :: Byte.equals :: r => some ⟨.notEq, [Byte.bang, Byte.equals], r, .tag⟩
  | Byte.equals :: Byte.equals :: r => some ⟨.eqEq, [Byte.equals, Byte.equals], r, .tag⟩
  | Byte.bang :: r => some ⟨.bang, [Byte.bang], r, .tag⟩
  | Byte.lparen :: r => some ⟨.lParen, [Byte.lparen], r, .tag⟩
  | Byte.rparen :: r => some ⟨.rParen, [Byte.rparen], r, .tag⟩
  | Byte.comma :: r => some ⟨.comma, [Byte.comma], r, .tag⟩
  | Byte.bar :: r => some ⟨.pipe, [Byte.bar], r, .tag⟩
  | Byte.tilde :: r => some ⟨.tilde, [Byte.tilde], r, .tag⟩
  | Byte.quote :: r => some (scanString r)
  | b :: r => some (if Byte.isNameStart b then scanWord b r else ⟨.error, [b], r, .tag⟩)

/-- One token inside a comment: its closer, its body up to a newline or the closer, or a newline as an error. -/
def scanComment : Bytes → Option Piece
  | [] => none
  | Byte.pound :: Byte.rbrace :: r => some ⟨.rBracePound, [Byte.pound, Byte.rbrace], r, .outside⟩
  | Byte.newline :: r => some ⟨.error, [Byte.newline], r, .comment⟩
  | b :: r => some ⟨.comment, b :: (Bytes.cutAt endsComment r).1, (Bytes.cutAt endsComment r).2, .comment⟩

def scan : Mode → Bytes → Option Piece
  | .outside => scanOutside
  | .tag => scanTag
  | .comment => scanComment

/-- The bytes in front of the next token that belong to none: the blanks inside a tag. -/
def gap : Mode → Bytes → Bytes
  | .tag, s => s.takeWhile Byte.isBlank
  | _, _ => []

def skip : Mode → Bytes → Bytes
  | .tag, s => s.dropWhile Byte.isBlank
  | _, s => s

theorem gap_append_skip : ∀ (m : Mode) (s : Bytes), m.gap s ++ m.skip s = s
  | .tag, _ => List.takeWhile_append_dropWhile
  | .outside, _ => rfl
  | .comment, _ => rfl

theorem text_append_rest_scanOutside {s : Bytes} {p : Piece} (h : scanOutside s = some p) :
    p.text ≠ [] ∧ p.text ++ p.rest = s := by
  unfold scanOutside at h
  split at h <;> cases h <;> simp [Bytes.cutAt_append]

theorem text_append_rest_scanString (r : Bytes) :
    (scanString r).text ≠ [] ∧ (scanString r).text ++ (scanString r).rest = Byte.quote :: r := by
  have h := Bytes.cutAt_append endsString r
  unfold scanString
  split
  · rename_i r' hr
    rw [hr] at h
    exact ⟨by simp, by simpa using h⟩
  · simp [h]

theorem text_append_rest_scanWord (b : UInt8) (r : Bytes) :
    (scanWord b r).text ≠ [] ∧ (scanWord b r).text ++ (scanWord b r).rest = b :: r := by
  simp [scanWord, Bytes.cutAt_append]

theorem text_append_rest_scanTag {s : Bytes} {p : Piece} (h : scanTag s = some p) :
    p.text ≠ [] ∧ p.text ++ p.rest = s := by
  unfold scanTag at h
  split at h <;> cases h
  case h_12 => exact text_append_rest_scanString _
  case h_13 =>
    split
    · exact text_append_rest_scanWord _ _
    · simp
  all_goals simp

theorem text_append_rest_scanComment {s : Bytes} {p : Piece} (h : scanComment s = some p) :
    p.text ≠ [] ∧ p.text ++ p.rest = s := by
  unfold scanComment at h
  split at h <;> cases h <;> simp [Bytes.cutAt_append]

/-- **A token is not empty, and its bytes and the rest make up what was scanned.** -/
theorem text_append_rest {m : Mode} {s : Bytes} {p : Piece} (h : m.scan s = some p) :
    p.text ≠ [] ∧ p.text ++ p.rest = s := by
  cases m with
  | outside => exact text_append_rest_scanOutside h
  | tag => exact text_append_rest_scanTag h
  | comment => exact text_append_rest_scanComment h

theorem length_rest_lt {m : Mode} {s : Bytes} {p : Piece} (h : m.scan (m.skip s) = some p) :
    p.rest.length < s.length := by
  obtain ⟨hne, heq⟩ := text_append_rest h
  have hs := congrArg List.length (gap_append_skip m s)
  have hp := congrArg List.length heq
  have hpos := List.length_pos_iff.2 hne
  simp only [List.length_append] at hs hp
  omega

end Mode

/-- A scanner between two tokens: its mode, the offset it stands at, and the bytes still to read. -/
structure Lexer where
  mode : Mode
  offset : Nat
  rest : Bytes
deriving Repr

namespace Lexer

def ofSource (s : Bytes) : Lexer := ⟨.outside, 0, s⟩

def next? (l : Lexer) : Option (Token × Lexer) :=
  (l.mode.scan (l.mode.skip l.rest)).map fun p =>
    let start := l.offset + (l.mode.gap l.rest).length
    (⟨p.kind, start, p.text⟩, ⟨p.mode, start + p.text.length, p.rest⟩)

def size (l : Lexer) : Nat := l.offset + l.rest.length

def next (l : Lexer) : Token × Lexer :=
  match l.next? with
  | some r => r
  | none => (.eof l.size, l)

theorem length_rest_next? {l l' : Lexer} {t : Token} (h : l.next? = some (t, l')) :
    l'.rest.length < l.rest.length := by
  simp only [next?, Option.map_eq_some_iff, Prod.mk.injEq] at h
  obtain ⟨p, hp, -, rfl⟩ := h
  exact Mode.length_rest_lt hp

/-- The tokens still to come, without the `eof` token. -/
def tokens (l : Lexer) : List Token :=
  match _h : l.next? with
  | some (t, l') => t :: tokens l'
  | none => []
termination_by l.rest.length
decreasing_by exact length_rest_next? _h

def drained (l : Lexer) : Lexer := ⟨l.mode, l.size, []⟩

inductive Request
  | next
  | next?
  | rest
deriving DecidableEq, Repr

inductive Answer
  | token (t : Token)
  | token? (t? : Option Token)
  | tokens (ts : List Token)
deriving DecidableEq, Repr

def answer (l : Lexer) : Request → Answer × Lexer
  | .next => (.token l.next.1, l.next.2)
  | .next? =>
    match l.next? with
    | some (t, l') => (.token? (some t), l')
    | none => (.token? none, l)
  | .rest => (.tokens (l.tokens ++ [.eof l.size]), l.drained)

def answers : Lexer → List Request → List Answer
  | _, [] => []
  | l, r :: rs => (l.answer r).1 :: answers (l.answer r).2 rs

end Lexer

def Token.ofSource (s : Bytes) : List Token := (Lexer.ofSource s).tokens ++ [.eof s.length]

end Stencil
