/-!
# Bytes — text as it is read and written

Templates, values and paths are byte strings and need not be valid UTF-8.  This module names the bytes the template
syntax uses, the byte classes, and the one way to cut a byte string in two (`cutAt`).  All classes and case changes
know ASCII only: a byte from `0x80` on is in no class and keeps its value.
-/
namespace Stencil

abbrev Bytes := List UInt8

def utf8 (s : String) : Bytes := s.toUTF8.data.toList

namespace Byte

@[match_pattern] abbrev tab : UInt8 := 0x09
@[match_pattern] abbrev newline : UInt8 := 0x0A
@[match_pattern] abbrev formFeed : UInt8 := 0x0C
@[match_pattern] abbrev carriageReturn : UInt8 := 0x0D
@[match_pattern] abbrev space : UInt8 := 0x20
@[match_pattern] abbrev bang : UInt8 := 0x21
@[match_pattern] abbrev quote : UInt8 := 0x22
@[match_pattern] abbrev pound : UInt8 := 0x23
@[match_pattern] abbrev percent : UInt8 := 0x25
@[match_pattern] abbrev lparen : UInt8 := 0x28
@[match_pattern] abbrev rparen : UInt8 := 0x29
@[match_pattern] abbrev comma : UInt8 := 0x2C
@[match_pattern] abbrev dot : UInt8 := 0x2E
@[match_pattern] abbrev slash : UInt8 := 0x2F
@[match_pattern] abbrev equals : UInt8 := 0x3D
@[match_pattern] abbrev backslash : UInt8 := 0x5C
@[match_pattern] abbrev lbrace : UInt8 := 0x7B
@[match_pattern] abbrev bar : UInt8 := 0x7C
@[match_pattern] abbrev rbrace : UInt8 := 0x7D
@[match_pattern] abbrev tilde : UInt8 := 0x7E

def within (b lo hi : UInt8) : Bool := Nat.ble lo.toNat b.toNat && Nat.ble b.toNat hi.toNat

def isUpper (b : UInt8) : Bool := within b 0x41 0x5A

def isLower (b : UInt8) : Bool := within b 0x61 0x7A

def isDigit (b : UInt8) : Bool := within b 0x30 0x39

/-- Blanks separate the tokens of a tag: space, tab and carriage return.  A newline is not one of them. -/
def isBlank (b : UInt8) : Bool := b == space || b == tab || b == carriageReturn

def isSpace (b : UInt8) : Bool := isBlank b || b == newline || b == formFeed

def isNameStart (b : UInt8) : Bool := isUpper b || isLower b || b == 0x5F

def isNamePart (b : UInt8) : Bool := isNameStart b || isDigit b

def toUpper (b : UInt8) : UInt8 := if isLower b then b - 0x20 else b

def toLower (b : UInt8) : UInt8 := if isUpper b then b + 0x20 else b

def isPrintable (b : UInt8) : Bool := within b 0x20 0x7E

def hexDigit (n : Nat) : Char := Char.ofNat (if n < 10 then 0x30 + n else 0x57 + n)

/-- A byte as messages show it: itself where it can be printed, else an escape. -/
def escape (b : UInt8) : List Char :=
  if b = tab then ['\\', 't']
  else if b = carriageReturn then ['\\', 'r']
  else if b = newline then ['\\', 'n']
  else if b = 0x27 then ['\\', '\'']
  else if b = quote then ['\\', '"']
  else if b = backslash then ['\\', '\\']
  else if isPrintable b then [Char.ofNat b.toNat]
  else ['\\', 'x', hexDigit (b.toNat / 16), hexDigit (b.toNat % 16)]

end Byte

namespace Bytes

def escape (s : Bytes) : String := String.ofList (s.flatMap Byte.escape)

def isName : Bytes → Bool
  | [] => false
  | b :: r => Byte.isNameStart b && r.all Byte.isNamePart

/-- Cuts a byte string before its first ending that satisfies `stop`; without one nothing is left over. -/
def cutAt (stop : Bytes → Bool) : Bytes → Bytes × Bytes
  | [] => ([], [])
  | b :: r =>
    if stop (b :: r) then ([], b :: r)
    else
      let cut := cutAt stop r
      (b :: cut.1, cut.2)

theorem cutAt_append (stop : Bytes → Bool) : ∀ s : Bytes, (cutAt stop s).1 ++ (cutAt stop s).2 = s
  | [] => rfl
  | b :: r => by
    rw [cutAt]
    split
    · rfl
    · simp [cutAt_append stop r]

/-- The parts of a byte string between the separators `sep`, always at least one. -/
def split (sep : UInt8) : Bytes → List Bytes
  | [] => [[]]
  | b :: r =>
    if b = sep then [] :: split sep r
    else
      match split sep r with
      | [] => [[b]]
      | part :: parts => (b :: part) :: parts

def lines (s : Bytes) : List Bytes := split Byte.newline s

def join (sep : Bytes) : List Bytes → Bytes
  | [] => []
  | [s] => s
  | s :: t :: r => s ++ (sep ++ join sep (t :: r))

def toUpper (s : Bytes) : Bytes := s.map Byte.toUpper

def toLower (s : Bytes) : Bytes := s.map Byte.toLower

def trim (s : Bytes) : Bytes := ((s.dropWhile Byte.isSpace).reverse.dropWhile Byte.isSpace).reverse

/-- Upper case for a byte at the start of a word, lower case for all others; `start` tells whether a word starts
here. -/
def titleFrom (start : Bool) : Bytes → Bytes
  | [] => []
  | b :: r => (if start then Byte.toUpper b else Byte.toLower b) :: titleFrom (Byte.isSpace b) r

def title (s : Bytes) : Bytes := titleFrom true s

/-- Drops the carriage return of every line end written as carriage return and newline. -/
def normalizeNewlines : Bytes → Bytes
  | [] => []
  | [b] => [b]
  | Byte.carriageReturn :: Byte.newline :: r => Byte.newline :: normalizeNewlines r
  | b :: c :: r => b :: normalizeNewlines (c :: r)

end Bytes
end Stencil
