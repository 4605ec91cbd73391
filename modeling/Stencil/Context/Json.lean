import Stencil.Utf8
import Stencil.Value
/-!
# Json — bindings written as a JSON object

`Json.bindings?` reads a JSON text that is one object whose members are strings and booleans, and nothing else, into
its members in order.  The text is cut into tokens first (`Json.tokens?`); since no member may be an object, a list or
a number, members then follow each other in one flat pattern.  Strings follow the standard strictly: control
characters must be escaped, and surrogates come in pairs.
-/
namespace Stencil
namespace Json

@[match_pattern] abbrev colon : UInt8 := 0x3A
@[match_pattern] abbrev letterA : UInt8 := 0x61
@[match_pattern] abbrev letterE : UInt8 := 0x65
@[match_pattern] abbrev letterF : UInt8 := 0x66
@[match_pattern] abbrev letterL : UInt8 := 0x6C
@[match_pattern] abbrev letterR : UInt8 := 0x72
@[match_pattern] abbrev letterS : UInt8 := 0x73
@[match_pattern] abbrev letterT : UInt8 := 0x74
@[match_pattern] abbrev letterU : UInt8 := 0x75

inductive Token
  | lbrace | rbrace | colon | comma
  | value (v : Value)
deriving DecidableEq, Repr

def hexValue? (b : UInt8) : Option Nat :=
  if Byte.isDigit b then some (b.toNat - 0x30)
  else if Byte.within b 0x41 0x46 then some (b.toNat - 0x37)
  else if Byte.within b 0x61 0x66 then some (b.toNat - 0x57)
  else none

def unit? (a b c d : UInt8) : Option Nat := do
  return (((← hexValue? a) * 16 + (← hexValue? b)) * 16 + (← hexValue? c)) * 16 + (← hexValue? d)

def isHighSurrogate (n : Nat) : Bool := Nat.ble 0xD800 n && Nat.ble n 0xDBFF

def isLowSurrogate (n : Nat) : Bool := Nat.ble 0xDC00 n && Nat.ble n 0xDFFF

/-- The bytes that stand for themselves after a backslash, and the letters that stand for others there. -/
def escapes : List (UInt8 × UInt8) :=
  [(Byte.quote, Byte.quote), (Byte.backslash, Byte.backslash), (Byte.slash, Byte.slash), (0x62, 0x08),
   (0x66, Byte.formFeed), (0x6E, Byte.newline), (0x72, Byte.carriageReturn), (0x74, Byte.tab)]

def encodeUnit? (n : Nat) : Option Bytes :=
  if isHighSurrogate n || isLowSurrogate n then none else some (Utf8.encodeChar (Char.ofNat n))

def encodePair? (high low : Nat) : Option Bytes :=
  if isHighSurrogate high && isLowSurrogate low then
    some (Utf8.encodeChar (Char.ofNat (0x10000 + (high - 0xD800) * 0x400 + (low - 0xDC00))))
  else none

def isSpace (b : UInt8) : Bool := Byte.isBlank b || b == Byte.newline

mutual

def tokens? : Bytes → Option (List Token)
  | [] => some []
  | Byte.lbrace :: r => (tokens? r).map (.lbrace :: ·)
  | Byte.rbrace :: r => (tokens? r).map (.rbrace :: ·)
  | colon :: r => (tokens? r).map (.colon :: ·)
  | Byte.comma :: r => (tokens? r).map (.comma :: ·)
  | letterT :: letterR :: letterU :: letterE :: r => (tokens? r).map (.value (.bool true) :: ·)
  | letterF :: letterA :: letterL :: letterS :: letterE :: r => (tokens? r).map (.value (.bool false) :: ·)
  | Byte.quote :: r => stringTokens? [] r
  | b :: r => if isSpace b then tokens? r else none
termination_by structural s => s

/-- The tokens of a text that starts inside a string; `read` is the string so far, in pieces, the latest first. -/
def stringTokens? (read : List Bytes) : Bytes → Option (List Token)
  | [] => none
  | Byte.quote :: r => (tokens? r).map (.value (.string read.reverse.flatten) :: ·)
  | Byte.backslash :: letterU :: a :: b :: c :: d :: Byte.backslash :: letterU :: e :: f :: g :: h :: r => do
    let high ← unit? a b c d
    if isHighSurrogate high then
      stringTokens? ((← encodePair? high (← unit? e f g h)) :: read) r
    else
      stringTokens? ((← encodeUnit? high) :: read) (Byte.backslash :: letterU :: e :: f :: g :: h :: r)
  | Byte.backslash :: letterU :: a :: b :: c :: d :: r => do
    stringTokens? ((← encodeUnit? (← unit? a b c d)) :: read) r
  | Byte.backslash :: e :: r => do stringTokens? ([← escapes.lookup e] :: read) r
  | b :: r => if Byte.within b 0x00 0x1F || b == Byte.backslash then none else stringTokens? ([b] :: read) r
termination_by structural s => s

end

/-- The members of an object, up to its closing brace, which must end the text. -/
def members? : List Token → Option (List (Bytes × Value))
  | [.value (.string k), .colon, .value v, .rbrace] => some [(k, v)]
  | .value (.string k) :: .colon :: .value v :: .comma :: r => (members? r).map ((k, v) :: ·)
  | _ => none

/-- The members of an object of strings and booleans, in order. -/
def bindings? (s : Bytes) : Option (List (Bytes × Value)) :=
  match tokens? s with
  | some [.lbrace, .rbrace] => some []
  | some (.lbrace :: ts) => members? ts
  | _ => none

end Json
end Stencil
