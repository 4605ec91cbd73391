import Stencil.Bytes
/-!
# Utf8 — reading byte strings as text

`Utf8.decode` reads a byte string as characters, one U+FFFD for every longest ill-formed stretch that could still have
become a character; `Utf8.isValid` says whether there is none, and `Utf8.encodeChar` writes one character.
-/
namespace Stencil
namespace Utf8

def encodeChar (c : Char) : Bytes :=
  let n := c.toNat
  if n < 0x80 then [UInt8.ofNat n]
  else if n < 0x800 then [UInt8.ofNat (0xC0 + n / 0x40), UInt8.ofNat (0x80 + n % 0x40)]
  else if n < 0x10000 then
    [UInt8.ofNat (0xE0 + n / 0x1000), UInt8.ofNat (0x80 + n / 0x40 % 0x40), UInt8.ofNat (0x80 + n % 0x40)]
  else
    [UInt8.ofNat (0xF0 + n / 0x40000), UInt8.ofNat (0x80 + n / 0x1000 % 0x40),
     UInt8.ofNat (0x80 + n / 0x40 % 0x40), UInt8.ofNat (0x80 + n % 0x40)]

/-- The number of bytes that a leading byte announces after itself; nothing for a byte that starts no character. -/
def following? (lead : UInt8) : Option Nat :=
  if Byte.within lead 0x00 0x7F then some 0
  else if Byte.within lead 0xC2 0xDF then some 1
  else if Byte.within lead 0xE0 0xEF then some 2
  else if Byte.within lead 0xF0 0xF4 then some 3
  else none

/-- Whether `b` may stand second after `lead`: no overlong form, no surrogate, nothing past U+10FFFF. -/
def isSecond (lead b : UInt8) : Bool :=
  if lead = 0xE0 then Byte.within b 0xA0 0xBF
  else if lead = 0xED then Byte.within b 0x80 0x9F
  else if lead = 0xF0 then Byte.within b 0x90 0xBF
  else if lead = 0xF4 then Byte.within b 0x80 0x8F
  else Byte.within b 0x80 0xBF

def isLater (b : UInt8) : Bool := Byte.within b 0x80 0xBF

/-- The bytes of `r`, at most `n`, that go on with a character whose bytes so far end before them. -/
def later : Nat → Bytes → Bytes
  | n + 1, b :: r => if isLater b then b :: later n r else []
  | _, _ => []

def continuation (lead : UInt8) (r : Bytes) : Bytes :=
  match following? lead, r with
  | some (n + 1), b :: r => if isSecond lead b then b :: later n r else []
  | _, _ => []

def codePoint (lead : UInt8) (rest : Bytes) : Nat :=
  let first := match rest.length with
    | 0 => lead.toNat
    | 1 => lead.toNat - 0xC0
    | 2 => lead.toNat - 0xE0
    | _ => lead.toNat - 0xF0
  rest.foldl (fun n b => n * 0x40 + (b.toNat - 0x80)) first

def front? (lead : UInt8) (r : Bytes) : Option Char :=
  if following? lead = some (continuation lead r).length then some (Char.ofNat (codePoint lead (continuation lead r)))
  else none

/-- The characters of a byte string, U+FFFD for what is ill-formed. -/
def decode : Bytes → List Char
  | [] => []
  | b :: r => (front? b r).getD (Char.ofNat 0xFFFD) :: decode (r.drop (continuation b r).length)
termination_by s => s.length
decreasing_by simp only [List.length_drop, List.length_cons]; omega

def isValid : Bytes → Bool
  | [] => true
  | b :: r => (front? b r).isSome && isValid (r.drop (continuation b r).length)
termination_by s => s.length
decreasing_by simp only [List.length_drop, List.length_cons]; omega

def toText (s : Bytes) : String := String.ofList (decode s)

end Utf8
end Stencil
