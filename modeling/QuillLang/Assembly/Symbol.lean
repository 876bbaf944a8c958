import QuillLang.Text.Utf8
/-!
# Escapes and symbols

Between quotes an assembly listing holds printable ASCII only: the quote, the backslash and every other byte are written as
a backslash and two hexadecimal digits.  A name made of letters, digits and a few signs stands as it is; any other is put
between quotes.
-/
namespace QuillLang
namespace Symbol

def hexDigit (n : Nat) : Char :=
  if n < 10 then Char.ofNat ('0'.toNat + n) else Char.ofNat ('A'.toNat + (n - 10))

/-- Does a byte stand for itself between quotes? -/
def isPlainByte (b : UInt8) : Bool :=
  0x20 ≤ b && b ≤ 0x7E && b != 0x22 && b != 0x5C

def escapeByte (b : UInt8) : List Char :=
  if isPlainByte b then [Char.ofNat b.toNat]
  else ['\\', hexDigit (b.toNat / 16), hexDigit (b.toNat % 16)]

/-- A text as it stands between quotes. -/
def escape (s : String) : String :=
  String.ofList ((Utf8.bytes s).flatMap escapeByte)

def isDigitByte (b : UInt8) : Bool :=
  0x30 ≤ b && b ≤ 0x39

/-- May the byte stand in a name without quotes? -/
def isNameByte (b : UInt8) : Bool :=
  isDigitByte b || (0x41 ≤ b && b ≤ 0x5A) || (0x61 ≤ b && b ≤ 0x7A) || b == 0x2E || b == 0x5F || b == 0x2D || b == 0x24

/-- Does a name stand without quotes?  It must not be empty, nor begin with a digit. -/
def isPlain (s : String) : Bool :=
  match Utf8.bytes s with
  | [] => false
  | b :: bs => !isDigitByte b && (b :: bs).all isNameByte

def ofName (s : String) : String :=
  if isPlain s then s else "\"" ++ escape s ++ "\""

end Symbol
end QuillLang
