/-!
# Decimal numerals

Numbers are written in base ten with no leading zero, and a minus sign in front of a negative one.  Reading is wider than
writing: a sign of either kind may stand in front, zeros may lead, and the value has to fit in 64 bits, which is the range
of every number of the language.
-/
namespace QuillLang
namespace Decimal

/-- The digits of a natural number, most significant first. -/
def ofNat (n : Nat) : String :=
  String.ofList (Nat.toDigits 10 n)

/-- An integer with a minus sign when it is negative. -/
def ofInt (n : Int) : String :=
  if n < 0 then "-" ++ ofNat n.natAbs else ofNat n.natAbs

/-- A 64-bit number, written as the integer it stands for. -/
def ofInt64 (n : Int64) : String :=
  ofInt n.toInt

/-! ## Reading -/

/-- The value of a run of digits read after `acc`; nothing when a character is no digit. -/
def digits? (acc : Nat) : List Char → Option Nat
  | [] => some acc
  | c :: cs => if '0' ≤ c ∧ c ≤ '9' then digits? (acc * 10 + (c.toNat - '0'.toNat)) cs else none

/-- A numeral without sign: one digit at least. -/
def unsigned? : List Char → Option Nat
  | [] => none
  | cs => digits? 0 cs

/-- A numeral with an optional sign. -/
def signed? : List Char → Option Int
  | '-' :: cs => (unsigned? cs).map fun n => -(n : Int)
  | '+' :: cs => (unsigned? cs).map fun n => (n : Int)
  | cs => (unsigned? cs).map fun n => (n : Int)

/-- Does the integer fit in 64 bits, two's complement? -/
def fitsInt64 (n : Int) : Bool :=
  Int64.minValue.toInt ≤ n && n ≤ Int64.maxValue.toInt

/-- The 64-bit number a text denotes, if it denotes one. -/
def readInt64? (text : String) : Option Int64 :=
  match signed? text.toList with
  | some n => if fitsInt64 n then some (Int64.ofInt n) else none
  | none => none

end Decimal
end QuillLang
