import Mathlib.Algebra.Ring.Nat
import QuillLang.Lowering.Slot
import QuillLang.Proofs.Machine.Library
import QuillLang.Proofs.Meaning.Basic
/-!
# What expressions mean

The value of an expression is a number, the outcome of a comparison or a text, which is a list of bytes.  This is its value
said without regard to how it is compiled, and where it has one: a sum with a text in it joins texts, a comparison with a
text in it compares their bytes, and all else is done with numbers of 64 bits that wrap around.  Where a number is wanted a
text is read as a decimal, where a text is wanted a number is written as one.
-/
namespace QuillLang

inductive Datum where
  | number (n : Int64)
  | outcome (b : Bool)
  | text (s : List UInt8)
  deriving DecidableEq

/-- No block of memory is larger than this. -/
def maxSize : Nat := 2 ^ 63 - 1

namespace Datum

def isText : Datum → Bool
  | text _ => true
  | number _ | outcome _ => false

def toNumber : Datum → Int64
  | number n => n
  | outcome b => if b then 1 else 0
  | text s => Library.readNumber s

def toText : Datum → List UInt8
  | number n => Utf8.bytes (Decimal.ofInt64 n)
  | outcome b => Utf8.bytes (Decimal.ofInt64 (if b then 1 else 0))
  | text s => s

def ofText (s : List UInt8) : Option Datum := if s.length < maxSize then some (text s) else none

end Datum

namespace BinaryOp

def ofNumbers (x y : Int64) : BinaryOp → Option Datum
  | add => some (.number (x + y))
  | sub => some (.number (x - y))
  | mul => some (.number (x * y))
  | div => if y = 0 ∨ (x = Int64.minValue ∧ y = -1) then none else some (.number (x / y))
  | rem => if y = 0 ∨ (x = Int64.minValue ∧ y = -1) then none else some (.number (x % y))
  | eq => some (.outcome (decide (x = y)))
  | ne => some (.outcome (decide (x ≠ y)))
  | lt => some (.outcome (decide (x < y)))
  | le => some (.outcome (decide (x ≤ y)))
  | gt => some (.outcome (decide (y < x)))
  | ge => some (.outcome (decide (y ≤ x)))

/-- An operator of which one side is a text.  Texts are joined and compared; the other operators want numbers. -/
def ofTexts (x y : Datum) : BinaryOp → Option Datum
  | add => Datum.ofText (x.toText ++ y.toText)
  | eq => some (.outcome (decide (x.toText = y.toText)))
  | ne => some (.outcome (decide (x.toText ≠ y.toText)))
  | lt => some (.outcome (decide (x.toText < y.toText)))
  | le => some (.outcome (decide (x.toText ≤ y.toText)))
  | gt => some (.outcome (decide (y.toText < x.toText)))
  | ge => some (.outcome (decide (y.toText ≤ x.toText)))
  | op => op.ofNumbers x.toNumber y.toNumber

def datum (op : BinaryOp) (x y : Datum) : Option Datum :=
  if x.isText || y.isText then op.ofTexts x y else op.ofNumbers x.toNumber y.toNumber

end BinaryOp

namespace Expr

/-- The value of an expression among variables and arrays.  It has none where it reads what has none, where a quotient is not
defined, where texts are too long to be joined, and where it asks for a sine or cosine. -/
def datum (vars : String → Option Datum) (elements : String → Int64 → Option Int64) : Expr → Option Datum
  | number n _ => some (.number n)
  | string s _ => some (.text (Utf8.bytes s))
  | var x _ => vars x
  | index array position _ => do
    let i ← position.datum vars elements
    let n ← elements array.name i.toNumber
    return .number n
  | binary op left right _ => do
    let x ← left.datum vars elements
    let y ← right.datum vars elements
    op.datum x y
  | neg operand _ => do
    let x ← operand.datum vars elements
    return .number (-x.toNumber)
  | trig _ _ _ _ => none
  | random seed limit _ => do
    let x ← seed.datum vars elements
    let y ← limit.datum vars elements
    BinaryOp.rem.ofNumbers (randomBits x.toNumber) y.toNumber

def literals : Expr → List String
  | string s _ => [s]
  | number _ _ | var _ _ => []
  | index _ position _ => position.literals
  | binary _ left right _ => left.literals ++ right.literals
  | neg operand _ => operand.literals
  | trig _ degrees scale _ => degrees.literals ++ scale.literals
  | random seed limit _ => seed.literals ++ limit.literals

end Expr

/-! ## The state of a machine as the variables of an expression -/

namespace Machine

def buffer? (m : Machine) (slot : Slot) : Option Buffer :=
  match m.slots m.running.id slot.register with
  | some (.ptr (.heap b offset)) => if offset = 0 then m.heap[b]?.filter Buffer.live else none
  | _ => none

/-- The value of a variable.  A text is a live block with room for a closing zero. -/
def scalar? (m : Machine) (slot : Slot) : Option Datum :=
  match slot.kind with
  | .int =>
    match m.slots m.running.id slot.register with
    | some (.i64 n) => some (.number n)
    | _ => none
  | .string => do
    let k ← m.buffer? slot
    if k.text.length < k.size then some (.text k.text) else none
  | .array => none

/-- The element of an array, which is a live block that reaches as far. -/
def element? (m : Machine) (slot : Slot) (i : Int64) : Option Int64 := do
  let k ← m.buffer? slot
  if 0 ≤ i.toInt ∧ 8 * i.toInt + 8 ≤ k.size then some (k.cells i.toInt.toNat) else none

/-- The value of an expression whose variables have the slots `frames`. -/
def datum? (m : Machine) (frames : Frames) (e : Expr) : Option Datum :=
  e.datum (fun x => frames.lookup x >>= m.scalar?) fun x i => frames.lookup x >>= fun slot => m.element? slot i

variable {m : Machine} {slot : Slot} {k : Buffer}

theorem exists_of_buffer? (h : m.buffer? slot = some k) :
    ∃ b, m.slots m.running.id slot.register = some (.ptr (.heap b 0)) ∧ m.heap[b]? = some k ∧ k.live = true := by
  unfold buffer? at h
  split at h
  · rename_i b offset hslot
    split at h
    · rename_i hzero
      obtain ⟨hk, hlive⟩ := Option.filter_eq_some_iff.1 h
      exact ⟨b, hzero ▸ hslot, hk, hlive⟩
    · cases h
  · cases h

end Machine
end QuillLang
