import QuillLang.Lowering.Context
/-!
# Lowering expressions

The value of an expression is a number, the outcome of a comparison or a text.  Where a number is wanted, an outcome is
widened to one or zero and a text is read as a decimal; where a text is wanted, a number is written as one.  A sum with a
text in it joins texts, a comparison with a text in it compares texts.
-/
namespace QuillLang

inductive Lowered where
  | int (value : Operand)
  | bool (value : Operand)
  | text (handle : TextHandle)
  deriving DecidableEq

def Lowered.isText : Lowered → Bool
  | text _ => true
  | int _ | bool _ => false

namespace Builder

/-! ## Conversions -/

def asInt : Lowered → Build Nat Operand
  | .int n => return n
  | .bool b => cast .zext b .i1 .i64
  | .text t => do
    let n ← call "atol" [t.value]
    release t
    return n

/-- The text of a number.  Twenty digits and sign, and the closing zero, fit in 21 bytes. -/
def decimalText (n : Operand) : Build Nat TextHandle := do
  let buffer ← call "malloc" [.int 21]
  let format ← stringConstant "%lld"
  let _ ← callVariadic "sprintf" [buffer, .global format] [(.i64, n)]
  return .owned buffer

def asText : Lowered → Build Nat TextHandle
  | .text t => return t
  | .int n => decimalText n
  | .bool b => do
    let n ← asInt (.bool b)
    decimalText n

def concat (lhs rhs : TextHandle) : Build Nat TextHandle := do
  let leftLength ← call "strlen" [lhs.value]
  let rightLength ← call "strlen" [rhs.value]
  let length ← intOp .add leftLength rightLength
  let size ← intOp .add length (.int 1)
  let buffer ← call "malloc" [size]
  let _ ← call "strcpy" [buffer, lhs.value]
  let _ ← call "strcat" [buffer, rhs.value]
  release lhs
  release rhs
  return .owned buffer

/-- Be done with a value. -/
def discard : Lowered → Build Nat Unit
  | .text t => release t
  | .int _ | .bool _ => return ()

/-- The address of an array's element. -/
def elementAddress (array : Slot) (index : Operand) : Build Nat Operand := do
  let base ← load .ptr (.register array.register)
  element .i64 base index

end Builder

/-! ## Operators -/

/-- What an operator between numbers is lowered to. -/
inductive OperatorClass where
  | arith (op : ArithOp)
  | compare (op : CompareOp)
  deriving DecidableEq

def BinaryOp.operatorClass : BinaryOp → OperatorClass
  | add => .arith .add
  | sub => .arith .sub
  | mul => .arith .mul
  | div => .arith .sdiv
  | rem => .arith .srem
  | eq => .compare .eq
  | ne => .compare .ne
  | lt => .compare .slt
  | le => .compare .sle
  | gt => .compare .sgt
  | ge => .compare .sge

def TrigFunc.routine : TrigFunc → String
  | sin => "sin"
  | cos => "cos"

namespace Builder

def numberOperator (op : BinaryOp) (lhs rhs : Lowered) : Build Nat Lowered := do
  let l ← asInt lhs
  let r ← asInt rhs
  match op.operatorClass with
  | .arith a => return .int (← intOp a l r)
  | .compare c => return .bool (← compare c .i64 l r)

def compareTexts (op : CompareOp) (lhs rhs : Lowered) : Build Nat Lowered := do
  let l ← asText lhs
  let r ← asText rhs
  let order ← call "strcmp" [l.value, r.value]
  release l
  release r
  return .bool (← compare op .i32 order (.int 0))

def joinTexts (lhs rhs : Lowered) : Build Nat Lowered := do
  let l ← asText lhs
  let r ← asText rhs
  return .text (← concat l r)

def binaryOperator (op : BinaryOp) (lhs rhs : Lowered) : Build Nat Lowered :=
  if lhs.isText || rhs.isText then
    match op.operatorClass with
    | .arith .add => joinTexts lhs rhs
    | .compare c => compareTexts c lhs rhs
    | .arith _ => numberOperator op lhs rhs
  else numberOperator op lhs rhs

/-- The bits of the double nearest to the number of radians in a degree. -/
def radiansPerDegree : UInt64 := 0x3F91DF46A2529D39

/-- The sine or cosine of an angle in degrees, scaled and cut to an integer. -/
def trig (func : TrigFunc) (degrees scale : Operand) : Build Nat Operand := do
  let angle ← cast .sitofp degrees .i64 .double
  let radians ← arith .fmul .double angle (.float radiansPerDegree)
  let unit ← call func.routine [radians]
  let factor ← cast .sitofp scale .i64 .double
  let scaled ← arith .fmul .double unit factor
  cast .fptosi scaled .double .i64

/-- One step of a linear congruence, its middle bits reduced below the limit. -/
def random (seed limit : Operand) : Build Nat Operand := do
  let product ← intOp .mul seed (.int 1103515245)
  let next ← intOp .add product (.int 12345)
  let high ← intOp .lshr next (.int 16)
  let masked ← intOp .and high (.int 0x7FFF)
  intOp .srem masked limit

end Builder

namespace Lower

def loadSlot (slot : Slot) (span : Span) : Lower Lowered :=
  match slot.kind with
  | .int => do return .int (← build (Builder.load .i64 (.register slot.register)))
  | .string => do return .text (.borrowed (← build (Builder.load .ptr (.register slot.register))))
  | .array => throw (.kindMismatch slot.name .scalar slot.kind span)

def expr : Expr → Lower Lowered
  | .number value _ => return .int (.int value)
  | .string text _ => do
    let constant ← build (Builder.stringConstant text)
    return .text (.borrowed (.global constant))
  | .var name span => do
    let slot ← slotOf ⟨name, span⟩
    loadSlot slot span
  | .index array position _ => do
    let slot ← arraySlot array
    let value ← expr position
    let index ← build (Builder.asInt value)
    let address ← build (Builder.elementAddress slot index)
    return .int (← build (Builder.load .i64 address))
  | .binary op left right _ => do
    let lhs ← expr left
    let rhs ← expr right
    build (Builder.binaryOperator op lhs rhs)
  | .neg operand _ => do
    let value ← expr operand
    let n ← build (Builder.asInt value)
    return .int (← build (Builder.intOp .sub (.int 0) n))
  | .trig func degrees scale _ => do
    let d ← expr degrees
    let d ← build (Builder.asInt d)
    let s ← expr scale
    let s ← build (Builder.asInt s)
    return .int (← build (Builder.trig func d s))
  | .random seed limit _ => do
    let a ← expr seed
    let a ← build (Builder.asInt a)
    let l ← expr limit
    let l ← build (Builder.asInt l)
    return .int (← build (Builder.random a l))

def int (e : Expr) : Lower Operand := do
  let value ← expr e
  build (Builder.asInt value)

def text (e : Expr) : Lower TextHandle := do
  let value ← expr e
  build (Builder.asText value)

/-- Lower a test: a comparison as it is, any other value by whether it is not zero. -/
def condition (e : Expr) : Lower Operand := do
  match ← expr e with
  | .bool b => return b
  | other =>
    let n ← build (Builder.asInt other)
    build (Builder.compare .ne .i64 n (.int 0))

end Lower
end QuillLang
