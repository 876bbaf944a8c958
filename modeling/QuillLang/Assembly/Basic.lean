import QuillLang.Source.Position
import QuillLang.Text.Utf8
/-!
# Assemblies

An assembly is what a program is compiled to: constant texts and routines, each routine a list of blocks, each block a list
of instructions and one terminator.  Values live in registers that are written once, in stack slots and on the heap.  The
forms are those of LLVM with untyped pointers.
-/
namespace QuillLang

structure Register where
  index : Nat
  deriving DecidableEq

def Register.text (r : Register) : String := "%v" ++ Decimal.ofNat r.index

structure BlockId where
  index : Nat
  deriving DecidableEq

def BlockId.text (b : BlockId) : String := "bb" ++ Decimal.ofNat b.index

inductive MachineType where
  | void
  /-- The result of a comparison. -/
  | i1
  | i32
  /-- A number of the language. -/
  | i64
  | double
  /-- The address of a text, of an array or of a slot. -/
  | ptr
  deriving DecidableEq

namespace MachineType

def text : MachineType → String
  | void => "void"
  | i1 => "i1"
  | i32 => "i32"
  | i64 => "i64"
  | double => "double"
  | ptr => "ptr"

end MachineType

inductive Operand where
  | register (r : Register)
  | int (n : Int64)
  /-- A double, by its bits. -/
  | float (bits : UInt64)
  | null
  /-- The address of a constant or a routine. -/
  | global (name : String)
  deriving DecidableEq

/-! ## Instructions -/

inductive ArithOp where
  | add
  | sub
  | mul
  | sdiv
  | srem
  | and
  | lshr
  | fmul
  deriving DecidableEq

def ArithOp.text : ArithOp → String
  | add => "add"
  | sub => "sub"
  | mul => "mul"
  | sdiv => "sdiv"
  | srem => "srem"
  | and => "and"
  | lshr => "lshr"
  | fmul => "fmul"

inductive CompareOp where
  | eq
  | ne
  | slt
  | sle
  | sgt
  | sge
  deriving DecidableEq

def CompareOp.text : CompareOp → String
  | eq => "eq"
  | ne => "ne"
  | slt => "slt"
  | sle => "sle"
  | sgt => "sgt"
  | sge => "sge"

inductive CastOp where
  | zext
  | trunc
  | sitofp
  | fptosi
  deriving DecidableEq

def CastOp.text : CastOp → String
  | zext => "zext"
  | trunc => "trunc"
  | sitofp => "sitofp"
  | fptosi => "fptosi"

inductive Operation where
  /-- A new stack slot. -/
  | alloca (ty : MachineType)
  | load (ty : MachineType) (address : Operand)
  | store (ty : MachineType) (value address : Operand)
  /-- The address of an array's element. -/
  | element (ty : MachineType) (base index : Operand)
  | arith (op : ArithOp) (ty : MachineType) (lhs rhs : Operand)
  | compare (op : CompareOp) (ty : MachineType) (lhs rhs : Operand)
  | cast (op : CastOp) (value : Operand) (source target : MachineType)
  /-- A call; a variadic callee's fixed parameter types are repeated at the call. -/
  | call (callee : String) (ret : MachineType) (args : List (MachineType × Operand))
      (variadic : Option (List MachineType))
  deriving DecidableEq

structure Instr where
  /-- The register the instruction writes, if it has a result. -/
  result : Option Register
  operation : Operation
  deriving DecidableEq

namespace Instr

def callee? (i : Instr) : Option String :=
  match i.operation with
  | .call f _ _ _ => some f
  | _ => none

end Instr

inductive Terminator where
  | ret (value : Option (MachineType × Operand))
  | br (target : BlockId)
  | condBr (cond : Operand) (yes no : BlockId)
  | unreachable
  deriving DecidableEq

namespace Terminator

def successors : Terminator → List BlockId
  | br t => [t]
  | condBr _ yes no => [yes, no]
  | ret _ | unreachable => []

end Terminator

/-! ## Blocks, routines, assemblies -/

structure Block where
  id : BlockId
  label : String
  instrs : List Instr
  /-- A block that has none is still open. -/
  terminator : Option Terminator
  deriving DecidableEq

structure Routine where
  name : String
  params : List (Register × MachineType)
  ret : MachineType
  blocks : List Block
  /-- Declared here, defined elsewhere. -/
  isExternal : Bool
  isVariadic : Bool
  deriving DecidableEq

namespace Routine

def instrs (r : Routine) : List Instr := r.blocks.flatMap Block.instrs

end Routine

/-- A constant text, closed by a zero byte that is not part of it. -/
structure Global where
  name : String
  content : String
  deriving DecidableEq

/-- The size of a constant in bytes, the closing zero included. -/
def Global.byteLength (g : Global) : Nat := (Utf8.bytes g.content).length + 1

structure Assembly where
  name : String
  sourceName : String
  targetTriple : Option String
  routines : List Routine
  globals : List Global
  deriving DecidableEq

namespace Assembly

def new (name : String) : Assembly := ⟨name, name, none, [], []⟩

def routine? (a : Assembly) (name : String) : Option Routine :=
  a.routines.find? fun r => r.name == name

def countCalls (a : Assembly) (callee : String) : Nat :=
  (a.routines.flatMap Routine.instrs).countP fun i => i.callee? == some callee

end Assembly
end QuillLang
