import QuillLang.Assembly.Basic
import QuillLang.Assembly.Symbol
/-!
# Listings

An assembly as LLVM text, line by line: a header, the constants, the declarations, then each routine with its blocks.  A
branch shows the label of its target.
-/
namespace QuillLang

namespace Operand

/-- Sixteen hexadecimal digits. -/
def bitsText (bits : UInt64) : String :=
  String.ofList ((List.range 16).map fun i => Symbol.hexDigit (bits.toNat / Nat.pow 16 (15 - i) % 16))

def text : Operand → String
  | register r => r.text
  | int n => Decimal.ofInt64 n
  | float bits => "0x" ++ bitsText bits
  | null => "null"
  | global name => "@" ++ Symbol.ofName name

end Operand

def typedText (arg : MachineType × Operand) : String :=
  arg.1.text ++ " " ++ arg.2.text

namespace Operation

def variadicText : Option (List MachineType) → String
  | none => ""
  | some fixed => "(" ++ String.join (fixed.map fun ty => ty.text ++ ", ") ++ "...) "

def text : Operation → String
  | alloca ty => "alloca " ++ ty.text
  | load ty address => "load " ++ ty.text ++ ", ptr " ++ address.text
  | store ty value address => "store " ++ ty.text ++ " " ++ value.text ++ ", ptr " ++ address.text
  | element ty base index => "getelementptr " ++ ty.text ++ ", ptr " ++ base.text ++ ", i64 " ++ index.text
  | arith op ty lhs rhs => op.text ++ " " ++ ty.text ++ " " ++ lhs.text ++ ", " ++ rhs.text
  | compare op ty lhs rhs => "icmp " ++ op.text ++ " " ++ ty.text ++ " " ++ lhs.text ++ ", " ++ rhs.text
  | cast op value source target => op.text ++ " " ++ source.text ++ " " ++ value.text ++ " to " ++ target.text
  | call callee ret args variadic =>
    "call " ++ ret.text ++ " " ++ variadicText variadic ++ (Operand.global callee).text ++ "(" ++
      ", ".intercalate (args.map typedText) ++ ")"

end Operation

def Instr.text (i : Instr) : String :=
  match i.result with
  | some r => r.text ++ " = " ++ i.operation.text
  | none => i.operation.text

/-- The label of a block; of several blocks with one id, the last one's. -/
def Routine.labelOf (r : Routine) (id : BlockId) : String :=
  match r.blocks.reverse.find? fun b => b.id == id with
  | some b => b.label
  | none => id.text

/-- A terminator as a listing shows it; a block that is still open cannot be left. -/
def Routine.terminatorText (r : Routine) : Option Terminator → String
  | some (.ret (some value)) => "ret " ++ typedText value
  | some (.ret none) => "ret void"
  | some (.br target) => "br label %" ++ r.labelOf target
  | some (.condBr cond yes no) =>
    "br i1 " ++ cond.text ++ ", label %" ++ r.labelOf yes ++ ", label %" ++ r.labelOf no
  | some .unreachable | none => "unreachable"

def Routine.blockLines (r : Routine) (b : Block) : List String :=
  (b.label ++ ":") :: (b.instrs.map fun i => "  " ++ i.text) ++ ["  " ++ r.terminatorText b.terminator]

def Routine.defineLines (r : Routine) : List String :=
  let params := ", ".intercalate (r.params.map fun p => p.2.text ++ " " ++ p.1.text)
  ("define " ++ r.ret.text ++ " @" ++ Symbol.ofName r.name ++ "(" ++ params ++ ") \x7b") ::
    r.blocks.flatMap r.blockLines ++ ["\x7d"]

def Routine.declareLine (r : Routine) : String :=
  let params := r.params.map (fun p => p.2.text) ++ (if r.isVariadic then ["..."] else [])
  "declare " ++ r.ret.text ++ " @" ++ Symbol.ofName r.name ++ "(" ++ ", ".intercalate params ++ ")"

def Global.line (g : Global) : String :=
  "@" ++ Symbol.ofName g.name ++ " = private unnamed_addr constant [" ++ Decimal.ofNat g.byteLength ++ " x i8] c\"" ++
    Symbol.escape g.content ++ "\\00\""

namespace Assembly

def headerLines (a : Assembly) : List String :=
  ["; ModuleID = '" ++ a.name ++ "'", "source_filename = \"" ++ Symbol.escape a.sourceName ++ "\""] ++
    match a.targetTriple with
    | some triple => ["target triple = \"" ++ Symbol.escape triple ++ "\""]
    | none => []

/-- Lines set off from what stands before by an empty one, if there are any. -/
def paragraph : List String → List String
  | [] => []
  | ls => "" :: ls

def lines (a : Assembly) : List String :=
  a.headerLines ++ paragraph (a.globals.map Global.line) ++
    paragraph ((a.routines.filter (·.isExternal)).map Routine.declareLine) ++
    (a.routines.filter (!·.isExternal)).flatMap fun r => "" :: r.defineLines

/-- The listing, every line closed by a linefeed. -/
def text (a : Assembly) : String :=
  String.join (a.lines.map fun l => l ++ "\n")

end Assembly
end QuillLang
