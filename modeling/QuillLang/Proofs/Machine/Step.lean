import QuillLang.Proofs.Machine.Library
/-!
# Running an assembly

One step runs the next instruction of the running activation, or the terminator of its block.  A run begins at `main` and
is as long as the list of answers that the world outside gives.
-/
namespace QuillLang

/-! ## Numbers -/

def undefinedQuotient (x y : Int64) : Bool := y == 0 || (x == Int64.minValue && y == -1)

def ArithOp.apply (w : Answer) (op : ArithOp) (x y : Int64) : Int64 :=
  match op with
  | add => x + y
  | sub => x - y
  | mul => x * y
  | sdiv => if undefinedQuotient x y then w.number else x / y
  | srem => if undefinedQuotient x y then w.number else x % y
  | and => x &&& y
  | lshr => if y.toUInt64 < 64 then (x.toUInt64 >>> y.toUInt64).toInt64 else w.number
  | fmul => w.number

def CompareOp.holds (op : CompareOp) (x y : Int) : Bool :=
  match op with
  | eq => x == y
  | ne => x != y
  | slt => x < y
  | sle => x ≤ y
  | sgt => y < x
  | sge => y ≤ x

/-- Numbers are operated on, doubles are left to the world. -/
def Value.arith (w : Answer) (op : ArithOp) : Value → Value → Except Halt Value
  | .i64 x, .i64 y => .ok (.i64 (op.apply w x y))
  | .double _, .double _ => .ok (.double w.number.toUInt64)
  | _, _ => stuck

def Value.compare (op : CompareOp) : Value → Value → Except Halt Value
  | .i64 x, .i64 y => .ok (.i1 (op.holds x.toInt y.toInt))
  | .i32 x, .i32 y => .ok (.i1 (op.holds x.toInt y.toInt))
  | _, _ => stuck

def Value.cast (w : Answer) (op : CastOp) : Value → Except Halt Value
  | .i1 b => if op = .zext then .ok (.i64 (if b then 1 else 0)) else stuck
  | .i64 n =>
    if op = .trunc then .ok (.i32 n.toInt32)
    else if op = .sitofp then .ok (.double w.number.toUInt64)
    else stuck
  | .double _ => if op = .fptosi then .ok (.i64 w.number) else stuck
  | _ => stuck

namespace Machine

/-! ## Calls -/

def arguments (params : List (Register × MachineType)) (vs : List Value) (x : Register) : Option Value :=
  ((params.zip vs).find? fun p => p.1.1 = x).map Prod.snd

def enter (m : Machine) (f : Routine) (vs : List Value) : Except Halt Machine :=
  match f.blocks with
  | [] => stuck
  | k :: _ =>
    if vs.length = f.params.length then
      .ok { m with
        running := ⟨m.fresh, f, k, k.instrs, arguments f.params vs⟩
        callers := m.running :: m.callers
        fresh := m.fresh + 1 }
    else stuck

def callExternal (a : Assembly) (w : Answer) (m : Machine) (result : Option Register) (callee : String)
    (ret : MachineType) (vs : List Value) : Except Halt Machine :=
  if callee = "malloc" then
    match vs with
    | [.i64 size] => .ok ((m.malloc w size).1.finish result (m.malloc w size).2)
    | _ => stuck
  else if callee = "free" then
    match vs with
    | [.ptr p] => do
      let m' ← m.free p
      .ok (m'.finish result (.ptr .null))
    | _ => stuck
  else if callee = "exit" then
    match vs with
    | [.i32 status] => .error (.exit status)
    | _ => stuck
  else do
    let (m', v) ← m.callLibrary a w callee ret vs
    .ok (m'.finish result v)

def call (a : Assembly) (w : Answer) (m : Machine) (result : Option Register) (callee : String) (ret : MachineType)
    (args : List (MachineType × Operand)) : Except Halt Machine := do
  let vs ← args.mapM fun x => m.eval a x.1 x.2
  match a.routine? callee with
  | none => stuck
  | some f => if f.isExternal then m.callExternal a w result callee ret vs else m.enter f vs

/-! ## One step -/

def perform (a : Assembly) (w : Answer) (m : Machine) (i : Instr) : Except Halt Machine :=
  match i.operation with
  | .alloca _ =>
    match i.result with
    | some r => .ok (m.finish (some r) (.ptr (.slot m.running.id r)))
    | none => stuck
  | .load ty address => do
    let p ← m.pointer a address
    let v ← m.read ty p
    .ok (m.finish i.result v)
  | .store ty value address => do
    let v ← m.eval a ty value
    let p ← m.pointer a address
    let m' ← m.write p v
    .ok (m'.finish none v)
  | .element _ base index => do
    let p ← m.pointer a base
    let n ← m.number a index
    .ok (m.finish i.result (.ptr (p.element n)))
  | .arith op ty lhs rhs => do
    let x ← m.eval a ty lhs
    let y ← m.eval a ty rhs
    let v ← x.arith w op y
    .ok (m.finish i.result v)
  | .compare op ty lhs rhs => do
    let x ← m.eval a ty lhs
    let y ← m.eval a ty rhs
    let v ← x.compare op y
    .ok (m.finish i.result v)
  | .cast op value source _ => do
    let x ← m.eval a source value
    let v ← x.cast w op
    .ok (m.finish i.result v)
  | .call callee ret args _ => m.call a w i.result callee ret args

def goto (m : Machine) (target : BlockId) : Except Halt Machine :=
  match m.running.routine.blocks.find? fun k => k.id == target with
  | some k => .ok { m with running := { m.running with block := k, rest := k.instrs } }
  | none => stuck

/-- A block that is returned is from now on the caller's to free. -/
def handOver (heap : List Buffer) (owner : Nat) : Value → List Buffer
  | .ptr (.heap b _) => heap.modify b fun k => { k with owner := owner }
  | _ => heap

/-- Leave the running activation with a value.  The program ends with its outermost activation. -/
def leave (m : Machine) (v : Value) : Except Halt Machine :=
  match m.callers with
  | [] =>
    match v with
    | .i32 status => .error (.exit status)
    | _ => stuck
  | f :: callers =>
    match f.rest with
    | [] => stuck
    | i :: _ => .ok (finish { m with running := f, callers := callers, heap := handOver m.heap f.id v } i.result v)

def conclude (a : Assembly) (m : Machine) : Except Halt Machine :=
  match m.running.block.terminator with
  | some (.br target) => m.goto target
  | some (.condBr cond yes no) => do
    match ← m.eval a .i1 cond with
    | .i1 b => m.goto (if b then yes else no)
    | _ => stuck
  | some (.ret (some (ty, value))) => do
    let v ← m.eval a ty value
    m.leave v
  | some (.ret none) | some .unreachable | none => stuck

def step (a : Assembly) (w : Answer) (m : Machine) : Except Halt Machine :=
  match m.running.rest with
  | i :: _ => m.perform a w i
  | [] => m.conclude a

end Machine

/-! ## Runs -/

namespace Assembly

def start (a : Assembly) : Except Halt Machine :=
  match a.routine? "main" with
  | none => stuck
  | some f =>
    match f.blocks with
    | [] => stuck
    | k :: _ => .ok ⟨⟨0, f, k, k.instrs, fun _ => none⟩, [], [], fun _ _ => none, 1, []⟩

def run (a : Assembly) (ws : List Answer) : Except Halt Machine := do
  let m ← a.start
  ws.foldlM (fun m w => m.step a w) m

end Assembly
end QuillLang
