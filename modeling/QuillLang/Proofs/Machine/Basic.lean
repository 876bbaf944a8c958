import QuillLang.Assembly.External
/-!
# A machine for assemblies

A machine runs an assembly one instruction at a time.  It has the activations of routines, the slots that they made and a
heap of blocks, and it watches over lifetimes: giving back what is not a live block, or using a pointer that leads to
none, is a fault.  Whatever the code leaves open (what is in fresh memory, what an undefined division or an operation on
doubles gives, what the graphics runtime answers) is up to the world outside, one `Answer` a step.
-/
namespace QuillLang

/-! ## Values -/

inductive Pointer where
  | null
  /-- A constant. -/
  | global (name : String)
  /-- A slot of an activation. -/
  | slot (activation : Nat) (register : Register)
  /-- A place in a block of the heap, so many bytes from its start. -/
  | heap (block : Nat) (offset : Int)
  deriving DecidableEq

inductive Value where
  | i1 (b : Bool)
  | i32 (n : Int32)
  | i64 (n : Int64)
  /-- A double, by its bits. -/
  | double (bits : UInt64)
  | ptr (p : Pointer)
  deriving DecidableEq

def Value.type : Value → MachineType
  | i1 _ => .i1
  | i32 _ => .i32
  | i64 _ => .i64
  | double _ => .double
  | ptr _ => .ptr

/-- The address so many elements further on.  There is no element of null. -/
def Pointer.element (p : Pointer) (index : Int64) : Pointer :=
  match p with
  | heap b offset => heap b (offset + 8 * index.toInt)
  | null | global _ | slot _ _ => p

/-! ## Memory -/

structure Buffer where
  live : Bool
  /-- The activation that has to free it or hand it on. -/
  owner : Nat
  /-- In bytes. -/
  size : Nat
  /-- The text in it. -/
  text : List UInt8
  /-- The numbers in it. -/
  cells : Nat → Int64

structure Activation where
  id : Nat
  routine : Routine
  block : Block
  /-- What is still to be run of the block; a caller stands at its call. -/
  rest : List Instr
  registers : Register → Option Value

structure Machine where
  running : Activation
  /-- The innermost caller first. -/
  callers : List Activation
  heap : List Buffer
  slots : Nat → Register → Option Value
  /-- The number of the next activation. -/
  fresh : Nat
  output : List UInt8

structure Answer where
  number : Int64
  text : List UInt8
  cells : Nat → Int64

inductive Fault where
  /-- A text is read or written through null. -/
  | nullText
  /-- An array is used outside its bounds; null has no elements. -/
  | outOfBounds
  /-- A text or an array is used through a pointer that leads neither to a constant nor to a live block. -/
  | dangling
  /-- What is given back is neither null nor a live block. -/
  | badFree
  /-- A text is written to a constant. -/
  | readOnly
  /-- The code has no meaning. -/
  | stuck
  deriving DecidableEq

inductive Halt where
  | exit (status : Int32)
  | fault (f : Fault)
  deriving DecidableEq

def stuck {α : Type} : Except Halt α := .error (.fault .stuck)

theorem exists_of_bind_ok {ε α β : Type} {x : Except ε α} {f : α → Except ε β} {y : β} (h : x >>= f = .ok y) :
    ∃ z, x = .ok z ∧ f z = .ok y := by
  cases x with
  | error e => cases h
  | ok z => exact ⟨z, rfl, h⟩

def override (f : Register → Option Value) (r : Register) (v : Value) (x : Register) : Option Value :=
  if x = r then some v else f x

namespace Machine

/-- The next instruction is done; its result, if it has one, is `v`. -/
def finish (m : Machine) (result : Option Register) (v : Value) : Machine :=
  { m with
    running := { m.running with
      rest := m.running.rest.tail
      registers := result.elim m.running.registers fun r => override m.running.registers r v } }

def eval (a : Assembly) (m : Machine) (ty : MachineType) : Operand → Except Halt Value
  | .register r =>
    match m.running.registers r with
    | some v => if v.type = ty then .ok v else stuck
    | none => stuck
  | .int n => if ty = .i64 then .ok (.i64 n) else if ty = .i32 then .ok (.i32 n.toInt32) else stuck
  | .float bits => if ty = .double then .ok (.double bits) else stuck
  | .null => if ty = .ptr then .ok (.ptr .null) else stuck
  | .global g =>
    if ty = .ptr ∧ g ∈ a.globals.map Global.name then .ok (.ptr (.global g)) else stuck

def number (a : Assembly) (m : Machine) (v : Operand) : Except Halt Int64 := do
  match ← m.eval a .i64 v with
  | .i64 n => .ok n
  | _ => stuck

def pointer (a : Assembly) (m : Machine) (v : Operand) : Except Halt Pointer := do
  match ← m.eval a .ptr v with
  | .ptr p => .ok p
  | _ => stuck

def setSlot (m : Machine) (activation : Nat) (r : Register) (v : Value) : Machine :=
  { m with slots := fun i => if i = activation then override (m.slots i) r v else m.slots i }

def setBuffer (m : Machine) (b : Nat) (k : Buffer) : Machine := { m with heap := m.heap.set b k }

/-- The block and the index of the array element that a pointer leads to. -/
def cell (m : Machine) (p : Pointer) : Except Halt (Nat × Buffer × Nat) :=
  match p with
  | .heap b offset =>
    match m.heap[b]? with
    | none => .error (.fault .dangling)
    | some k =>
      if k.live = false then .error (.fault .dangling)
      else if 0 ≤ offset ∧ offset + 8 ≤ k.size then .ok (b, k, (offset / 8).toNat)
      else .error (.fault .outOfBounds)
  | .null => .error (.fault .outOfBounds)
  | .global _ | .slot _ _ => .error (.fault .dangling)

def read (m : Machine) (ty : MachineType) (p : Pointer) : Except Halt Value :=
  match p with
  | .slot i r =>
    match m.slots i r with
    | some v => if v.type = ty then .ok v else stuck
    | none => stuck
  | .null | .global _ | .heap _ _ => do
    let (_, k, i) ← m.cell p
    if ty = .i64 then .ok (.i64 (k.cells i)) else stuck

def write (m : Machine) (p : Pointer) (v : Value) : Except Halt Machine :=
  match p with
  | .slot i r => .ok (m.setSlot i r v)
  | .null | .global _ | .heap _ _ => do
    let (b, k, i) ← m.cell p
    match v with
    | .i64 n => .ok (m.setBuffer b { k with cells := fun j => if j = i then n else k.cells j })
    | _ => stuck

/-- Does a pointer lead neither to a constant nor to the start of a live block?  Null leads nowhere, and does not pretend
to. -/
def dangles (a : Assembly) (m : Machine) : Pointer → Bool
  | .null => false
  | .global g => g ∉ a.globals.map Global.name
  | .slot _ _ => true
  | .heap b offset => !(m.heap[b]?.any fun k => k.live && offset == 0)

def text (a : Assembly) (m : Machine) : Pointer → Except Halt (List UInt8)
  | .null => .error (.fault .nullText)
  | .global g =>
    match a.globals.find? fun c => c.name == g with
    | some c => .ok ((Utf8.bytes c.content).takeWhile (· ≠ 0))
    | none => .error (.fault .dangling)
  | .slot _ _ => .error (.fault .dangling)
  | .heap b offset =>
    match m.heap[b]? with
    | some k => if k.live = true ∧ offset = 0 then .ok k.text else .error (.fault .dangling)
    | none => .error (.fault .dangling)

def setText (m : Machine) (p : Pointer) (text : List UInt8) : Except Halt Machine :=
  match p with
  | .null => .error (.fault .nullText)
  | .global _ => .error (.fault .readOnly)
  | .slot _ _ => .error (.fault .dangling)
  | .heap b offset =>
    match m.heap[b]? with
    | some k =>
      if k.live = true ∧ offset = 0 then .ok (m.setBuffer b { k with text := text }) else .error (.fault .dangling)
    | none => .error (.fault .dangling)

def malloc (w : Answer) (m : Machine) (size : Int64) : Machine × Value :=
  ({ m with heap := m.heap ++ [⟨true, m.running.id, size.toUInt64.toNat, w.text, w.cells⟩] },
    .ptr (.heap m.heap.length 0))

def free (m : Machine) (p : Pointer) : Except Halt Machine :=
  match p with
  | .null => .ok m
  | .heap b offset =>
    match m.heap[b]? with
    | some k =>
      if k.live = true ∧ offset = 0 then .ok (m.setBuffer b { k with live := false }) else .error (.fault .badFree)
    | none => .error (.fault .badFree)
  | .global _ | .slot _ _ => .error (.fault .badFree)

end Machine
end QuillLang
