import QuillLang.Assembly.Basic
import QuillLang.Table
/-!
# Building assemblies

An assembly is built from front to back.  The builder numbers registers, blocks and constants, keeps the routine and the
block that are open, and knows how every routine named so far is called and what constant holds a text.  Stack slots are
asked for anywhere in a body and are collected at the head of the routine's first block, so that every slot is there before
any code that uses it.  Code emitted while no block is open is lost, and so is a second terminator.
-/
namespace QuillLang

structure CallSignature where
  params : List MachineType
  ret : MachineType
  isVariadic : Bool
  deriving DecidableEq

/-- Numbers that are given out one after the other. -/
class Counter (ν : Type) where
  /-- The number that is given out after so many others. -/
  ofNat : Nat → ν
  next : ν → ν
  toNat : ν → Nat
  next_ofNat (n : Nat) : next (ofNat n) = ofNat (n + 1)
  ofNat_toNat (x : ν) : ofNat (toNat x) = x

namespace Counter

instance nat : Counter Nat := ⟨id, (· + 1), id, fun _ => rfl, fun _ => rfl⟩

/-- After the last number comes the first. -/
instance word : Counter UInt32 :=
  ⟨UInt32.ofNat, (· + 1), UInt32.toNat, fun n => (UInt32.ofNat_add n 1).symm, fun _ => UInt32.ofNat_toNat⟩

@[simp] theorem ofNat_nat (n : Nat) : (ofNat n : Nat) = n := rfl

@[simp] theorem next_nat (n : Nat) : next n = n + 1 := rfl

@[simp] theorem toNat_nat (n : Nat) : toNat n = n := rfl

end Counter

/-- A builder that counts in `ν`.  A program is lowered with numbers that do not run out. -/
structure Builder (ν : Type := Nat) [Counter ν] where
  nextRegister : ν
  nextBlock : ν
  nextString : ν
  assembly : Assembly
  /-- The routine being built. -/
  routine : Option Routine
  /-- The block being built. -/
  block : Option Block
  /-- Slots and their first values, for the head of the routine. -/
  prologue : List Instr
  signatures : Table CallSignature
  /-- The constants by the texts they hold. -/
  strings : Table String
  counted : nextString = Counter.ofNat assembly.globals.length
  interned : ∀ content name, strings.get? content = some name ↔ ⟨name, content⟩ ∈ assembly.globals
  deriving DecidableEq

/-- What a block is made of. -/
inductive Entry where
  | instr (i : Instr)
  | terminator (t : Terminator)

/-- A request for code, and the builder that it is made of. -/
structure Request (ν : Type := Nat) [Counter ν] where
  builder : Builder ν
  entry : Entry

/-- A step of building: what it does, and the requests for code that it makes.  A builder says nothing when it loses code,
so the requests cannot be told from what the step does. -/
structure Build (ν : Type) [Counter ν] (α : Type) where
  run : Builder ν → α × Builder ν
  requests : Builder ν → List (Request ν)

namespace Build
variable {ν α β : Type} [Counter ν] {b : Builder ν}

protected def pure (a : α) : Build ν α := ⟨fun b => (a, b), fun _ => []⟩

protected def bind (x : Build ν α) (f : α → Build ν β) : Build ν β where
  run b := let (a, b') := x.run b; (f a).run b'
  requests b := x.requests b ++ (f (x.run b).1).requests (x.run b).2

instance : Monad (Build ν) where
  pure := Build.pure
  bind := Build.bind

instance : LawfulMonad (Build ν) :=
  .mk' (Build ν) (fun _ => congrArg (mk _) (funext fun _ => List.append_nil _)) (fun _ _ => rfl) fun _ _ _ =>
    congrArg (mk _) (funext fun _ => List.append_assoc _ _ _)

instance : MonadStateOf (Builder ν) (Build ν) where
  get := ⟨fun b => (b, b), fun _ => []⟩
  set b := ⟨fun _ => ((), b), fun _ => []⟩
  modifyGet g := ⟨g, fun _ => []⟩

@[simp] theorem run_pure (a : α) : (pure a : Build ν α).run b = (a, b) := rfl

@[simp] theorem run_bind (x : Build ν α) (f : α → Build ν β) : (x >>= f).run b = (f (x.run b).1).run (x.run b).2 := rfl

@[simp] theorem run_get : (get : Build ν (Builder ν)).run b = (b, b) := rfl

@[simp] theorem run_modifyGet (g : Builder ν → α × Builder ν) : (modifyGet g : Build ν α).run b = g b := rfl

@[simp] theorem run_modify (g : Builder ν → Builder ν) : (modify g : Build ν Unit).run b = ((), g b) := rfl

def request (entry : Entry) (step : Builder ν → Builder ν) : Build ν Unit := ⟨fun b => ((), step b), fun b => [⟨b, entry⟩]⟩

end Build

namespace Builder
variable {ν : Type} [Counter ν]
open Counter (ofNat next toNat)

def new (name : String) : Builder ν where
  nextRegister := ofNat 0
  nextBlock := ofNat 0
  nextString := ofNat 0
  assembly := .new name
  routine := none
  block := none
  prologue := []
  signatures := .empty
  strings := .empty
  counted := rfl
  interned _ _ := ⟨nofun, nofun⟩

def setSourceName (name : String) : Build ν Unit :=
  modify fun b => { b with assembly := { b.assembly with sourceName := name } }

def setTargetTriple (triple : Option String) : Build ν Unit :=
  modify fun b => { b with assembly := { b.assembly with targetTriple := triple } }

def freshRegister : Build ν Register :=
  modifyGet fun b => (⟨toNat b.nextRegister⟩, { b with nextRegister := next b.nextRegister })

def freshBlock : Build ν BlockId :=
  modifyGet fun b => (⟨toNat b.nextBlock⟩, { b with nextBlock := next b.nextBlock })

/-! ## Names -/

/-- Declare a routine that is defined elsewhere.  A name that is known stays as it is. -/
def declareExternal (name : String) (sig : CallSignature) : Build ν Unit :=
  modify fun b =>
    if b.signatures.contains name then b
    else
      let r : Routine := ⟨name, sig.params.map fun ty => (⟨0⟩, ty), sig.ret, [], true, sig.isVariadic⟩
      { b with
        assembly := { b.assembly with routines := b.assembly.routines ++ [r] }
        signatures := b.signatures.insert name sig }

/-- Make known how a routine is called that is defined later. -/
def register (name : String) (params : List MachineType) (ret : MachineType) : Build ν Unit :=
  modify fun b => { b with signatures := b.signatures.insert name ⟨params, ret, false⟩ }

def signature? (name : String) : Build ν (Option CallSignature) := do
  return (← get).signatures.get? name

theorem interned_insert {strings : Table String} {globals : List Global}
    (h : ∀ content name, strings.get? content = some name ↔ ⟨name, content⟩ ∈ globals) {content : String}
    (hnone : strings.get? content = none) (name c n : String) :
    (strings.insert content name).get? c = some n ↔ ⟨n, c⟩ ∈ globals ++ [⟨name, content⟩] := by
  rw [Table.get?_insert, List.mem_append, List.mem_singleton, ← h]
  split
  · rename_i hc
    simp [hc, hnone, eq_comm]
  · rename_i hc
    simp [hc]

/-- A constant for a text that has none. -/
def intern (b : Builder ν) (content : String) (h : b.strings.get? content = none) : Builder ν :=
  let name := ".str." ++ Decimal.ofNat (toNat b.nextString)
  { b with
    nextString := next b.nextString
    assembly := { b.assembly with globals := b.assembly.globals ++ [⟨name, content⟩] }
    strings := b.strings.insert content name
    counted := by rw [b.counted, Counter.next_ofNat, List.length_append, List.length_singleton]
    interned := interned_insert b.interned h name }

/-- The constants say how they were numbered, and what texts they hold. -/
theorem strings_eq {b b' : Builder ν} (h : b.assembly.globals = b'.assembly.globals) :
    b.nextString = b'.nextString ∧ b.strings = b'.strings := by
  refine ⟨by rw [b.counted, b'.counted, h], Table.ext_get? fun content => Option.ext fun name => ?_⟩
  rw [b.interned, b'.interned, h]

/-- The name of the constant that holds a text; equal texts share one. -/
def stringConstant (content : String) : Build ν String :=
  modifyGet fun b =>
    match h : b.strings.get? content with
    | some name => (name, b)
    | none => (".str." ++ Decimal.ofNat (toNat b.nextString), b.intern content h)

theorem stringConstant_cases (b : Builder ν) (content : String) :
    (∃ name, ⟨name, content⟩ ∈ b.assembly.globals ∧ (stringConstant content).run b = (name, b)) ∨
      ∃ h, (stringConstant content).run b = (".str." ++ Decimal.ofNat (toNat b.nextString), b.intern content h) := by
  unfold stringConstant
  rw [Build.run_modifyGet]
  split
  · rename_i name h
    exact .inl ⟨name, (b.interned content name).1 h, rfl⟩
  · rename_i h
    exact .inr ⟨h, rfl⟩

/-- The constant of a text is there. -/
theorem mem_globals_stringConstant (content : String) (b : Builder ν) :
    (⟨((stringConstant content).run b).1, content⟩ : Global) ∈ ((stringConstant content).run b).2.assembly.globals := by
  obtain ⟨name, hmem, hrun⟩ | ⟨hnone, hrun⟩ := b.stringConstant_cases content <;> rw [hrun]
  · exact hmem
  · exact List.mem_append_right _ (List.mem_singleton.2 rfl)

/-! ## Routines and blocks -/

/-- The open block, if any, becomes part of the open routine. -/
def closeBlock (b : Builder ν) : Builder ν :=
  match b.block with
  | none => b
  | some block =>
    { b with
      block := none
      routine := b.routine.map fun r => { r with blocks := r.blocks ++ [block] } }

/-- A routine with code put before all others. -/
def withPrologue (r : Routine) (prologue : List Instr) : Routine :=
  match r.blocks with
  | [] => r
  | entry :: rest => { r with blocks := { entry with instrs := prologue ++ entry.instrs } :: rest }

/-- The open routine, if any, becomes part of the assembly. -/
def closeRoutine (b : Builder ν) : Builder ν :=
  let c := b.closeBlock
  match c.routine with
  | none => { c with prologue := [] }
  | some r =>
    { c with
      prologue := []
      routine := none
      assembly := { c.assembly with routines := c.assembly.routines ++ [withPrologue r c.prologue] } }

theorem closeBlock_eq (b : Builder ν) : b.closeBlock = { b with
    block := none, routine := b.routine.map fun r => { r with blocks := r.blocks ++ b.block.toList } } := by
  obtain ⟨-, -, -, -, routine, block, -, -, -, -, -⟩ := b
  cases routine <;> cases block <;> simp [closeBlock]

/-- The open routine as it is once it is closed. -/
def closing (b : Builder ν) : Option Routine :=
  b.routine.map fun r => withPrologue { r with blocks := r.blocks ++ b.block.toList } b.prologue

theorem closeRoutine_eq (b : Builder ν) : b.closeRoutine = { b with
    block := none, routine := none, prologue := []
    assembly := { b.assembly with routines := b.assembly.routines ++ b.closing.toList } } := by
  rw [closeRoutine, closeBlock_eq]
  cases h : b.routine <;> simp [closing, h]

def finishRoutine : Build ν Unit :=
  modify closeRoutine

/-- The assembly, the open routine included. -/
def finish (b : Builder ν) : Assembly :=
  b.closeRoutine.assembly

def freshParams : List MachineType → Build ν (List (Register × MachineType))
  | [] => return []
  | ty :: rest => do
    let r ← freshRegister
    let more ← freshParams rest
    return (r, ty) :: more

/-- Open a routine and its first block; the registers hold the arguments. -/
def startRoutine (name : String) (params : List MachineType) (ret : MachineType) : Build ν (List Register) := do
  finishRoutine
  let regs ← freshParams params
  register name params ret
  let entry ← freshBlock
  modify fun b =>
    { b with
      routine := some ⟨name, regs, ret, [], false, false⟩
      block := some ⟨entry, "entry", [], none⟩ }
  return regs.map Prod.fst

/-- A new block id, and the label made from it. -/
def createBlock (name : String) : Build ν (BlockId × String) := do
  let id ← freshBlock
  return (id, name ++ "." ++ Decimal.ofNat id.index)

def startBlock (id : BlockId) (label : String) : Build ν Unit :=
  modify fun b => { b.closeBlock with block := some ⟨id, label, [], none⟩ }

theorem startBlock_eq (b : Builder ν) (id : BlockId) (label : String) : ((startBlock id label).run b).2 = { b with
    block := some ⟨id, label, [], none⟩
    routine := b.routine.map fun r => { r with blocks := r.blocks ++ b.block.toList } } := by
  show { b.closeBlock with block := some ⟨id, label, [], none⟩ } = _
  rw [closeBlock_eq]

/-- Is there no block that takes a terminator? -/
def isTerminated (b : Builder ν) : Bool :=
  match b.block with
  | none => true
  | some block => block.terminator.isSome

/-! ## Code -/

def emit (result : Option Register) (operation : Operation) : Build ν Unit :=
  .request (.instr ⟨result, operation⟩) fun b =>
    { b with block := b.block.map fun k => { k with instrs := k.instrs ++ [⟨result, operation⟩] } }

def emitResult (operation : Operation) : Build ν Operand := do
  let r ← freshRegister
  emit (some r) operation
  return .register r

def alloca (ty : MachineType) : Build ν Register := do
  let slot ← freshRegister
  modify fun b => { b with prologue := b.prologue ++ [⟨some slot, .alloca ty⟩] }
  return slot

/-- The value a slot has before any code of the body runs. -/
def initSlot (ty : MachineType) (value : Operand) (slot : Register) : Build ν Unit :=
  modify fun b => { b with prologue := b.prologue ++ [⟨none, .store ty value (.register slot)⟩] }

def load (ty : MachineType) (address : Operand) : Build ν Operand :=
  emitResult (.load ty address)

def store (ty : MachineType) (value address : Operand) : Build ν Unit :=
  emit none (.store ty value address)

def element (ty : MachineType) (base index : Operand) : Build ν Operand :=
  emitResult (.element ty base index)

def arith (op : ArithOp) (ty : MachineType) (lhs rhs : Operand) : Build ν Operand :=
  emitResult (.arith op ty lhs rhs)

def intOp (op : ArithOp) (lhs rhs : Operand) : Build ν Operand :=
  arith op .i64 lhs rhs

def compare (op : CompareOp) (ty : MachineType) (lhs rhs : Operand) : Build ν Operand :=
  emitResult (.compare op ty lhs rhs)

def cast (op : CastOp) (value : Operand) (source target : MachineType) : Build ν Operand :=
  emitResult (.cast op value source target)

/-- Arguments with the types of a list of parameters; what goes beyond it counts as numbers. -/
def typeArgs : List MachineType → List Operand → List (MachineType × Operand)
  | _, [] => []
  | [], v :: vs => (.i64, v) :: typeArgs [] vs
  | ty :: tys, v :: vs => (ty, v) :: typeArgs tys vs

/-- Call a routine with arguments for its parameters and `extra` ones beyond them.  The result of a routine that has none
is the null pointer; a routine that was never named has none. -/
def callVariadic (callee : String) (fixed : List Operand) (extra : List (MachineType × Operand)) : Build ν Operand := do
  let sig := ((← get).signatures.get? callee).getD ⟨[], .void, false⟩
  let operation : Operation :=
    .call callee sig.ret (typeArgs sig.params fixed ++ extra) (if sig.isVariadic then some sig.params else none)
  if sig.ret = .void then
    emit none operation
    return .null
  else emitResult operation

def call (callee : String) (args : List Operand) : Build ν Operand :=
  callVariadic callee args []

/-- Close the open block; the first terminator stays. -/
def terminate (t : Terminator) : Build ν Unit :=
  .request (.terminator t) fun b =>
    { b with block := b.block.map fun k => { k with terminator := k.terminator.or (some t) } }

def ret (value : Option (MachineType × Operand)) : Build ν Unit := terminate (.ret value)

def br (target : BlockId) : Build ν Unit := terminate (.br target)

def condBr (cond : Operand) (yes no : BlockId) : Build ν Unit := terminate (.condBr cond yes no)

def unreachable : Build ν Unit := terminate .unreachable

end Builder
end QuillLang
