import QuillLang.Assembly.External
import QuillLang.Lowering.Slot
/-!
# The discipline of emitted code

Inside a block a value lives in a register, between blocks it lives in a slot.  The discipline says what is known of every
register and of every slot between two instructions, and which instruction may come next:
- a register that holds a buffer in hand is freed, stored or returned once, and a block is left with no buffer in hand;
- a slot whose buffer was freed is stale, may not be read, and is filled again before the block is left;
- a slot is filled only when it is stale, or when it is known to hold nothing yet.

The last point needs a notion of time.  Every slot has a birth and every block a mark; at a point with mark `m`, the slots
born at `m` or later hold nothing.
-/
namespace QuillLang

/-! ## What is known -/

inductive Content where
  /-- A value of a type; a pointer that is no more than that is of no use. -/
  | plain (ty : MachineType)
  /-- Null, or a buffer in hand. -/
  | owned
  /-- What a slot holds. -/
  | view (slot : Register)
  /-- The address of an element of the array a slot holds. -/
  | cell (slot : Register)
  /-- A text lent by the caller. -/
  | argument
  deriving DecidableEq

namespace Content

def type : Content → MachineType
  | plain ty => ty
  | owned | view _ | cell _ | argument => .ptr

def isText : Content → Bool
  | owned | view _ | argument => true
  | plain _ | cell _ => false

end Content

inductive SlotStatus where
  /-- Its `alloca` is still to come. -/
  | absent
  /-- What it holds was freed or never stored. -/
  | stale
  | ready
  deriving DecidableEq

structure Known where
  content : Register → Option Content
  status : Register → SlotStatus
  /-- Slots born at the mark or later hold nothing. -/
  mark : Nat
  /-- Control never gets here. -/
  dead : Bool

namespace Known

def atBlock (mark : Nat) (dead : Bool) : Known := ⟨fun _ => none, fun _ => .ready, mark, dead⟩

def define (t : Known) (r : Register) (c : Content) : Known :=
  { t with content := fun x => if x = r then some c else t.content x }

def setStatus (t : Known) (s : Register) (st : SlotStatus) : Known :=
  { t with status := fun x => if x = s then st else t.status x }

def forget (t : Known) (s : Register) : Known :=
  { t with
    content := fun x =>
      if t.content x = some (.view s) ∨ t.content x = some (.cell s) then some (.plain .ptr) else t.content x }

def release (t : Known) (s : Register) : Known := (t.forget s).setStatus s .stale

def fill (t : Known) (s r : Register) (birth : Nat) : Known :=
  { ((t.define r (.plain .ptr)).forget s).setStatus s .ready with mark := max t.mark (birth + 1) }

def receive (t : Known) (result : Option Register) (c : Content) : Known :=
  match result with
  | none => t
  | some r => t.define r c

def HasType (t : Known) (v : Operand) (ty : MachineType) : Prop :=
  match v with
  | .register r => ∃ c, t.content r = some c ∧ c.type = ty
  | .int _ => ty = .i64 ∨ ty = .i32
  | .float _ => ty = .double
  | .null | .global _ => ty = .ptr

def Readable (t : Known) (v : Operand) : Prop :=
  match v with
  | .register r => ∃ c, t.content r = some c ∧ c.isText = true
  | .global _ => True
  | .int _ | .float _ | .null => False

structure Settled (t : Known) : Prop where
  empty : ∀ r, t.content r ≠ some .owned
  ready : ∀ s, t.status s = .ready

@[simp] theorem content_define (t : Known) (r x : Register) (c : Content) :
    (t.define r c).content x = if x = r then some c else t.content x := rfl

@[simp] theorem status_define (t : Known) (r : Register) (c : Content) : (t.define r c).status = t.status := rfl

@[simp] theorem mark_define (t : Known) (r : Register) (c : Content) : (t.define r c).mark = t.mark := rfl

@[simp] theorem dead_define (t : Known) (r : Register) (c : Content) : (t.define r c).dead = t.dead := rfl

@[simp] theorem content_setStatus (t : Known) (s : Register) (st : SlotStatus) :
    (t.setStatus s st).content = t.content := rfl

@[simp] theorem status_setStatus (t : Known) (s x : Register) (st : SlotStatus) :
    (t.setStatus s st).status x = if x = s then st else t.status x := rfl

@[simp] theorem mark_setStatus (t : Known) (s : Register) (st : SlotStatus) : (t.setStatus s st).mark = t.mark := rfl

@[simp] theorem dead_setStatus (t : Known) (s : Register) (st : SlotStatus) : (t.setStatus s st).dead = t.dead := rfl

theorem content_forget (t : Known) (s x : Register) :
    (t.forget s).content x =
      if t.content x = some (.view s) ∨ t.content x = some (.cell s) then some (.plain .ptr) else t.content x := rfl

@[simp] theorem status_forget (t : Known) (s : Register) : (t.forget s).status = t.status := rfl

@[simp] theorem mark_forget (t : Known) (s : Register) : (t.forget s).mark = t.mark := rfl

@[simp] theorem dead_forget (t : Known) (s : Register) : (t.forget s).dead = t.dead := rfl

theorem owned_of_forget {t : Known} {s x : Register} (h : (t.forget s).content x = some .owned) :
    t.content x = some .owned := by
  rw [content_forget] at h
  split at h
  · cases h
  · exact h

theorem HasType.register {t : Known} {r : Register} {c : Content} (h : t.content r = some c) :
    t.HasType (.register r) c.type := ⟨c, h, rfl⟩

theorem hasType_define (t : Known) (r : Register) (c : Content) : (t.define r c).HasType (.register r) c.type :=
  ⟨c, by simp, rfl⟩

theorem hasType_int (t : Known) (n : Int64) : t.HasType (.int n) .i64 := Or.inl rfl

theorem hasType_int32 (t : Known) (n : Int64) : t.HasType (.int n) .i32 := Or.inr rfl

end Known

/-! ## The rules -/

def ArithOp.type : ArithOp → MachineType
  | fmul => .double
  | add | sub | mul | sdiv | srem | and | lshr => .i64

def CastOp.source : CastOp → MachineType
  | zext => .i1
  | trunc | sitofp => .i64
  | fptosi => .double

def CastOp.target : CastOp → MachineType
  | zext | fptosi => .i64
  | trunc => .i32
  | sitofp => .double

def External.names : List String := (External.core ++ External.graphics).map External.name

/-- The external routines that write a text to their first argument. -/
def External.writers : List String := ["strcpy", "strcat", "sprintf"]

structure Setting where
  frame : Frame
  signature : String → Option CallSignature
  /-- The type the routine returns. -/
  ret : MachineType
  birth : Register → Nat
  /-- May control go to a block from a point with a mark? -/
  enters : BlockId → Nat → Prop
  /-- No return stands at a greater mark. -/
  retMark : Nat
  /-- Some variable with a buffer is first declared after a return of the same loop. -/
  early : Bool

namespace Setting

/-- A register that neither the block nor a slot has used, numbered above those that the block has. -/
structure Fresh (S : Setting) (t : Known) (r : Register) : Prop where
  content : t.content r = none
  slot : ∀ slot ∈ S.frame, slot.register ≠ r
  newest : ∀ x c, t.content x = some c → x.index < r.index

structure Calls (S : Setting) (t : Known) (callee : String) (sig : CallSignature) (ret : MachineType)
    (args : List (MachineType × Operand)) (variadic : Option (List MachineType)) : Prop where
  known : S.signature callee = some sig
  ret_eq : ret = sig.ret
  typed : ∀ x ∈ args, t.HasType x.2 x.1
  fixed : sig.params <+: args.map Prod.fst
  arity : sig.isVariadic = false → args.length = sig.params.length
  variadic_eq : variadic = if sig.isVariadic then some sig.params else none

def Result (S : Setting) (t : Known) (ret : MachineType) : Option Register → Prop
  | none => ret = .void
  | some r => ret ≠ .void ∧ S.Fresh t r

inductive Step (S : Setting) (t : Known) : Instr → Known → Prop where
  | alloca {slot : Slot} (mem : slot ∈ S.frame) (absent : t.status slot.register = .absent) :
      Step S t ⟨some slot.register, .alloca slot.kind.machineType⟩ (t.setStatus slot.register .stale)
  | storeNumber {slot : Slot} {v : Operand} (mem : slot ∈ S.frame) (kind : slot.kind = .int)
      (present : t.status slot.register ≠ .absent) (value : t.HasType v .i64) :
      Step S t ⟨none, .store .i64 v (.register slot.register)⟩ (t.setStatus slot.register .ready)
  | storeNull {slot : Slot} (mem : slot ∈ S.frame) (heap : slot.kind.isHeap = true)
      (stale : t.status slot.register = .stale) :
      Step S t ⟨none, .store .ptr .null (.register slot.register)⟩ (t.setStatus slot.register .ready)
  | storeOwned {slot : Slot} {r : Register} (mem : slot ∈ S.frame) (heap : slot.kind.isHeap = true)
      (owned : t.content r = some .owned)
      (vacant : t.status slot.register = .stale ∨
        t.status slot.register = .ready ∧ t.mark ≤ S.birth slot.register) :
      Step S t ⟨none, .store .ptr (.register r) (.register slot.register)⟩
        (t.fill slot.register r (S.birth slot.register))
  | loadNumber {slot : Slot} {r : Register} (mem : slot ∈ S.frame) (kind : slot.kind = .int)
      (ready : t.status slot.register = .ready) (fresh : S.Fresh t r) :
      Step S t ⟨some r, .load .i64 (.register slot.register)⟩ (t.define r (.plain .i64))
  | loadPointer {slot : Slot} {r : Register} (mem : slot ∈ S.frame) (heap : slot.kind.isHeap = true)
      (ready : t.status slot.register = .ready) (fresh : S.Fresh t r) :
      Step S t ⟨some r, .load .ptr (.register slot.register)⟩ (t.define r (.view slot.register))
  | element {s base r : Register} {index : Operand} (view : t.content base = some (.view s))
      (index_type : t.HasType index .i64) (fresh : S.Fresh t r) :
      Step S t ⟨some r, .element .i64 (.register base) index⟩ (t.define r (.cell s))
  | loadCell {s address r : Register} (cell : t.content address = some (.cell s)) (fresh : S.Fresh t r) :
      Step S t ⟨some r, .load .i64 (.register address)⟩ (t.define r (.plain .i64))
  | storeCell {s address : Register} {v : Operand} (cell : t.content address = some (.cell s))
      (value : t.HasType v .i64) :
      Step S t ⟨none, .store .i64 v (.register address)⟩ t
  | arith {op : ArithOp} {lhs rhs : Operand} {r : Register} (left : t.HasType lhs op.type)
      (right : t.HasType rhs op.type) (fresh : S.Fresh t r) :
      Step S t ⟨some r, .arith op op.type lhs rhs⟩ (t.define r (.plain op.type))
  | compare {op : CompareOp} {ty : MachineType} {lhs rhs : Operand} {r : Register} (number : ty = .i64 ∨ ty = .i32)
      (left : t.HasType lhs ty) (right : t.HasType rhs ty) (fresh : S.Fresh t r) :
      Step S t ⟨some r, .compare op ty lhs rhs⟩ (t.define r (.plain .i1))
  | cast {op : CastOp} {v : Operand} {r : Register} (value : t.HasType v op.source) (fresh : S.Fresh t r) :
      Step S t ⟨some r, .cast op v op.source op.target⟩ (t.define r (.plain op.target))
  | malloc {size : Operand} {r : Register} (known : S.signature "malloc" = some ⟨[.i64], .ptr, false⟩)
      (value : t.HasType size .i64) (fresh : S.Fresh t r) :
      Step S t ⟨some r, .call "malloc" .ptr [(.i64, size)] none⟩ (t.define r .owned)
  | freeOwned {r : Register} (known : S.signature "free" = some ⟨[.ptr], .void, false⟩)
      (owned : t.content r = some .owned) :
      Step S t ⟨none, .call "free" .void [(.ptr, .register r)] none⟩ (t.define r (.plain .ptr))
  | freeView {slot : Slot} {r : Register} (known : S.signature "free" = some ⟨[.ptr], .void, false⟩)
      (mem : slot ∈ S.frame) (heap : slot.kind.isHeap = true) (ready : t.status slot.register = .ready)
      (view : t.content r = some (.view slot.register))
      (latest : ∀ x, t.content x = some (.view slot.register) → x.index ≤ r.index) :
      Step S t ⟨none, .call "free" .void [(.ptr, .register r)] none⟩ (t.release slot.register)
  | exit {status : Operand} (known : S.signature "exit" = some ⟨[.i32], .void, false⟩) (value : t.HasType status .i32) :
      Step S t ⟨none, .call "exit" .void [(.i32, status)] none⟩ { t with dead := true }
  | external {callee : String} {sig : CallSignature} {ret : MachineType} {args : List (MachineType × Operand)}
      {variadic : Option (List MachineType)} {result : Option Register}
      (calls : S.Calls t callee sig ret args variadic)
      (mem : ⟨callee, sig⟩ ∈ External.core ++ External.graphics) (other : callee ∉ ["malloc", "free", "exit"])
      (writes : callee ∈ External.writers → ∃ r, args.head?.map Prod.snd = some (.register r) ∧ t.content r = some .owned)
      (readable : ∀ x ∈ args, x.1 = .ptr → t.Readable x.2)
      (gives : S.Result t ret result) :
      Step S t ⟨result, .call callee ret args variadic⟩ (t.receive result (.plain ret))
  | function {callee : String} {sig : CallSignature} {ret : MachineType} {args : List (MachineType × Operand)}
      {variadic : Option (List MachineType)} {r : Register} (calls : S.Calls t callee sig ret args variadic)
      (user : callee ∉ External.names) (fixed : sig.isVariadic = false) (ret_type : ret = .i64 ∨ ret = .ptr)
      (readable : ∀ x ∈ args, x.1 = .ptr → t.Readable x.2) (fresh : S.Fresh t r) :
      Step S t ⟨some r, .call callee ret args variadic⟩ (t.define r (if ret = .ptr then .owned else .plain ret))

def Steps (S : Setting) : Known → List Instr → Known → Prop
  | t, [], t' => t = t'
  | t, i :: is, t' => ∃ u, S.Step t i u ∧ S.Steps u is t'

/-- A function's return frees every buffer of a slot numbered below `n`, the one that goes with the value apart.  The
others are of variables declared later; unless a loop brings control back before their declarations, they hold nothing. -/
def Releases (S : Setting) (n : Nat) (t : Known) (v : Operand) : Prop :=
  ∀ slot ∈ S.frame, slot.kind.isHeap = true →
    (slot.register.index < n ∧ (t.status slot.register = .stale ∨
      ∃ r, v = .register r ∧ t.content r = some (.view slot.register))) ∨
    (n ≤ slot.register.index ∧ (S.early = false → t.mark ≤ S.birth slot.register))

inductive Ends (S : Setting) (n : Nat) (t : Known) : Terminator → Prop where
  | br {target : BlockId} (settled : t.Settled) (enters : S.enters target t.mark) : Ends S n t (.br target)
  | condBr {cond : Operand} {yes no : BlockId} (test : t.HasType cond .i1) (settled : t.Settled)
      (enters_yes : S.enters yes t.mark) (enters_no : S.enters no t.mark) : Ends S n t (.condBr cond yes no)
  | ret {v : Operand} (value : t.HasType v S.ret)
      (hands : S.ret = .ptr → ∃ r c, v = .register r ∧ t.content r = some c ∧ (c = .owned ∨ ∃ s, c = .view s))
      (owned : ∀ r, t.content r = some .owned → v = .register r)
      (later : ∀ s : Register, n ≤ s.index → t.status s = .ready)
      (bound : t.mark ≤ S.retMark)
      (releases : S.ret ≠ .i32 → S.Releases n t v) : Ends S n t (.ret (some (S.ret, v)))
  | unreachable (dead : t.dead = true) (settled : t.Settled) : Ends S n t .unreachable

def Keeps (S : Setting) (n : Nat) (start : Known) (k : Block) : Prop :=
  ∃ t e, k.terminator = some e ∧ S.Steps start k.instrs t ∧
    ∃ m, m ≤ n ∧ (∀ r ∈ k.instrs.filterMap Instr.result, r.index < m) ∧ S.Ends m t e

end Setting
end QuillLang
