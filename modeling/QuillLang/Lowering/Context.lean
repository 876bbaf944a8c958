import QuillLang.Assembly.Check
import QuillLang.Lowering.Slot
import QuillLang.Lowering.TextHandle
import QuillLang.Program.Basic
import QuillLang.Typing.Signature
/-!
# The state of lowering

Lowering walks a body and emits code as it goes.  Beside the builder it carries how user functions are called, the types and
the slots of the body's variables, the type the body returns, how many loops surround the statement at hand, and whether
that statement can be reached at all.
-/
namespace QuillLang

/-- What a place in the program asks of a variable. -/
inductive SlotDemand where
  | kind (k : SlotKind)
  | scalar
  | heap
  deriving DecidableEq

namespace SlotDemand

def describe : SlotDemand → String
  | kind k => k.describe
  | scalar => "a scalar variable"
  | heap => "a String or an array"

end SlotDemand

inductive LowerError where
  | undefinedVariable (name : String) (span : Span)
  | undefinedFunction (name : String) (span : Span)
  | undefinedResult (name : String) (span : Span)
  | arityMismatch (name : String) (expected found : Nat) (span : Span)
  | kindMismatch (name : String) (expected : SlotDemand) (found : SlotKind) (span : Span)
  | duplicateFunction (name : String) (span : Span)
  | graphicsDisabled (span : Span)
  /-- The assembly that was made is not well formed. -/
  | malformed (fault : CheckError)
  deriving DecidableEq

namespace LowerError

def span? : LowerError → Option Span
  | undefinedVariable _ s | undefinedFunction _ s | undefinedResult _ s | arityMismatch _ _ _ s | kindMismatch _ _ _ s
  | duplicateFunction _ s | graphicsDisabled s => some s
  | malformed _ => none

def message : LowerError → String
  | undefinedVariable n _ => "undefined variable `" ++ n ++ "`"
  | undefinedFunction n _ => "undefined function `" ++ n ++ "`"
  | undefinedResult n _ => "result variable `" ++ n ++ "` is not declared"
  | arityMismatch n e f _ =>
    "`" ++ n ++ "` takes " ++ Decimal.ofNat e ++ " argument(s) but " ++ Decimal.ofNat f ++ " were given"
  | kindMismatch n e f _ => "`" ++ n ++ "` is " ++ f.describe ++ ", expected " ++ e.describe
  | duplicateFunction n _ => "function `" ++ n ++ "` is declared more than once"
  | graphicsDisabled _ => "graphics statements are disabled for this module"
  | malformed e => "internal error: " ++ e.message

end LowerError

/-- A user function as its callers see it. -/
structure FuncInfo where
  symbol : String
  params : List Ty
  ret : Ty
  deriving DecidableEq

structure LowerState where
  builder : Builder
  functions : Table FuncInfo
  scopes : Scopes
  frames : Frames
  /-- What the function at hand returns; nothing at the top level. -/
  ret : Option Ty
  loopDepth : Nat
  /-- The open block follows a `return` and is never reached. -/
  afterReturn : Bool
  deriving DecidableEq

/-- A step of lowering: what it does, unless it refuses the program, and the requests for code that it makes before. -/
structure Lower (α : Type) where
  run : LowerState → Except LowerError (α × LowerState)
  requests : LowerState → List Request

namespace Lower
variable {α β : Type} {s : LowerState}

protected def pure (a : α) : Lower α := ⟨fun s => .ok (a, s), fun _ => []⟩

protected def bind (x : Lower α) (f : α → Lower β) : Lower β where
  run s := x.run s >>= fun (a, s') => (f a).run s'
  requests s := x.requests s ++ match x.run s with
    | .ok (a, s') => (f a).requests s'
    | .error _ => []

instance : Monad Lower where
  pure := Lower.pure
  bind := Lower.bind

instance : LawfulMonad Lower := by
  refine .mk' Lower (fun x => congr (congrArg mk ?_) ?_) (fun _ _ => rfl) fun x f g => congr (congrArg mk ?_) ?_
  all_goals
    funext s
    cases hx : x.run s <;> simp [bind, Lower.bind, Except.bind, Lower.pure, hx]

instance : MonadStateOf LowerState Lower where
  get := ⟨fun s => .ok (s, s), fun _ => []⟩
  set s := ⟨fun _ => .ok ((), s), fun _ => []⟩
  modifyGet g := ⟨fun s => .ok (g s), fun _ => []⟩

instance : MonadExceptOf LowerError Lower where
  throw e := ⟨fun _ => .error e, fun _ => []⟩
  tryCatch x f := ⟨fun s => tryCatch (x.run s) fun e => (f e).run s, fun s => x.requests s ++ match x.run s with
    | .ok _ => []
    | .error e => (f e).requests s⟩

@[simp] theorem run_bind (x : Lower α) (f : α → Lower β) : (x >>= f).run s = x.run s >>= fun r => (f r.1).run r.2 := rfl

@[simp] theorem run_get : (get : Lower LowerState).run s = pure (s, s) := rfl

def build (step : Build Nat α) : Lower α where
  run s := let (a, b) := step.run s.builder; .ok (a, { s with builder := b })
  requests s := step.requests s.builder

/-- Go on in a block that can be reached. -/
def startBlock (id : BlockId) (label : String) : Lower Unit := do
  build (Builder.startBlock id label)
  modify fun s => { s with afterReturn := false }

/-! ## Variables -/

def slotOf (name : Ident) : Lower Slot := do
  match (← get).frames.lookup name.name with
  | some slot => return slot
  | none => throw (.undefinedVariable name.name name.span)

def resultSlot (name : Ident) : Lower Slot := do
  match (← get).frames.lookup name.name with
  | some slot => return slot
  | none => throw (.undefinedResult name.name name.span)

def arraySlot (name : Ident) : Lower Slot := do
  let slot ← slotOf name
  if slot.kind = .array then return slot
  else throw (.kindMismatch slot.name (.kind .array) slot.kind name.span)

/-- What a slot holds before its variable is first declared. -/
def initialValue : SlotKind → Operand
  | .int => .int 0
  | .string | .array => .null

/-- The slot of a declaration, and whether it was there before. -/
def declareSlot (name : Ident) (kind : SlotKind) : Lower (Slot × Bool) := do
  match (← get).frames.lookup name.name with
  | some slot =>
    if slot.kind = kind then return (slot, true)
    else throw (.kindMismatch slot.name (.kind kind) slot.kind name.span)
  | none =>
    let reg ← build (Builder.alloca kind.machineType)
    build (Builder.initSlot kind.machineType (initialValue kind) reg)
    modifyGet fun s =>
      let (slot, frames) := s.frames.register name.name reg kind
      ((slot, false), { s with frames })

/-- Free every buffer of the body at hand but the one of `keep`. -/
def releaseLocals (keep : Option String) : Lower Unit := do
  let slots := (← get).frames.heapSlots keep
  build (Builder.freeSlots (slots.map Slot.register))

end Lower
end QuillLang
