import QuillLang.Lowering.Expr
import QuillLang.Typing.Infer
/-!
# Lowering statements

A test and its block become basic blocks of their own, and so does what follows a `return`, which nothing reaches.  A
variable that holds a text owns its buffer: a new value is stored as a buffer of its own, and the old one is freed once the
new one is there.
-/
namespace QuillLang
namespace Lower

/-! ## Storing -/

/-- Store a value in a scalar's slot, turned into the slot's type.  `freesPrevious` says whether the text that was there is
freed. -/
def storeSlot (slot : Slot) (value : Lowered) (freesPrevious : Bool) (name : Ident) : Lower Unit :=
  match slot.kind with
  | .int => do
    let n ← build (Builder.asInt value)
    build (Builder.store .i64 n (.register slot.register))
  | .string => do
    let handle ← build (Builder.asText value)
    let owned ← build (Builder.intoOwned handle)
    if freesPrevious then build (Builder.freeSlot slot.register)
    build (Builder.store .ptr owned (.register slot.register))
  | .array => do
    build (Builder.discard value)
    throw (.kindMismatch slot.name .scalar slot.kind name.span)

def make (name : Ident) (value : Expr) : Lower Unit := do
  let s ← get
  let declared := (s.scopes.lookup name.name).getD (value.infer s.scopes.current)
  let v ← expr value
  let (slot, redeclared) ← declareSlot name (SlotKind.ofTy declared)
  storeSlot slot v (declarationFrees redeclared (← get).loopDepth) name

def assign (name : Ident) (value : Expr) : Lower Unit := do
  let slot ← slotOf name
  let v ← expr value
  storeSlot slot v true name

def makeArray (name : Ident) (size : Expr) : Lower Unit := do
  let count ← int size
  let bytes ← build (Builder.intOp .mul count (.int 8))
  let buffer ← build (Builder.call "malloc" [bytes])
  let (slot, redeclared) ← declareSlot name .array
  if declarationFrees redeclared (← get).loopDepth then build (Builder.freeSlot slot.register)
  build (Builder.store .ptr buffer (.register slot.register))

def assignArray (name : Ident) (position value : Expr) : Lower Unit := do
  let slot ← arraySlot name
  let index ← int position
  let v ← int value
  let address ← build (Builder.elementAddress slot index)
  build (Builder.store .i64 v address)

/-! ## Output, freeing, returning -/

def print (value : Expr) : Lower Unit := do
  match ← expr value with
  | .text t =>
    let format ← build (Builder.stringConstant "%s\n")
    let _ ← build (Builder.callVariadic "printf" [.global format] [(.ptr, t.value)])
    build (Builder.release t)
  | other =>
    let n ← build (Builder.asInt other)
    let format ← build (Builder.stringConstant "%lld\n")
    let _ ← build (Builder.callVariadic "printf" [.global format] [(.i64, n)])

def free (name : Ident) : Lower Unit := do
  let slot ← slotOf name
  if slot.kind.isHeap then
    build (Builder.freeSlot slot.register)
    build (Builder.store .ptr .null (.register slot.register))
  else throw (.kindMismatch slot.name .heap slot.kind name.span)

/-- The value a function returns, and the variable whose buffer goes with it. -/
def returnValue (slot : Slot) (ret : Ty) (span : Span) : Lower (Operand × Option String) :=
  match ret with
  | .int => do
    let value ← loadSlot slot span
    return (← build (Builder.asInt value), none)
  | .string =>
    if slot.kind = .string then do
      return (← build (Builder.load .ptr (.register slot.register)), some slot.name)
    else do
      let value ← loadSlot slot span
      let handle ← build (Builder.asText value)
      return (← build (Builder.intoOwned handle), none)

/-- Return a variable.  At the top level its value becomes the exit status. -/
def ret (name : Ident) : Lower Unit := do
  let slot ← slotOf name
  match (← get).ret with
  | none =>
    let value ← loadSlot slot name.span
    let n ← build (Builder.asInt value)
    let status ← build (Builder.cast .trunc n .i64 .i32)
    build (Builder.ret (some (.i32, status)))
  | some ty =>
    let (value, keep) ← returnValue slot ty name.span
    releaseLocals keep
    build (Builder.ret (some (ty.machineType, value)))
  let (dead, label) ← build (Builder.createBlock "return.dead")
  build (Builder.startBlock dead label)
  modify fun s => { s with afterReturn := true }

/-! ## Calls -/

def functionInfo (name : Ident) : Lower FuncInfo := do
  match (← get).functions.get? name.name with
  | some info => return info
  | none => throw (.undefinedFunction name.name name.span)

/-- Arguments for parameters of given types, and the texts to be done with after the call. -/
def arguments : List Expr → List Ty → Lower (List Operand × List TextHandle)
  | arg :: args, ty :: tys => do
    let value ← expr arg
    match ty with
    | .int =>
      let v ← build (Builder.asInt value)
      let (vs, temps) ← arguments args tys
      return (v :: vs, temps)
    | .string =>
      let t ← build (Builder.asText value)
      let (vs, temps) ← arguments args tys
      return (t.value :: vs, t :: temps)
  | _, _ => return ([], [])

/-- The result of a call; a text is a fresh buffer that the caller owns. -/
def callResult (ret : Ty) (value : Operand) : Lowered :=
  match ret with
  | .int => .int value
  | .string => .text (.owned value)

def call (callee : Ident) (args : List Expr) (result : Option Ident) : Lower Unit := do
  let info ← functionInfo callee
  if args.length ≠ info.params.length then
    throw (.arityMismatch callee.name info.params.length args.length callee.span)
  match result with
  | some name =>
    let slot ← resultSlot name
    let (values, temps) ← arguments args info.params
    let value ← build (Builder.call info.symbol values)
    build (Builder.releaseAll temps)
    storeSlot slot (callResult info.ret value) true name
  | none =>
    let (values, temps) ← arguments args info.params
    let value ← build (Builder.call info.symbol values)
    build (Builder.releaseAll temps)
    build (Builder.discard (callResult info.ret value))

/-! ## Graphics -/

def ints : List Expr → Lower (List Operand)
  | [] => return []
  | e :: rest => do
    let v ← int e
    let vs ← ints rest
    return v :: vs

def callWithInts (routine : String) (args : List Expr) : Lower Unit := do
  let values ← ints args
  let _ ← build (Builder.call routine values)

/-- Ask for events; when the user wants to quit, the program ends. -/
def poll : Lower Unit := do
  let status ← build (Builder.call "gfx_poll_events" [])
  let quit ← build (Builder.compare .ne .i64 status (.int 0))
  let (quitBlock, quitLabel) ← build (Builder.createBlock "poll.quit")
  let (goOn, goOnLabel) ← build (Builder.createBlock "poll.continue")
  build (Builder.condBr quit quitBlock goOn)
  startBlock quitBlock quitLabel
  let _ ← build (Builder.call "exit" [.int 0])
  build Builder.unreachable
  startBlock goOn goOnLabel

def graphics : Graphics → Lower Unit
  | .init => callWithInts "gfx_init" []
  | .window title width height => do
    let t ← text title
    let w ← int width
    let h ← int height
    let _ ← build (Builder.call "gfx_window" [t.value, w, h])
    build (Builder.release t)
  | .delay millis => callWithInts "gfx_delay" [millis]
  | .poll => poll
  | .surface width height => callWithInts "gfx_surface" [width, height]
  | .pixel x y => callWithInts "gfx_put_pixel" [x, y]
  | .getPixel x y result => do
    let slot ← resultSlot result
    let vx ← int x
    let vy ← int y
    let pixel ← build (Builder.call "gfx_get_pixel" [vx, vy])
    storeSlot slot (.int pixel) true result
  | .present => callWithInts "gfx_present" []
  | .clear => callWithInts "gfx_clear" []
  | .color r g b => callWithInts "gfx_set_color" [r, g, b]
  | .line x1 y1 x2 y2 => callWithInts "gfx_draw_line" [x1, y1, x2, y2]

/-! ## Statements -/

mutual

def stmt : Stmt → Lower Unit
  | .make name value _ => make name value
  | .assign name value _ => assign name value
  | .makeArray name size _ => makeArray name size
  | .assignArray name position value _ => assignArray name position value
  | .when test body _ => do
    let (condBlock, condLabel) ← build (Builder.createBlock "if.cond")
    let (thenBlock, thenLabel) ← build (Builder.createBlock "if.then")
    let (endBlock, endLabel) ← build (Builder.createBlock "if.end")
    build (Builder.br condBlock)
    startBlock condBlock condLabel
    let cond ← condition test
    build (Builder.condBr cond thenBlock endBlock)
    startBlock thenBlock thenLabel
    block body
    build (Builder.br endBlock)
    startBlock endBlock endLabel
  | .loop test body _ => do
    let (condBlock, condLabel) ← build (Builder.createBlock "while.cond")
    let (bodyBlock, bodyLabel) ← build (Builder.createBlock "while.body")
    let (endBlock, endLabel) ← build (Builder.createBlock "while.end")
    build (Builder.br condBlock)
    startBlock condBlock condLabel
    let cond ← condition test
    build (Builder.condBr cond bodyBlock endBlock)
    startBlock bodyBlock bodyLabel
    modify fun s => { s with loopDepth := s.loopDepth + 1 }
    block body
    modify fun s => { s with loopDepth := s.loopDepth - 1 }
    build (Builder.br condBlock)
    startBlock endBlock endLabel
  | .print value _ => print value
  | .free name _ => free name
  -- A function is lowered as a routine of its own.
  | .func _ _ _ _ => return ()
  | .ret name _ => ret name
  | .call callee args result _ => call callee args result
  | .graphics op _ => graphics op

def block : List Stmt → Lower Unit
  | [] => return ()
  | s :: rest => do
    stmt s
    block rest

end

end Lower
end QuillLang
