import QuillLang.Assembly.External
import QuillLang.Assembly.Listing
import QuillLang.Lowering.Stmt
/-!
# Lowering programs

A program becomes one routine for each function it declares, at whatever depth, and the routine `main` for its top level.
All functions are made known before any body is lowered, so each can be called from everywhere.
-/
namespace QuillLang

/-- When the graphics runtime is declared. -/
inductive GraphicsPolicy where
  /-- When the program has a graphics statement. -/
  | auto
  | always
  /-- Never, and graphics statements are refused. -/
  | never
  deriving DecidableEq

structure LowerOptions where
  moduleName : String
  /-- The module name when absent. -/
  sourceName : Option String
  targetTriple : Option String
  graphics : GraphicsPolicy
  deriving DecidableEq

def LowerOptions.standard : LowerOptions := ⟨"quill", none, none, .auto⟩

namespace Lower

def declareFunction (sigs : Signatures) (f : FuncDecl) : Lower Unit := do
  let name := f.name.name
  if (← get).functions.contains name then throw (.duplicateFunction name f.name.span)
  let info : FuncInfo := ⟨"fn." ++ name, sigs.paramTypes name f.params.length, sigs.returnType name⟩
  build (Builder.register info.symbol (info.params.map Ty.machineType) info.ret.machineType)
  modify fun s => { s with functions := s.functions.insert name info }

def declareFunctions (sigs : Signatures) : List FuncDecl → Lower Unit
  | [] => return ()
  | f :: rest => do
    declareFunction sigs f
    declareFunctions sigs rest

/-- Begin a function's body with its variables and what it returns. -/
def enterFunction (vars : VarTable) (ret : Ty) : Lower Unit :=
  modify fun s =>
    { s with
      scopes := s.scopes.enter vars
      frames := s.frames.enter
      ret := some ret
      loopDepth := 0
      afterReturn := false }

def leaveFunction : Lower Unit :=
  modify fun s => { s with scopes := s.scopes.leave.2, frames := s.frames.leave.2, ret := none }

/-- Store the arguments in slots; a text is copied, so that the body owns it. -/
def bindParams : List Ident → List Ty → List Register → Lower Unit
  | p :: ps, ty :: tys, r :: rs => do
    let (slot, redeclared) ← declareSlot p (SlotKind.ofTy ty)
    let value : Lowered :=
      match ty with
      | .int => .int (.register r)
      | .string => .text (.borrowed (.register r))
    storeSlot slot value redeclared p
    bindParams ps tys rs
  | _, _, _ => return ()

/-- A body that ends without `return` returns zero or the empty text. -/
def implicitReturn (ret : Ty) : Lower Unit := do
  if (← get).afterReturn then build Builder.unreachable
  else
    releaseLocals none
    match ret with
    | .int => build (Builder.ret (some (.i64, .int 0)))
    | .string =>
      let empty ← build (Builder.stringConstant "")
      let value ← build (Builder.copyText (.global empty))
      build (Builder.ret (some (.ptr, value)))

def function (sigs : Signatures) (f : FuncDecl) : Lower Unit := do
  let info ← functionInfo f.name
  let regs ←
    build (Builder.startRoutine info.symbol (info.params.map Ty.machineType) info.ret.machineType)
  enterFunction (f.scope sigs) info.ret
  bindParams f.params info.params regs
  block f.body
  unless (← get).builder.isTerminated do implicitReturn info.ret
  build Builder.finishRoutine
  leaveFunction

def functions (sigs : Signatures) : List FuncDecl → Lower Unit
  | [] => return ()
  | f :: rest => do
    function sigs f
    functions sigs rest

/-- The top level.  What is still on the heap at its end goes with the process. -/
def topLevel (p : Program) : Lower Unit := do
  let _ ← build (Builder.startRoutine "main" [] .i32)
  modify fun s =>
    { s with
      scopes := s.scopes.replace (Stmt.declareAll Table.empty p.statements)
      ret := none
      loopDepth := 0
      afterReturn := false }
  block p.statements
  if (← get).afterReturn then build Builder.unreachable
  else build (Builder.ret (some (.i32, .int 0)))
  build Builder.finishRoutine

/-- Is the graphics runtime declared?  An error when it is needed and not allowed. -/
def declaresGraphics (policy : GraphicsPolicy) (p : Program) : Except LowerError Bool :=
  match policy, p.graphicsUse? with
  | .never, some span => .error (.graphicsDisabled span)
  | .never, none => .ok false
  | .always, _ => .ok true
  | .auto, use => .ok use.isSome

def program (p : Program) (sigs : Signatures) (withGraphics : Bool) : Lower Unit := do
  build (External.declareAll External.core)
  if withGraphics then build (External.declareAll External.graphics)
  declareFunctions sigs p.functions
  functions sigs p.functions
  topLevel p

def initial (options : LowerOptions) : LowerState :=
  let builder := Builder.new options.moduleName
  let assembly :=
    { builder.assembly with
      sourceName := options.sourceName.getD options.moduleName
      targetTriple := options.targetTriple }
  ⟨{ builder with assembly }, Table.empty, Scopes.top, Frames.top, none, 0, false⟩

end Lower

namespace Program

def lower (p : Program) (sigs : Signatures) (options : LowerOptions) : Except LowerError Assembly := do
  let withGraphics ← Lower.declaresGraphics options.graphics p
  let (_, s) ← (Lower.program p sigs withGraphics).run (Lower.initial options)
  let assembly := s.builder.finish
  match assembly.check with
  | .ok _ => .ok assembly
  | .error fault => .error (.malformed fault)

end Program
end QuillLang
