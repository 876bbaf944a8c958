import QuillLang.Lowering.Program
import QuillLang.Proofs.Writing.Basic
/-!
# Programs whose names are in order

Whether a program can be lowered is a matter of its names alone: of what each of them holds where it stands, and of how many
arguments a function takes.  A body is read as a list of needs, in the order in which they come up (`Stmt.needs`).  A need is
met or not by what the names declared before it hold (`Need.meet`); a declaration adds to that.  Tests and loops do not
matter to it, as their bodies are read where they stand.

`Program.checkNames` is the whole check.  It gives the first fault, and no code.
-/
namespace QuillLang

def SlotDemand.allows : SlotDemand → SlotKind → Bool
  | kind k, found => found = k
  | scalar, found => found ≠ .array
  | heap, found => found.isHeap

/-- What a place in a program needs of the names that it uses. -/
inductive Need where
  /-- The variable has been declared. -/
  | known (x : Ident)
  /-- The variable has been declared, and a result is to go there. -/
  | result (x : Ident)
  /-- The variable has been declared, and holds what is wanted. -/
  | holds (x : Ident) (want : SlotDemand)
  /-- The variable is declared now.  It may have been before, if it was with the same kind. -/
  | declared (x : Ident) (kind : SlotKind)
  /-- The function is there, with so many parameters. -/
  | called (callee : Ident) (count : Nat)
  deriving DecidableEq

namespace Need

/-- What the variables hold after a need is met; an error if it is not. -/
def meet (arity? : String → Option Nat) (kinds : Table SlotKind) : Need → Except LowerError (Table SlotKind)
  | known x =>
    match kinds.get? x.name with
    | some _ => .ok kinds
    | none => .error (.undefinedVariable x.name x.span)
  | result x =>
    match kinds.get? x.name with
    | some _ => .ok kinds
    | none => .error (.undefinedResult x.name x.span)
  | holds x want =>
    match kinds.get? x.name with
    | some k => if want.allows k then .ok kinds else .error (.kindMismatch x.name want k x.span)
    | none => .error (.undefinedVariable x.name x.span)
  | declared x kind =>
    match kinds.get? x.name with
    | some k => if k = kind then .ok kinds else .error (.kindMismatch x.name (.kind kind) k x.span)
    | none => .ok (kinds.insert x.name kind)
  | called callee count =>
    match arity? callee.name with
    | some n => if count = n then .ok kinds else .error (.arityMismatch callee.name n count callee.span)
    | none => .error (.undefinedFunction callee.name callee.span)

def meetAll (arity? : String → Option Nat) (kinds : Table SlotKind) (needs : List Need) :
    Except LowerError (Table SlotKind) :=
  needs.foldlM (meet arity?) kinds

theorem meetAll_append (arity? : String → Option Nat) (kinds : Table SlotKind) (needs more : List Need) :
    meetAll arity? kinds (needs ++ more) = meetAll arity? kinds needs >>= fun kinds' => meetAll arity? kinds' more :=
  List.foldlM_append

end Need

/-! ## What is needed -/

namespace Expr

def needs : Expr → List Need
  | var name span => [.holds ⟨name, span⟩ .scalar]
  | number _ _ | string _ _ => []
  | index array position _ => .holds array (.kind .array) :: position.needs
  | binary _ left right _ => left.needs ++ right.needs
  | neg operand _ => operand.needs
  | trig _ degrees scale _ => degrees.needs ++ scale.needs
  | random seed limit _ => seed.needs ++ limit.needs

/-- Arguments and where the result goes.  That there is a place for it comes before the arguments, that it holds a scalar
after them. -/
def needsInto (args : List Expr) (result : Option Ident) : List Need :=
  result.toList.map .result ++ (args.flatMap needs ++ result.toList.map fun x => .holds x .scalar)

theorem needsInto_none (args : List Expr) : needsInto args none = args.flatMap needs := by
  simp [needsInto]

end Expr

namespace Stmt

mutual

/-- What a statement needs, if its scope gives the variables these types.  A function within is a body of its own. -/
def needs (scope : VarTable) : Stmt → List Need
  | .make x value _ => value.needs ++ [.declared x (SlotKind.ofTy (scope.typeOf x.name))]
  | .assign x value _ => .known x :: (value.needs ++ [.holds x .scalar])
  | .makeArray x size _ => size.needs ++ [.declared x .array]
  | .assignArray x position value _ => .holds x (.kind .array) :: (position.needs ++ value.needs)
  | .when test body _ | .loop test body _ => test.needs ++ needsAll scope body
  | .print value _ => value.needs
  | .free x _ => [.holds x .heap]
  | .func _ _ _ _ => []
  | .ret x _ => [.holds x .scalar]
  | .call callee args result _ => .called callee args.length :: Expr.needsInto args result
  | .graphics op _ => Expr.needsInto op.arguments op.result?

def needsAll (scope : VarTable) : List Stmt → List Need
  | [] => []
  | s :: rest => needs scope s ++ needsAll scope rest

end

end Stmt

namespace FuncDecl

/-- The parameters come first, with the types that the signatures give them. -/
def needs (f : FuncDecl) (sigs : Signatures) : List Need :=
  List.zipWith (fun x ty => .declared x (SlotKind.ofTy ty)) f.params (sigs.paramTypes f.name.name f.params.length) ++
    Stmt.needsAll (f.scope sigs) f.body

def checkDistinct (names : List String) : List FuncDecl → Except LowerError Unit
  | [] => .ok ()
  | f :: rest =>
    if f.name.name ∈ names then .error (.duplicateFunction f.name.name f.name.span)
    else checkDistinct (f.name.name :: names) rest

def arity? (fs : List FuncDecl) (name : String) : Option Nat :=
  (fs.find? fun f => f.name.name = name).map fun f => f.params.length

/-- Body after body, each with nothing declared. -/
def checkBodies (sigs : Signatures) (arity? : String → Option Nat) : List FuncDecl → Except LowerError Unit
  | [] => .ok ()
  | f :: rest => do
    let _ ← Need.meetAll arity? Table.empty (f.needs sigs)
    checkBodies sigs arity? rest

end FuncDecl

/-- The functions have names of their own; then every body, and last the top level, has what it needs. -/
def Program.checkNames (p : Program) (sigs : Signatures) : Except LowerError Unit := do
  FuncDecl.checkDistinct [] p.functions
  FuncDecl.checkBodies sigs (FuncDecl.arity? p.functions) p.functions
  let scope := Stmt.declareAll Table.empty p.statements
  let _ ← Need.meetAll (FuncDecl.arity? p.functions) Table.empty (Stmt.needsAll scope p.statements)

end QuillLang
