import QuillLang.Program.Basic
import QuillLang.Typing.Signature
/-!
# Inference

The type of an expression is read off its shape and the table of its scope: a sum with a text in it is a text, any other
operation is a number.  The variables of a body are typed by walking it in order.  Signatures are found by walking every
body again and again with what is known so far, until a walk adds nothing; a walk that adds something after the first turns
a recorded number into a text, so there are at most as many walks as there are arguments and returns in the program, and two
more.
-/
namespace QuillLang

namespace Expr

def infer (vars : VarTable) : Expr → Ty
  | number _ _ => .int
  | string _ _ => .string
  | var name _ => vars.typeOf name
  | binary .add l r _ => (l.infer vars).join (r.infer vars)
  | binary _ _ _ _ | index _ _ _ | neg _ _ | trig _ _ _ _ | random _ _ _ => .int

end Expr

/-! ## Variables of a body -/

mutual

/-- The table after a statement.  Functions declared inside are scopes of their own and add nothing. -/
def Stmt.declare (vars : VarTable) : Stmt → VarTable
  | .make name value _ => vars.declare name.name (value.infer vars)
  | .makeArray name _ _ => vars.declare name.name .int
  | .when _ body _ | .loop _ body _ => Stmt.declareAll vars body
  | .assign _ _ _ | .assignArray _ _ _ _ | .print _ _ | .free _ _ | .func _ _ _ _ | .ret _ _ | .call _ _ _ _
  | .graphics _ _ => vars

/-- The table after the statements of a body. -/
def Stmt.declareAll (vars : VarTable) : List Stmt → VarTable
  | [] => vars
  | s :: rest => Stmt.declareAll (s.declare vars) rest

end

/-- The parameters of a function, typed by signatures. -/
def FuncDecl.paramTable (f : FuncDecl) (sigs : Signatures) : VarTable :=
  VarTable.ofDeclarations (f.params.mapIdx fun i p => (p.name, sigs.paramType f.name.name i))

def FuncDecl.scope (f : FuncDecl) (sigs : Signatures) : VarTable :=
  Stmt.declareAll (f.paramTable sigs) f.body

/-! ## Signatures of a program -/

/-- What a walk over a body knows: the variables declared so far and the signatures. -/
structure Walk where
  vars : VarTable
  sigs : Signatures
  deriving DecidableEq

/-- A call merges its arguments, the first of which is at position `i`. -/
def Walk.arguments (w : Walk) (callee : String) : Nat → List Expr → Walk
  | _, [] => w
  | i, arg :: rest =>
    Walk.arguments { w with sigs := w.sigs.mergeParam callee i (arg.infer w.vars) } callee (i + 1) rest

mutual

/-- Walk one statement of the function `owner`, or of the top level. -/
def Stmt.walk (owner : Option String) (w : Walk) : Stmt → Walk
  | .make name value _ => { w with vars := w.vars.declare name.name (value.infer w.vars) }
  | .makeArray name _ _ => { w with vars := w.vars.declare name.name .int }
  | .call callee args _ _ => w.arguments callee.name 0 args
  | .ret name _ =>
    match owner with
    | some f => { w with sigs := w.sigs.mergeReturn f (w.vars.typeOf name.name) }
    | none => w
  | .when _ body _ | .loop _ body _ => Stmt.walkAll owner w body
  | .assign _ _ _ | .assignArray _ _ _ _ | .print _ _ | .free _ _ | .func _ _ _ _ | .graphics _ _ => w

def Stmt.walkAll (owner : Option String) (w : Walk) : List Stmt → Walk
  | [] => w
  | s :: rest => Stmt.walkAll owner (s.walk owner w) rest

end

mutual

/-- The number of arguments and returns in a statement: what a walk can learn from it. -/
def Stmt.evidence : Stmt → Nat
  | .call _ args _ _ => args.length
  | .ret _ _ => 1
  | .when _ body _ | .loop _ body _ | .func _ _ body _ => Stmt.evidenceAll body
  | .make _ _ _ | .assign _ _ _ | .makeArray _ _ _ | .assignArray _ _ _ _ | .print _ _ | .free _ _ | .graphics _ _ => 0

def Stmt.evidenceAll : List Stmt → Nat
  | [] => 0
  | s :: rest => s.evidence + Stmt.evidenceAll rest

end

namespace Signatures

/-- One walk over the top level and then over every function. -/
def walkProgram (p : Program) (sigs : Signatures) : Signatures :=
  p.functions.foldl
    (fun s f => (Stmt.walkAll (some f.name.name) ⟨f.paramTable s, s⟩ f.body).sigs)
    (Stmt.walkAll none ⟨Table.empty, sigs⟩ p.statements).sigs

/-- Repeat until nothing changes, at most `n` times. -/
def settle (f : Signatures → Signatures) : Nat → Signatures → Signatures
  | 0, s => s
  | n + 1, s => if f s = s then s else settle f n (f s)

def infer (p : Program) : Signatures :=
  settle (walkProgram p) (Stmt.evidenceAll p.statements + 2) empty

end Signatures

/-! ## A program analysed -/

structure Analysis where
  signatures : Signatures
  topLevel : VarTable
  /-- The variables of each function, by its name; of two functions of one name, the first. -/
  functions : Table VarTable

namespace Analysis

def ofProgram (p : Program) : Analysis :=
  let sigs := Signatures.infer p
  ⟨sigs, Stmt.declareAll Table.empty p.statements,
    p.functions.foldl (fun t f => t.insertNew f.name.name (f.scope sigs)) Table.empty⟩

end Analysis
end QuillLang
