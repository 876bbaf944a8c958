import QuillLang.Token.Basic
/-!
# Programs

A program is a list of statements, and a statement may hold a block of further ones.  Every node knows the stretch of
source it was read from.  There are two kinds of node: expressions, which have a value, and statements, which do
something.
-/
namespace QuillLang

/-- A name where it stands in the source. -/
structure Ident where
  name : String
  span : Span
  deriving DecidableEq

inductive BinaryOp where
  | add
  | sub
  | mul
  | div
  | rem
  | eq
  | ne
  | lt
  | le
  | gt
  | ge
  deriving DecidableEq

namespace BinaryOp

def text : BinaryOp → String
  | add => "+"
  | sub => "-"
  | mul => "*"
  | div => "/"
  | rem => "%"
  | eq => "=="
  | ne => "!="
  | lt => "<"
  | le => "<="
  | gt => ">"
  | ge => ">="

/-- The operation an operator stands for between two operands; the assignment sign stands for none. -/
def ofOperator? : Operator → Option BinaryOp
  | .plus => some add
  | .minus => some sub
  | .star => some mul
  | .slash => some div
  | .percent => some rem
  | .eqEq => some eq
  | .notEq => some ne
  | .lt => some lt
  | .ltEq => some le
  | .gt => some gt
  | .gtEq => some ge
  | .assign => none

end BinaryOp

inductive TrigFunc where
  | sin
  | cos
  deriving DecidableEq

/-! ## Expressions -/

inductive Expr where
  | var (name : String) (span : Span)
  | number (value : Int64) (span : Span)
  | string (text : String) (span : Span)
  | index (array : Ident) (position : Expr) (span : Span)
  | binary (op : BinaryOp) (left right : Expr) (span : Span)
  | neg (operand : Expr) (span : Span)
  /-- The sine or cosine of an angle in degrees, times a scale, cut to an integer. -/
  | trig (func : TrigFunc) (degrees scale : Expr) (span : Span)
  /-- A number below `limit`, determined by `seed`. -/
  | random (seed limit : Expr) (span : Span)
  deriving DecidableEq

namespace Expr

def span : Expr → Span
  | var _ s | number _ s | string _ s | index _ _ s | binary _ _ _ s | neg _ s | trig _ _ _ s | random _ _ s => s

/-- The same expression, read from another stretch of source. -/
def withSpan (s : Span) : Expr → Expr
  | var n _ => var n s
  | number v _ => number v s
  | string t _ => string t s
  | index a i _ => index a i s
  | binary o l r _ => binary o l r s
  | neg e _ => neg e s
  | trig f d c _ => trig f d c s
  | random a b _ => random a b s

def nodeCount : Expr → Nat
  | var _ _ | number _ _ | string _ _ => 1
  | index _ i _ => 1 + i.nodeCount
  | binary _ l r _ => 1 + (l.nodeCount + r.nodeCount)
  | neg e _ => 1 + e.nodeCount
  | trig _ d c _ => 1 + (d.nodeCount + c.nodeCount)
  | random a b _ => 1 + (a.nodeCount + b.nodeCount)

end Expr

/-! ## Statements -/

/-- Calls into the graphics runtime. -/
inductive Graphics where
  | init
  | window (title width height : Expr)
  | delay (millis : Expr)
  | poll
  | surface (width height : Expr)
  | pixel (x y : Expr)
  | getPixel (x y : Expr) (result : Ident)
  | present
  | clear
  | color (r g b : Expr)
  | line (x1 y1 x2 y2 : Expr)
  deriving DecidableEq

namespace Graphics

def arguments : Graphics → List Expr
  | init | poll | present | clear => []
  | window t w h => [t, w, h]
  | delay m => [m]
  | surface w h => [w, h]
  | pixel x y => [x, y]
  | getPixel x y _ => [x, y]
  | color r g b => [r, g, b]
  | line x1 y1 x2 y2 => [x1, y1, x2, y2]

end Graphics

inductive Stmt where
  | make (name : Ident) (value : Expr) (span : Span)
  | assign (name : Ident) (value : Expr) (span : Span)
  | makeArray (name : Ident) (size : Expr) (span : Span)
  | assignArray (name : Ident) (position value : Expr) (span : Span)
  | when (test : Expr) (body : List Stmt) (span : Span)
  | loop (test : Expr) (body : List Stmt) (span : Span)
  | print (value : Expr) (span : Span)
  | free (name : Ident) (span : Span)
  | func (name : Ident) (params : List Ident) (body : List Stmt) (span : Span)
  | ret (name : Ident) (span : Span)
  | call (callee : Ident) (args : List Expr) (result : Option Ident) (span : Span)
  | graphics (op : Graphics) (span : Span)

namespace Stmt

def span : Stmt → Span
  | make _ _ s | assign _ _ s | makeArray _ _ s | assignArray _ _ _ s | when _ _ s | loop _ _ s | print _ s | free _ s
  | func _ _ _ s | ret _ s | call _ _ _ s | graphics _ s => s

/-- The block a statement holds. -/
def body? : Stmt → Option (List Stmt)
  | when _ body _ | loop _ body _ | func _ _ body _ => some body
  | _ => none

def expressions : Stmt → List Expr
  | make _ e _ | assign _ e _ | makeArray _ e _ | when e _ _ | loop e _ _ | print e _ => [e]
  | assignArray _ i e _ => [i, e]
  | call _ args _ _ => args
  | graphics op _ => op.arguments
  | free _ _ | func _ _ _ _ | ret _ _ => []

end Stmt

/-- Statements and expressions of a list of expressions, counted together. -/
def Expr.listCount (es : List Expr) : Nat :=
  es.foldr (fun e n => e.nodeCount + n) 0

mutual

def Stmt.nodeCount : Stmt → Nat
  | .make _ e _ | .assign _ e _ | .makeArray _ e _ | .print e _ => 1 + e.nodeCount
  | .assignArray _ i e _ => 1 + (i.nodeCount + e.nodeCount)
  | .when t body _ | .loop t body _ => 1 + (t.nodeCount + Stmt.blockCount body)
  | .func _ _ body _ => 1 + Stmt.blockCount body
  | .call _ args _ _ => 1 + Expr.listCount args
  | .graphics op _ => 1 + Expr.listCount op.arguments
  | .free _ _ | .ret _ _ => 1

def Stmt.blockCount : List Stmt → Nat
  | [] => 0
  | s :: rest => s.nodeCount + Stmt.blockCount rest

end

/-- A function as it was declared. -/
structure FuncDecl where
  name : Ident
  params : List Ident
  body : List Stmt
  span : Span

mutual

/-- The functions declared by a statement, those inside its block included, in source order. -/
def Stmt.functions : Stmt → List FuncDecl
  | .func name params body span => ⟨name, params, body, span⟩ :: Stmt.blockFunctions body
  | .when _ body _ | .loop _ body _ => Stmt.blockFunctions body
  | .make _ _ _ | .assign _ _ _ | .makeArray _ _ _ | .assignArray _ _ _ _ | .print _ _ | .free _ _ | .ret _ _
  | .call _ _ _ _ | .graphics _ _ => []

def Stmt.blockFunctions : List Stmt → List FuncDecl
  | [] => []
  | s :: rest => s.functions ++ Stmt.blockFunctions rest

end

mutual

/-- The place of the first graphics statement in a statement. -/
def Stmt.graphicsUse? : Stmt → Option Span
  | .graphics _ span => some span
  | .when _ body _ | .loop _ body _ | .func _ _ body _ => Stmt.blockGraphicsUse? body
  | .make _ _ _ | .assign _ _ _ | .makeArray _ _ _ | .assignArray _ _ _ _ | .print _ _ | .free _ _ | .ret _ _
  | .call _ _ _ _ => none

def Stmt.blockGraphicsUse? : List Stmt → Option Span
  | [] => none
  | s :: rest => s.graphicsUse?.or (Stmt.blockGraphicsUse? rest)

end

/-! ## Programs -/

structure Program where
  statements : List Stmt
  span : Span

namespace Program

def nodeCount (p : Program) : Nat := Stmt.blockCount p.statements

def functions (p : Program) : List FuncDecl := Stmt.blockFunctions p.statements

/-- The place of the first graphics statement anywhere in the program. -/
def graphicsUse? (p : Program) : Option Span := Stmt.blockGraphicsUse? p.statements

end Program
end QuillLang
