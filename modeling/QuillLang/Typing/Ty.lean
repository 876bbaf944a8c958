import QuillLang.Table
/-!
# Types and variable tables

There are two types, and nothing in the source names them: a value is a number or a text.  Where two uses meet, the text
wins.  A variable table gives the variables of one scope their types; the first declaration of a name fixes its type.
-/
namespace QuillLang

inductive Ty where
  | int
  | string
  deriving DecidableEq

namespace Ty

instance : Inhabited Ty := ⟨int⟩

def name : Ty → String
  | int => "Int"
  | string => "String"

def isString : Ty → Bool
  | int => false
  | string => true

/-- The type of a place that both uses have to fit: a text as soon as one is. -/
def join : Ty → Ty → Ty
  | int, t => t
  | string, _ => string

end Ty

abbrev VarTable := Table Ty

namespace VarTable

/-- Declare a variable; an earlier declaration of the name stays in force. -/
def declare (t : VarTable) (name : String) (ty : Ty) : VarTable :=
  t.insertNew name ty

def ofDeclarations (ds : List (String × Ty)) : VarTable :=
  ds.foldl (fun t d => t.declare d.1 d.2) Table.empty

/-- The type of a variable in use; a number when nothing is known of it. -/
def typeOf (t : VarTable) (name : String) : Ty :=
  (t.get? name).getD .int

end VarTable

/-! ## Scopes

A function body has a table of its own and does not see the one around it.  The outermost table is always there, so a
stack of scopes is the current table and those it hides.
-/

structure Scopes where
  current : VarTable
  outer : List VarTable
  deriving DecidableEq

namespace Scopes

def top : Scopes := ⟨Table.empty, []⟩

/-- The number of function scopes entered. -/
def depth (s : Scopes) : Nat := s.outer.length

def enter (s : Scopes) (table : VarTable) : Scopes := ⟨table, s.current :: s.outer⟩

/-- Leave the current function; the top level is never left. -/
def leave (s : Scopes) : Option VarTable × Scopes :=
  match s.outer with
  | [] => (none, s)
  | t :: ts => (some s.current, ⟨t, ts⟩)

def lookup (s : Scopes) (name : String) : Option Ty := s.current.get? name

def declare (s : Scopes) (name : String) (ty : Ty) : Scopes :=
  { s with current := s.current.declare name ty }

def replace (s : Scopes) (table : VarTable) : Scopes :=
  { s with current := table }

end Scopes
end QuillLang
