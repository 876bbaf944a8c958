import QuillLang.Typing.Ty
/-!
# Signatures

What is known of a function's parameters comes from its calls, and of its result from its returns.  A position that has
once been given a text stays a text; what was never recorded counts as a number.
-/
namespace QuillLang

/-- Merge a type into a position; positions before it that were never recorded become numbers. -/
def Ty.mergeAt : List Ty → Nat → Ty → List Ty
  | [], 0, ty => [ty]
  | [], i + 1, ty => .int :: mergeAt [] i ty
  | t :: ts, 0, ty => t.join ty :: ts
  | t :: ts, i + 1, ty => t :: mergeAt ts i ty

structure Signatures where
  params : Table (List Ty)
  returns : Table Ty
  deriving DecidableEq

namespace Signatures

def empty : Signatures := ⟨Table.empty, Table.empty⟩

/-- A call gives position `i` of a function a value of type `ty`. -/
def mergeParam (s : Signatures) (func : String) (i : Nat) (ty : Ty) : Signatures :=
  { s with params := s.params.alter func fun old => Ty.mergeAt (old.getD []) i ty }

/-- A function returns a value of type `ty`. -/
def mergeReturn (s : Signatures) (func : String) (ty : Ty) : Signatures :=
  { s with returns := s.returns.alter func fun old => (old.getD ty).join ty }

/-- The types recorded for a function's positions. -/
def recorded? (s : Signatures) (func : String) : Option (List Ty) :=
  s.params.get? func

def paramType (s : Signatures) (func : String) (i : Nat) : Ty :=
  (((s.recorded? func).getD [])[i]?).getD .int

def paramTypes (s : Signatures) (func : String) (arity : Nat) : List Ty :=
  (List.range arity).map (s.paramType func)

def returnType (s : Signatures) (func : String) : Ty :=
  (s.returns.get? func).getD .int

/-- Every function of which something is recorded, in the order of the names. -/
def functions (s : Signatures) : List String :=
  (s.returns.names.foldl (fun t n => t.insert n ()) (s.params.names.foldl (fun t n => t.insert n ()) Table.empty)).names

end Signatures
end QuillLang
