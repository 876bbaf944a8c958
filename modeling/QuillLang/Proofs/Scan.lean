import QuillLang.Typing.Infer
/-!
# Returns before declarations

A return frees the variables declared before it.  A variable declared later holds nothing yet, unless a loop brought
control back from its declaration to the return.  A scan over a body finds such variables: those with a buffer whose first
declaration follows a return of the same outermost loop.
-/
namespace QuillLang

/-- What a scan has met. -/
structure Scan where
  declared : List String
  /-- A return, in the outermost loop at hand. -/
  returned : Bool
  /-- A variable with a buffer that was first declared after a return of the same outermost loop. -/
  early : Bool
  deriving DecidableEq

def Scan.declare (sc : Scan) (inLoop : Bool) (name : String) (heap : Bool) : Scan :=
  if name ∈ sc.declared then sc
  else ⟨name :: sc.declared, sc.returned, sc.early || (heap && inLoop && sc.returned)⟩

mutual

def Stmt.scan (vars : VarTable) (inLoop : Bool) (sc : Scan) : Stmt → Scan
  | .make name value _ => sc.declare inLoop name.name ((vars.get? name.name).getD (value.infer vars)).isString
  | .makeArray name _ _ => sc.declare inLoop name.name true
  | .ret _ _ => { sc with returned := true }
  | .when _ body _ => Stmt.scanAll vars inLoop sc body
  | .loop _ body _ => Stmt.scanAll vars true { sc with returned := inLoop && sc.returned } body
  | .assign _ _ _ | .assignArray _ _ _ _ | .print _ _ | .free _ _ | .func _ _ _ _ | .call _ _ _ _ | .graphics _ _ => sc

def Stmt.scanAll (vars : VarTable) (inLoop : Bool) (sc : Scan) : List Stmt → Scan
  | [] => sc
  | s :: rest => Stmt.scanAll vars inLoop (s.scan vars inLoop sc) rest

end

/-- Does a return of a loop stand before the first declaration of a text or an array in that loop? -/
def FuncDecl.returnsEarly (f : FuncDecl) (sigs : Signatures) : Bool :=
  (Stmt.scanAll (f.scope sigs) false ⟨f.params.map Ident.name, false, false⟩ f.body).early

end QuillLang
