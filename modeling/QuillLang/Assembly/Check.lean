import QuillLang.Assembly.Basic
/-!
# Well-formed assemblies

Before an assembly is listed it is checked: no name is used twice, every defined routine has blocks, every block is closed
and branches inside its routine, and every call names a routine and gives it as many arguments as it takes.  What the
compiler makes always passes; the check guards against faults of its own.
-/
namespace QuillLang

inductive CheckError where
  | emptyRoutine (routine : String)
  | openBlock (routine block : String)
  | unknownBlock (routine : String) (target : BlockId)
  | undeclaredCallee (routine callee : String)
  | wrongArity (routine callee : String) (expected found : Nat)
  | duplicateRoutine (name : String)
  deriving DecidableEq

namespace CheckError

def message : CheckError → String
  | emptyRoutine r => "function `" ++ r ++ "` has no body"
  | openBlock r b => "block `" ++ b ++ "` in `" ++ r ++ "` has no terminator"
  | unknownBlock r t => "branch in `" ++ r ++ "` targets unknown block " ++ t.text
  | undeclaredCallee r c => "`" ++ r ++ "` calls undeclared function `" ++ c ++ "`"
  | wrongArity r c e f =>
    "call to `" ++ c ++ "` in `" ++ r ++ "` passes " ++ Decimal.ofNat f ++ " argument(s), expected " ++ Decimal.ofNat e
  | duplicateRoutine n => "function `" ++ n ++ "` is defined more than once"

end CheckError

namespace Assembly

/-- The first name that a routine before it has too. -/
def duplicate? (seen : List String) : List Routine → Option String
  | [] => none
  | r :: rest => if r.name ∈ seen then some r.name else duplicate? (r.name :: seen) rest

/-- Check a call: the callee is a routine and takes that many arguments. -/
def checkInstr (a : Assembly) (r : Routine) (i : Instr) : Except CheckError Unit :=
  match i.operation with
  | .call callee _ args _ =>
    match a.routine? callee with
    | none => .error (.undeclaredCallee r.name callee)
    | some f =>
      if args.length < f.params.length ∨ (f.isVariadic = false ∧ args.length ≠ f.params.length) then
        .error (.wrongArity r.name callee f.params.length args.length)
      else .ok ()
  | _ => .ok ()

def checkBlock (a : Assembly) (r : Routine) (b : Block) : Except CheckError Unit :=
  match b.terminator with
  | none => .error (.openBlock r.name b.label)
  | some t =>
    match t.successors.find? fun id => !r.blocks.any fun b => b.id == id with
    | some id => .error (.unknownBlock r.name id)
    | none => b.instrs.forM (a.checkInstr r)

def checkRoutine (a : Assembly) (r : Routine) : Except CheckError Unit :=
  if r.blocks.isEmpty then .error (.emptyRoutine r.name) else r.blocks.forM (a.checkBlock r)

def check (a : Assembly) : Except CheckError Unit :=
  match duplicate? [] a.routines with
  | some name => .error (.duplicateRoutine name)
  | none => (a.routines.filter (!·.isExternal)).forM a.checkRoutine

end Assembly
end QuillLang
