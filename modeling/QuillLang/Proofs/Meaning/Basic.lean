import QuillLang.Program.Basic
/-!
# What programs of numbers mean

A program of numbers has no texts, no arrays, no graphics and no trigonometry.  This is its meaning, said without regard to
how it is compiled: numbers are 64 bits wide and wrap around, quotients are cut towards zero, a comparison is one or zero,
a test holds when it is not zero.  Every activation has variables of its own, all zero at first; arguments are passed by
value, a `return` leaves its activation at once, and a function that runs off its end gives zero.

A run is bounded: no loop goes round more than `n` times and no call is nested deeper than `n`.  What is printed before the
bound is reached is printed whatever the bound, so a program that never ends is known by its runs under all bounds.
-/
namespace QuillLang

/-! ## Effects -/

inductive Trouble where
  /-- A quotient that is not defined. -/
  | undefined
  /-- Something other than numbers, or a call of no function. -/
  | foreign
  deriving DecidableEq

inductive Ending (α : Type) where
  | done (value : α)
  | fails (trouble : Trouble)
  /-- The bound was reached. -/
  | unfinished
  deriving DecidableEq

structure Effect (α : Type) where
  prints : List Int64
  ending : Ending α
  deriving DecidableEq

namespace Effect
variable {α β : Type}

protected def pure (value : α) : Effect α := ⟨[], .done value⟩

protected def bind (x : Effect α) (f : α → Effect β) : Effect β :=
  match x.ending with
  | .done value => ⟨x.prints ++ (f value).prints, (f value).ending⟩
  | .fails trouble => ⟨x.prints, .fails trouble⟩
  | .unfinished => ⟨x.prints, .unfinished⟩

instance : Monad Effect where
  pure := Effect.pure
  bind := Effect.bind

theorem bind_pure_self (x : Effect α) : x.bind Effect.pure = x := by
  obtain ⟨prints, ending⟩ := x
  cases ending with
  | done v => simp [Effect.bind, Effect.pure]
  | fails t => rfl
  | unfinished => rfl

theorem bind_bind {γ : Type} (x : Effect α) (f : α → Effect β) (g : β → Effect γ) :
    (x.bind f).bind g = x.bind fun v => (f v).bind g := by
  obtain ⟨prints, ending⟩ := x
  cases ending with
  | done v =>
    obtain ⟨more, next, hf⟩ : ∃ more next, f v = ⟨more, next⟩ := ⟨_, _, rfl⟩
    cases next with
    | done u => simp [Effect.bind, hf]
    | fails t => simp [Effect.bind, hf]
    | unfinished => simp [Effect.bind, hf]
  | fails t => rfl
  | unfinished => rfl

instance : LawfulMonad Effect := .mk' Effect bind_pure_self (fun _ _ => rfl) bind_bind

def print (value : Int64) : Effect Unit := ⟨[value], .done ()⟩

def fail (trouble : Trouble) : Effect α := ⟨[], .fails trouble⟩

def unfinished : Effect α := ⟨[], .unfinished⟩

end Effect

/-! ## Numbers -/

namespace BinaryOp

/-- A quotient, unless the divisor is zero or the quotient is one more than the greatest number. -/
def quotient (divide : Int64 → Int64 → Int64) (x y : Int64) : Effect Int64 :=
  if y = 0 ∨ (x = Int64.minValue ∧ y = -1) then .fail .undefined else pure (divide x y)

def truth (p : Prop) [Decidable p] : Int64 := if p then 1 else 0

def value (x y : Int64) : BinaryOp → Effect Int64
  | add => pure (x + y)
  | sub => pure (x - y)
  | mul => pure (x * y)
  | div => quotient (· / ·) x y
  | rem => quotient (· % ·) x y
  | eq => pure (truth (x = y))
  | ne => pure (truth (x ≠ y))
  | lt => pure (truth (x < y))
  | le => pure (truth (x ≤ y))
  | gt => pure (truth (y < x))
  | ge => pure (truth (y ≤ x))

end BinaryOp

/-- The fifteen bits that a seed gives. -/
def randomBits (seed : Int64) : Int64 :=
  ((seed * 1103515245 + 12345).toUInt64 >>> 16).toInt64 &&& 0x7FFF

abbrev Vars := String → Int64

namespace Vars

def zero : Vars := fun _ => 0

def set (vars : Vars) (x : String) (v : Int64) : Vars := fun y => if y = x then v else vars y

/-- The variables of a fresh activation; of two parameters of one name, the later one counts. -/
def ofArguments : List Ident → List Int64 → Vars → Vars
  | x :: xs, v :: vs, vars => ofArguments xs vs (vars.set x.name v)
  | _, _, vars => vars

end Vars

/-! ## Expressions -/

namespace Expr

def value (vars : Vars) : Expr → Effect Int64
  | number v _ => pure v
  | var x _ => pure (vars x)
  | binary op left right _ => do
    let x ← left.value vars
    let y ← right.value vars
    op.value x y
  | neg operand _ => do
    let x ← operand.value vars
    pure (-x)
  | random seed limit _ => do
    let s ← seed.value vars
    let l ← limit.value vars
    BinaryOp.quotient (· % ·) (randomBits s) l
  | string _ _ | index _ _ _ | trig _ _ _ _ => .fail .foreign

def values (vars : Vars) : List Expr → Effect (List Int64)
  | [] => pure []
  | e :: rest => do
    let v ← e.value vars
    let vs ← values vars rest
    pure (v :: vs)

end Expr

/-! ## Statements -/

inductive Flow where
  | goes (vars : Vars)
  | returns (value : Int64)

/-- Rounds of a loop, at most `n`. -/
def rounds (test : Vars → Effect Int64) (body : Vars → Effect Flow) : Nat → Vars → Effect Flow
  | 0, _ => .unfinished
  | n + 1, vars => do
    let v ← test vars
    if v = 0 then pure (.goes vars)
    else
      match ← body vars with
      | .goes vars => rounds test body n vars
      | .returns v => pure (.returns v)

def Vars.receive (vars : Vars) (result : Option Ident) (v : Int64) : Vars :=
  match result with
  | some x => vars.set x.name v
  | none => vars

namespace Stmt
variable (call : String → List Int64 → Effect Int64) (n : Nat)

mutual

/-- Run a statement, with `call` for the functions and at most `n` rounds for every loop. -/
def run : Stmt → Vars → Effect Flow
  | .make x value _, vars | .assign x value _, vars => do
    let v ← value.value vars
    pure (.goes (vars.set x.name v))
  | .when test body _, vars => do
    let v ← test.value vars
    if v = 0 then pure (.goes vars) else runAll body vars
  | .loop test body _, vars => rounds (fun vars => test.value vars) (runAll body) n vars
  | .print value _, vars => do
    let v ← value.value vars
    Effect.print v
    pure (.goes vars)
  -- A function is run when it is called.
  | .func _ _ _ _, vars => pure (.goes vars)
  | .ret x _, vars => pure (.returns (vars x.name))
  | .call callee args result _, vars => do
    let vs ← Expr.values vars args
    let v ← call callee.name vs
    pure (.goes (vars.receive result v))
  | .makeArray _ _ _, _ | .assignArray _ _ _ _, _ | .free _ _, _ | .graphics _ _, _ => .fail .foreign

def runAll : List Stmt → Vars → Effect Flow
  | [], vars => pure (.goes vars)
  | s :: rest, vars => do
    match ← run s vars with
    | .goes vars => runAll rest vars
    | .returns v => pure (.returns v)

end

/-- Run a whole body; one that runs off its end gives zero. -/
def runBody (body : List Stmt) (vars : Vars) : Effect Int64 := do
  match ← runAll call n body vars with
  | .goes _ => pure 0
  | .returns v => pure v

end Stmt

/-! ## Programs -/

namespace Program

def function? (p : Program) (name : String) : Option FuncDecl :=
  p.functions.find? fun f => f.name.name == name

/-- Call a function, with calls nested at most `n` deep. -/
def call (p : Program) : Nat → String → List Int64 → Effect Int64
  | 0, _, _ => .unfinished
  | n + 1, name, vs =>
    match p.function? name with
    | none => .fail .foreign
    | some f => Stmt.runBody (p.call n) n f.body (Vars.ofArguments f.params vs Vars.zero)

/-- Run a program under a bound.  Its value is the exit status, what the top level returns cut to 32 bits. -/
def run (p : Program) (n : Nat) : Effect Int32 := do
  let v ← Stmt.runBody (p.call n) n p.statements Vars.zero
  pure v.toInt32

end Program

/-! ## Programs of numbers -/

def Expr.isNumeric : Expr → Bool
  | .number _ _ | .var _ _ => true
  | .binary _ left right _ => left.isNumeric && right.isNumeric
  | .neg operand _ => operand.isNumeric
  | .random seed limit _ => seed.isNumeric && limit.isNumeric
  | .string _ _ | .index _ _ _ | .trig _ _ _ _ => false

mutual

def Stmt.isNumeric : Stmt → Bool
  | .make _ value _ | .assign _ value _ | .print value _ => value.isNumeric
  | .when test body _ | .loop test body _ => test.isNumeric && Stmt.areNumeric body
  | .func _ _ body _ => Stmt.areNumeric body
  | .call _ args _ _ => args.all Expr.isNumeric
  | .free _ _ | .ret _ _ => true
  | .makeArray _ _ _ | .assignArray _ _ _ _ | .graphics _ _ => false

def Stmt.areNumeric : List Stmt → Bool
  | [] => true
  | s :: rest => s.isNumeric && Stmt.areNumeric rest

end

/-- No string literals, no arrays, no graphics and no sine or cosine, in functions neither. -/
def Program.isNumeric (p : Program) : Bool := Stmt.areNumeric p.statements

end QuillLang
