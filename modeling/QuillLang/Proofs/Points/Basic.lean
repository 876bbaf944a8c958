import QuillLang.Proofs.Ensures
import QuillLang.Proofs.Machine.Basic
/-!
# Points of a lowering run

Lowering is a nest of tasks: a body, its statements, their expressions, the slots they declare.  A point of a run is a task
together with the state in which it is begun.  `Lower.Begins` says which tasks a task begins, and in which states, by running
what comes before them; `Program.Visits` collects the points of a whole run, with the function whose body they belong to.
A run that is refused later on has its points up to there.  A run that is not refused comes to every statement of every
body (`Program.exists_visits`).
-/
namespace QuillLang

def Stmt.value? : Stmt → Option Expr
  | .make _ value _ | .assign _ value _ | .print value _ => some value
  | _ => none

def Stmt.numbers : Stmt → List Expr
  | .makeArray _ size _ => [size]
  | .assignArray _ position value _ => [position, value]
  | .graphics (.window _ _ _) _ => []
  | .graphics op _ => op.arguments
  | _ => []

def Expr.numbers : Expr → List Expr
  | index _ position _ => [position]
  | neg operand _ => [operand]
  | trig _ degrees scale _ => [degrees, scale]
  | random seed limit _ => [seed, limit]
  | _ => []

namespace Lower

/-! ## Tasks -/

inductive Task where
  | params (names : List Ident) (tys : List Ty) (regs : List Register)
  | block (l : List Stmt)
  | stmt (s : Stmt)
  | declare (name : Ident) (kind : SlotKind)
  | arguments (args : List Expr) (tys : List Ty)
  | ints (es : List Expr)
  | expr (e : Expr)

def Task.run : Task → Lower Unit
  | params names tys regs => bindParams names tys regs
  | block l => Lower.block l
  | stmt s => Lower.stmt s
  | declare name kind => do let _ ← declareSlot name kind
  | arguments args tys => do let _ ← Lower.arguments args tys
  | ints es => do let _ ← Lower.ints es
  | expr e => do let _ ← Lower.expr e

/-! ## Tests -/

/-- The blocks of a test, of what depends on it and of what follows. -/
structure TestBlocks where
  cond : BlockId
  body : BlockId
  bodyLabel : String
  rest : BlockId
  restLabel : String

def openTest (cond body rest : String) : Lower TestBlocks := do
  let (condBlock, condLabel) ← build (Builder.createBlock cond)
  let (bodyBlock, bodyLabel) ← build (Builder.createBlock body)
  let (restBlock, restLabel) ← build (Builder.createBlock rest)
  build (Builder.br condBlock)
  startBlock condBlock condLabel
  return ⟨condBlock, bodyBlock, bodyLabel, restBlock, restLabel⟩

def openBody (test : Expr) (blocks : TestBlocks) : Lower Unit := do
  let cond ← condition test
  build (Builder.condBr cond blocks.body blocks.rest)
  startBlock blocks.body blocks.bodyLabel

def deeper : Lower Unit := modify fun s => { s with loopDepth := s.loopDepth + 1 }

theorem stmt_when (test : Expr) (body : List Stmt) (span : Span) : stmt (.when test body span) = (do
    let blocks ← openTest "if.cond" "if.then" "if.end"
    openBody test blocks
    block body
    build (Builder.br blocks.rest)
    startBlock blocks.rest blocks.restLabel) := by
  simp only [stmt, openTest, openBody, bind_assoc, pure_bind]

theorem stmt_loop (test : Expr) (body : List Stmt) (span : Span) : stmt (.loop test body span) = (do
    let blocks ← openTest "while.cond" "while.body" "while.end"
    openBody test blocks
    deeper
    block body
    modify fun s => { s with loopDepth := s.loopDepth - 1 }
    build (Builder.br blocks.cond)
    startBlock blocks.rest blocks.restLabel) := by
  simp only [stmt, openTest, openBody, deeper, bind_assoc, pure_bind]

/-! ## Tasks inside tasks -/

/-- A task begins another one in the state that the part before it leaves. -/
inductive Begins : Task → LowerState → Task → LowerState → Prop where
  | param (name : Ident) (names : List Ident) (ty : Ty) (tys : List Ty) (reg : Register) (regs : List Register)
      (σ : LowerState) :
      Begins (.params (name :: names) (ty :: tys) (reg :: regs)) σ (.declare name (SlotKind.ofTy ty)) σ
  | params {name : Ident} {names : List Ident} {ty : Ty} {tys : List Ty} {reg : Register} {regs : List Register}
      {σ σ' : LowerState} (h : (bindParams [name] [ty] [reg]).run σ = .ok ((), σ')) :
      Begins (.params (name :: names) (ty :: tys) (reg :: regs)) σ (.params names tys regs) σ'
  | first (s : Stmt) (l : List Stmt) (σ : LowerState) : Begins (.block (s :: l)) σ (.stmt s) σ
  | later {s : Stmt} {l : List Stmt} {σ σ' : LowerState} (h : (stmt s).run σ = .ok ((), σ')) :
      Begins (.block (s :: l)) σ (.block l) σ'
  | value {s : Stmt} {e : Expr} {σ : LowerState} (h : s.value? = some e) : Begins (.stmt s) σ (.expr e) σ
  | numbers (s : Stmt) (σ : LowerState) : Begins (.stmt s) σ (.ints s.numbers) σ
  | make {name : Ident} {value : Expr} {span : Span} {v : Lowered} {σ σ' : LowerState}
      (h : (expr value).run σ = .ok (v, σ')) :
      Begins (.stmt (.make name value span)) σ
        (.declare name (SlotKind.ofTy ((σ.scopes.lookup name.name).getD (value.infer σ.scopes.current)))) σ'
  | makeArray {name : Ident} {size : Expr} {span : Span} {count bytes buffer : Operand} {σ σ₁ σ₂ σ' : LowerState}
      (hcount : (int size).run σ = .ok (count, σ₁))
      (hbytes : (build (Builder.intOp .mul count (.int 8))).run σ₁ = .ok (bytes, σ₂))
      (hbuffer : (build (Builder.call "malloc" [bytes])).run σ₂ = .ok (buffer, σ')) :
      Begins (.stmt (.makeArray name size span)) σ (.declare name .array) σ'
  | test {test : Expr} {body : List Stmt} {span : Span} {blocks : TestBlocks} {σ σ' : LowerState}
      (h : (openTest "if.cond" "if.then" "if.end").run σ = .ok (blocks, σ')) :
      Begins (.stmt (.when test body span)) σ (.expr test) σ'
  | branch {test : Expr} {body : List Stmt} {span : Span} {blocks : TestBlocks} {σ σ₁ σ' : LowerState}
      (htest : (openTest "if.cond" "if.then" "if.end").run σ = .ok (blocks, σ₁))
      (hbody : (openBody test blocks).run σ₁ = .ok ((), σ')) :
      Begins (.stmt (.when test body span)) σ (.block body) σ'
  | loopTest {test : Expr} {body : List Stmt} {span : Span} {blocks : TestBlocks} {σ σ' : LowerState}
      (h : (openTest "while.cond" "while.body" "while.end").run σ = .ok (blocks, σ')) :
      Begins (.stmt (.loop test body span)) σ (.expr test) σ'
  | round {test : Expr} {body : List Stmt} {span : Span} {blocks : TestBlocks} {σ σ₁ σ₂ σ' : LowerState}
      (htest : (openTest "while.cond" "while.body" "while.end").run σ = .ok (blocks, σ₁))
      (hbody : (openBody test blocks).run σ₁ = .ok ((), σ₂)) (hdeeper : deeper.run σ₂ = .ok ((), σ')) :
      Begins (.stmt (.loop test body span)) σ (.block body) σ'
  | call {callee : Ident} {args : List Expr} {result : Option Ident} {span : Span} {info : FuncInfo} {σ : LowerState}
      (hinfo : (functionInfo callee).run σ = .ok (info, σ)) (hlength : args.length = info.params.length) :
      Begins (.stmt (.call callee args result span)) σ (.arguments args info.params) σ
  | title (title width height : Expr) (span : Span) (σ : LowerState) :
      Begins (.stmt (.graphics (.window title width height) span)) σ (.expr title) σ
  | window {title width height : Expr} {span : Span} {handle : TextHandle} {σ σ' : LowerState}
      (h : (text title).run σ = .ok (handle, σ')) :
      Begins (.stmt (.graphics (.window title width height) span)) σ (.ints [width, height]) σ'
  | argument (arg : Expr) (args : List Expr) (ty : Ty) (tys : List Ty) (σ : LowerState) :
      Begins (.arguments (arg :: args) (ty :: tys)) σ (.expr arg) σ
  | arguments {arg : Expr} {args : List Expr} {ty : Ty} {tys : List Ty} {passed : List Operand × List TextHandle}
      {σ σ' : LowerState} (h : (arguments [arg] [ty]).run σ = .ok (passed, σ')) :
      Begins (.arguments (arg :: args) (ty :: tys)) σ (.arguments args tys) σ'
  | number (e : Expr) (es : List Expr) (σ : LowerState) : Begins (.ints (e :: es)) σ (.expr e) σ
  | ints {e : Expr} {es : List Expr} {n : Operand} {σ σ' : LowerState} (h : (int e).run σ = .ok (n, σ')) :
      Begins (.ints (e :: es)) σ (.ints es) σ'
  | operands (e : Expr) (σ : LowerState) : Begins (.expr e) σ (.ints e.numbers) σ
  | left (op : BinaryOp) (l r : Expr) (span : Span) (σ : LowerState) : Begins (.expr (.binary op l r span)) σ (.expr l) σ
  | right {op : BinaryOp} {l r : Expr} {span : Span} {v : Lowered} {σ σ' : LowerState}
      (h : (expr l).run σ = .ok (v, σ')) : Begins (.expr (.binary op l r span)) σ (.expr r) σ'

/-! ## Bodies -/

/-- A program up to its functions, and then some of these. -/
def openProgram (p : Program) (sigs : Signatures) (withGraphics : Bool) (fs : List FuncDecl) : Lower Unit := do
  build (External.declareAll External.core)
  if withGraphics then build (External.declareAll External.graphics)
  declareFunctions sigs p.functions
  functions sigs fs

def openFunction (sigs : Signatures) (f : FuncDecl) : Lower (FuncInfo × List Register) := do
  let info ← functionInfo f.name
  let regs ← build (Builder.startRoutine info.symbol (info.params.map Ty.machineType) info.ret.machineType)
  enterFunction (f.scope sigs) info.ret
  return (info, regs)

def openTop (p : Program) : Lower Unit := do
  let _ ← build (Builder.startRoutine "main" [] .i32)
  modify fun s =>
    { s with
      scopes := s.scopes.replace (Stmt.declareAll Table.empty p.statements)
      ret := none
      loopDepth := 0
      afterReturn := false }

theorem program_eq (p : Program) (sigs : Signatures) (withGraphics : Bool) : program p sigs withGraphics = (do
    openProgram p sigs withGraphics p.functions
    topLevel p) := by
  cases withGraphics <;> simp [program, openProgram]

theorem functions_append (sigs : Signatures) : ∀ fs fs' : List FuncDecl, functions sigs (fs ++ fs') = (do
    functions sigs fs
    functions sigs fs')
  | [], _ => by simp only [functions, List.nil_append, pure_bind]
  | f :: fs, fs' => by simp only [List.cons_append, functions, functions_append sigs fs fs', bind_assoc]

theorem openProgram_eq (p : Program) (sigs : Signatures) (withGraphics : Bool) (fs : List FuncDecl) :
    openProgram p sigs withGraphics fs = (do
      externals withGraphics
      declareFunctions sigs p.functions
      functions sigs fs) := by
  cases withGraphics <;> simp [openProgram, externals]

theorem openProgram_append (p : Program) (sigs : Signatures) (withGraphics : Bool) (fs fs' : List FuncDecl) :
    openProgram p sigs withGraphics (fs ++ fs') = (do
      openProgram p sigs withGraphics fs
      functions sigs fs') := by
  cases withGraphics <;> simp [openProgram, functions_append]

theorem function_eq (sigs : Signatures) (f : FuncDecl) : function sigs f = (do
    let (info, regs) ← openFunction sigs f
    bindParams f.params info.params regs
    block f.body
    unless (← get).builder.isTerminated do implicitReturn info.ret
    build Builder.finishRoutine
    leaveFunction) := by
  simp only [function, openFunction, bind_assoc, pure_bind]

theorem topLevel_eq (p : Program) : topLevel p = (do
    openTop p
    block p.statements
    if (← get).afterReturn then build Builder.unreachable
    else build (Builder.ret (some (.i32, .int 0)))
    build Builder.finishRoutine) := by
  simp only [topLevel, openTop, bind_assoc]

end Lower

open Lower in
/-- The points of a lowering run, each with the function to whose body it belongs, or none at the top level. -/
inductive Program.Visits (p : Program) (sigs : Signatures) (options : LowerOptions) :
    Option FuncDecl → Task → LowerState → Prop where
  | params {withGraphics : Bool} {before after : List FuncDecl} {f : FuncDecl} {info : FuncInfo} {regs : List Register}
      {σ₀ σ : LowerState} (hgraphics : declaresGraphics options.graphics p = .ok withGraphics)
      (hfunctions : p.functions = before ++ f :: after)
      (hbefore : (openProgram p sigs withGraphics before).run (initial options) = .ok ((), σ₀))
      (hopen : (openFunction sigs f).run σ₀ = .ok ((info, regs), σ)) :
      Visits p sigs options (some f) (.params f.params info.params regs) σ
  | body {withGraphics : Bool} {before after : List FuncDecl} {f : FuncDecl} {info : FuncInfo} {regs : List Register}
      {σ₀ σ₁ σ : LowerState} (hgraphics : declaresGraphics options.graphics p = .ok withGraphics)
      (hfunctions : p.functions = before ++ f :: after)
      (hbefore : (openProgram p sigs withGraphics before).run (initial options) = .ok ((), σ₀))
      (hopen : (openFunction sigs f).run σ₀ = .ok ((info, regs), σ₁))
      (hparams : (bindParams f.params info.params regs).run σ₁ = .ok ((), σ)) :
      Visits p sigs options (some f) (.block f.body) σ
  | top {withGraphics : Bool} {σ₀ σ : LowerState} (hgraphics : declaresGraphics options.graphics p = .ok withGraphics)
      (hbefore : (openProgram p sigs withGraphics p.functions).run (initial options) = .ok ((), σ₀))
      (hopen : (openTop p).run σ₀ = .ok ((), σ)) : Visits p sigs options none (.block p.statements) σ
  | inside {owner : Option FuncDecl} {task task' : Task} {σ σ' : LowerState} (h : Visits p sigs options owner task σ)
      (hbegins : Begins task σ task' σ') : Visits p sigs options owner task' σ'

/-! ## Every statement is visited -/

/-- A statement of a body, in it or in a block inside it.  A function declared inside is another body. -/
inductive Stmt.Within (s : Stmt) : List Stmt → Prop where
  | here (l : List Stmt) : Within s (s :: l)
  | later {first : Stmt} {l : List Stmt} (h : Within s l) : Within s (first :: l)
  | when {test : Expr} {body l : List Stmt} {span : Span} (h : Within s body) : Within s (.when test body span :: l)
  | loop {test : Expr} {body l : List Stmt} {span : Span} (h : Within s body) : Within s (.loop test body span :: l)

namespace Program
variable {p : Program} {sigs : Signatures} {options : LowerOptions} {a : Assembly}

open Lower

theorem exists_run_of_lower (h : p.lower sigs options = .ok a) : ∃ withGraphics σ,
    declaresGraphics options.graphics p = .ok withGraphics ∧
      (program p sigs withGraphics).run (initial options) = .ok ((), σ) ∧ a = σ.builder.finish := by
  unfold Program.lower at h
  obtain ⟨withGraphics, hgraphics, h⟩ := exists_of_bind_ok h
  obtain ⟨⟨_, σ⟩, hrun, h⟩ := exists_of_bind_ok h
  dsimp only at h
  split at h
  · cases h
    exact ⟨withGraphics, σ, hgraphics, hrun, rfl⟩
  · cases h

theorem exists_visits_of_within {owner : Option FuncDecl} {s : Stmt} {l : List Stmt} (hs : s.Within l) :
    ∀ {σ σ' : LowerState}, p.Visits sigs options owner (.block l) σ → (block l).run σ = .ok ((), σ') →
      ∃ σ₁ σ₂, p.Visits sigs options owner (.stmt s) σ₁ ∧ (stmt s).run σ₁ = .ok ((), σ₂) := by
  induction hs with
  | here l =>
    intro σ σ' hvisits hrun
    rw [block] at hrun
    obtain ⟨_, σ₁, hstmt, -⟩ := exists_of_run_bind hrun
    exact ⟨σ, σ₁, hvisits.inside (.first s l σ), hstmt⟩
  | later _ ih =>
    intro σ σ' hvisits hrun
    rw [block] at hrun
    obtain ⟨_, σ₁, hstmt, hrest⟩ := exists_of_run_bind hrun
    exact ih (hvisits.inside (.later hstmt)) hrest
  | when _ ih =>
    intro σ σ' hvisits hrun
    rw [block] at hrun
    obtain ⟨_, _, hstmt, -⟩ := exists_of_run_bind hrun
    rw [stmt_when] at hstmt
    obtain ⟨blocks, σ₁, htest, hstmt⟩ := exists_of_run_bind hstmt
    obtain ⟨_, σ₂, hbody, hstmt⟩ := exists_of_run_bind hstmt
    obtain ⟨_, _, hblock, -⟩ := exists_of_run_bind hstmt
    exact ih ((hvisits.inside (.first _ _ σ)).inside (.branch htest hbody)) hblock
  | loop _ ih =>
    intro σ σ' hvisits hrun
    rw [block] at hrun
    obtain ⟨_, _, hstmt, -⟩ := exists_of_run_bind hrun
    rw [stmt_loop] at hstmt
    obtain ⟨blocks, σ₁, htest, hstmt⟩ := exists_of_run_bind hstmt
    obtain ⟨_, σ₂, hbody, hstmt⟩ := exists_of_run_bind hstmt
    obtain ⟨_, σ₃, hdeeper, hstmt⟩ := exists_of_run_bind hstmt
    obtain ⟨_, _, hblock, -⟩ := exists_of_run_bind hstmt
    exact ih ((hvisits.inside (.first _ _ σ)).inside (.round htest hbody hdeeper)) hblock

/-- **Lowering comes to every statement** of every body, and gets past it, unless the program is refused. -/
theorem exists_visits (h : p.lower sigs options = .ok a) :
    (∀ f ∈ p.functions, ∀ s : Stmt, s.Within f.body →
      ∃ σ σ', p.Visits sigs options (some f) (.stmt s) σ ∧ (stmt s).run σ = .ok ((), σ')) ∧
    ∀ s : Stmt, s.Within p.statements →
      ∃ σ σ', p.Visits sigs options none (.stmt s) σ ∧ (stmt s).run σ = .ok ((), σ') := by
  obtain ⟨withGraphics, σ', hgraphics, hrun, -⟩ := exists_run_of_lower h
  rw [program_eq] at hrun
  obtain ⟨_, σ₀, hbefore, htop⟩ := exists_of_run_bind hrun
  constructor
  · intro f hf s hs
    obtain ⟨before, after, hfunctions⟩ := List.append_of_mem hf
    have hfirst : ∃ σ₁ σ₂, (openProgram p sigs withGraphics before).run (initial options) = .ok ((), σ₁) ∧
        (Lower.functions sigs (f :: after)).run σ₁ = .ok ((), σ₂) := by
      have hsplit : openProgram p sigs withGraphics p.functions = (do
          openProgram p sigs withGraphics before
          Lower.functions sigs (f :: after)) :=
        (congrArg (openProgram p sigs withGraphics) hfunctions).trans (openProgram_append p sigs withGraphics before _)
      rw [hsplit] at hbefore
      obtain ⟨_, σ₁, hbefore, hrest⟩ := exists_of_run_bind hbefore
      exact ⟨σ₁, σ₀, hbefore, hrest⟩
    obtain ⟨σ₁, σ₂, hbefore, hrest⟩ := hfirst
    rw [Lower.functions, function_eq] at hrest
    obtain ⟨_, _, hfunction, -⟩ := exists_of_run_bind hrest
    obtain ⟨⟨info, regs⟩, σ₃, hopen, hfunction⟩ := exists_of_run_bind hfunction
    obtain ⟨_, σ₄, hparams, hfunction⟩ := exists_of_run_bind hfunction
    obtain ⟨_, σ₅, hblock, -⟩ := exists_of_run_bind hfunction
    exact exists_visits_of_within hs (.body hgraphics hfunctions hbefore hopen hparams) hblock
  · intro s hs
    rw [topLevel_eq] at htop
    obtain ⟨_, σ₁, hopen, htop⟩ := exists_of_run_bind htop
    obtain ⟨_, σ₂, hblock, -⟩ := exists_of_run_bind htop
    exact exists_visits_of_within hs (.top hgraphics hbefore hopen) hblock

end Program
end QuillLang
