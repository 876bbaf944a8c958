import QuillLang.Proofs.Graph.Acts
/-!
# From routine to routine

A program is lowered routine by routine: each is begun, made by a row of acts and finished.  So what holds before the first
routine holds in the end, if beginning a routine, every act and finishing it keep it (`Program.exists_of_lower`).
-/
namespace QuillLang


namespace Builder

/-- Before the first routine: the routines that are there have no code. -/
structure Opening (name : String) (b : Builder) : Prop where
  name : b.assembly.name = name
  routine : b.routine = none
  block : b.block = none
  prologue : b.prologue = []
  routines : ∀ r ∈ b.assembly.routines, r.blocks = []

/-- What the finished routines satisfy, each instruction of the open one, and each that waits for its head. -/
structure Coded (R : Routine → Prop) (P Q : Instr → Prop) (b : Builder) : Prop where
  routines : ∀ r ∈ b.assembly.routines, R r
  routine : ∀ r, b.routine = some r → ∀ i ∈ r.instrs, P i
  block : ∀ k, b.block = some k → ∀ i ∈ k.instrs, P i
  prologue : ∀ i ∈ b.prologue, Q i

namespace Coded
variable {frees : Bool} {R : Routine → Prop} {P Q : Instr → Prop} {b b' : Builder}

theorem wrote (h : Coded R P Q b) {i : Instr} (hi : P i) : Coded R P Q (b.wrote i) := by
  refine ⟨h.routines, h.routine, fun k hk => ?_, h.prologue⟩
  obtain ⟨k₀, hk₀, rfl⟩ := Option.map_eq_some_iff.1 hk
  exact List.forall_mem_append.2 ⟨h.block k₀ hk₀, List.forall_mem_singleton.2 hi⟩

theorem terminate (h : Coded R P Q b) (t : Terminator) : Coded R P Q ((terminate t).run b).2 := by
  refine ⟨h.routines, h.routine, fun k hk => ?_, h.prologue⟩
  obtain ⟨k₀, hk₀, rfl⟩ := Option.map_eq_some_iff.1 hk
  exact h.block k₀ hk₀

theorem closeBlock (h : Coded R P Q b) {r : Routine} (hr : b.routine = some r) :
    ∀ i ∈ ({ r with blocks := r.blocks ++ b.block.toList } : Routine).instrs, P i := by
  intro i hi
  rw [Routine.instrs, List.flatMap_append, List.mem_append] at hi
  rcases hi with hi | hi
  · exact h.routine r hr i hi
  · obtain ⟨k, hk, hi⟩ := List.mem_flatMap.1 hi
    exact h.block k (Option.mem_toList.1 hk) i hi

theorem startBlock (h : Coded R P Q b) (id : BlockId) (label : String) : Coded R P Q ((startBlock id label).run b).2 := by
  rw [startBlock_eq]
  refine ⟨h.routines, fun r hr => ?_, by simp, h.prologue⟩
  obtain ⟨r₀, hr₀, rfl⟩ := Option.map_eq_some_iff.1 hr
  exact h.closeBlock hr₀

/-- **Each act keeps it**, if what may be written satisfies it. -/
theorem act (h : Coded R P Q b) (ha : b.Act frees b')
    (hP : ∀ i, b.Links i → (i.stores? = some .null → frees = true) → P i)
    (hQ : ∀ i, b.Links i → (∀ v ∈ i.stores?, v = .null) → Q i) : Coded R P Q b' := by
  cases ha with
  | aside hb =>
    refine ⟨?_, hb.routine ▸ h.routine, hb.block ▸ h.block, hb.prologue ▸ h.prologue⟩
    rw [hb.assembly]
    exact h.routines
  | write _ hlinks hfilled => exact h.wrote (hP _ hlinks hfilled)
  | slot _ hlinks hempty =>
    exact ⟨h.routines, h.routine, h.block,
      List.forall_mem_append.2 ⟨h.prologue, List.forall_mem_singleton.2 (hQ _ hlinks hempty)⟩⟩
  | close t => exact h.terminate t
  | start => exact h.startBlock _ _
  | quit hlinks hempty t => exact ((h.wrote (hP _ hlinks (by simp [hempty]))).terminate t).startBlock _ _

variable (hR : ∀ r is, (∀ i ∈ r.instrs, P i) → (∀ i ∈ is, Q i) → R (withPrologue r is))
include hR

theorem closeRoutine (h : Coded R P Q b) : Coded R P Q b.closeRoutine := by
  rw [closeRoutine_eq]
  refine ⟨List.forall_mem_append.2 ⟨h.routines, fun r hr => ?_⟩, by simp, by simp, by simp⟩
  obtain ⟨r₀, hr₀, rfl⟩ := Option.map_eq_some_iff.1 (Option.mem_toList.1 hr)
  exact hR _ _ (h.closeBlock hr₀) h.prologue

theorem startRoutine (h : Coded R P Q b) (name : String) (params : List MachineType) (ret : MachineType) :
    Coded R P Q ((startRoutine name params ret).run b).2 := by
  obtain ⟨ps, hrun, -⟩ := run_startRoutine name params ret b
  rw [hrun]
  refine ⟨(h.closeRoutine hR).routines, fun r hr => ?_, fun k hk => ?_, (h.closeRoutine hR).prologue⟩
  · cases hr
    simp [Routine.instrs]
  · cases hk
    simp

end Coded

theorem Opening.coded {R : Routine → Prop} {P Q : Instr → Prop} {title : String} {b : Builder} (h : b.Opening title)
    (hR : ∀ r, r.blocks = [] → R r) : Coded R P Q b :=
  ⟨fun r hr => hR r (h.routines r hr), by simp [h.routine], by simp [h.block], by simp [h.prologue]⟩

theorem Becomes.keeps {frees : Bool} {I : Builder → Prop} (act : ∀ b b', I b → b.Act frees b' → I b')
    {b b' : Builder} (h : b.Becomes frees b') (hb : I b) : I b' := by
  induction h with
  | refl => exact hb
  | act _ ha ih => exact act _ _ ih ha

theorem signatures_closeRoutine (b : Builder) : b.closeRoutine.signatures = b.signatures := by
  rw [closeRoutine_eq]

theorem name_closeRoutine (b : Builder) : b.closeRoutine.assembly.name = b.assembly.name := by
  rw [closeRoutine_eq]

theorem assembly_finish (b : Builder) : b.closeRoutine.finish = b.closeRoutine.assembly := by
  rw [finish, closeRoutine_of_none] <;> rw [closeRoutine_eq]

end Builder

namespace LowerState
variable {σ σ' : LowerState}

theorem Able.of_answers (h : σ.Able) (hb : ∀ callee, σ.builder.Answers callee → σ'.builder.Answers callee)
    (hf : σ'.functions = σ.functions) : σ'.Able := by
  refine ⟨hb _ h.malloc, fun name info hinfo => ?_⟩
  obtain ⟨hexit, hanswers⟩ := h.functions name info (hf ▸ hinfo)
  exact ⟨hexit, hb _ hanswers⟩

end LowerState

theorem machineType_ne_void (ty : Ty) : ty.machineType ≠ .void := by
  cases ty <;> decide

theorem Declared.able {es : List External} {sigs : Signatures} {fs : List FuncDecl}
    {signature : String → Option CallSignature} {σ : LowerState} (h : Declared es sigs fs signature σ.functions)
    (hcore : ∀ e ∈ External.core, e ∈ es) (hsignatures : ∀ name, σ.builder.signatures.get? name = signature name) :
    σ.Able := by
  refine ⟨?_, fun name info hinfo => ?_⟩
  · refine ⟨⟨[.i64], .ptr, false⟩, ?_, by simp⟩
    rw [hsignatures]
    exact h.external ⟨"malloc", [.i64], .ptr, false⟩ (hcore _ (by simp [External.core]))
  · obtain ⟨hsymbol, hsignature⟩ := h.linked name info hinfo
    refine ⟨fun hexit => ?_, _, (hsignatures _).trans hsignature, machineType_ne_void info.ret⟩
    have hmem : "exit" ∈ External.names := by decide
    exact External.function_not_mem name (by rw [← hsymbol, hexit]; exact hmem)

namespace Lower

theorem able_startRoutine {σ : LowerState} (h : σ.Able) {ret : MachineType} (hret : ret ≠ .void) (name : String)
    (params : List MachineType) : Gives (build (Builder.startRoutine name params ret)) σ fun _ σ' => σ'.Able := by
  refine .build (h.of_answers (fun callee hcallee => ?_) rfl)
  obtain ⟨ps, hrun, -⟩ := Builder.run_startRoutine name params ret σ.builder
  obtain ⟨sig, hsig, hne⟩ := hcallee
  rw [hrun]
  unfold Builder.Answers
  dsimp only
  rw [Table.get?_insert, σ.builder.signatures_closeRoutine]
  split
  · exact ⟨_, rfl, hret⟩
  · exact ⟨sig, hsig, hne⟩

section
variable {frees : Bool} {A I : Builder → Prop} (start : ∀ b name params ret, A b →
    I ((Builder.startRoutine name params ret).run b).2) (act : ∀ b b', I b → b.Act frees b' → I b')
  (finish : ∀ b, I b → A b.closeRoutine) {σ : LowerState}

include start in
theorem gives_startRoutine (hσ : σ.Able) (h : A σ.builder) (name : String) (params : List MachineType)
    {ret : MachineType} (hret : ret ≠ .void) :
    Gives (build (Builder.startRoutine name params ret)) σ fun _ σ' => σ'.Able ∧ I σ'.builder :=
  (able_startRoutine hσ hret name params).and (.build (start _ _ _ _ h))

include act in
theorem Orderly.inside {α : Type} {p q : Builder.Phase} {x : Lower α} {P : α → LowerState → Prop}
    (hx : Orderly (View.acts frees) σ p x P q) (hσ : σ.Able) (h : I σ.builder) :
    Gives x σ fun _ σ' => σ'.Able ∧ I σ'.builder :=
  (hx.gives hσ).imp fun _ _ hx => ⟨hx.1.able hσ, hx.1.becomes.keeps act h⟩

include finish in
theorem gives_finishRoutine (hσ : σ.Able) (h : I σ.builder) : Gives (build Builder.finishRoutine) σ fun _ σ' =>
    σ'.Able ∧ A σ'.builder ∧ σ'.builder.finish = σ'.builder.assembly := by
  refine .build ⟨hσ.of_answers (fun callee hc => ?_) rfl, finish _ h, σ.builder.assembly_finish⟩
  show σ.builder.closeRoutine.Answers callee
  unfold Builder.Answers
  rw [σ.builder.signatures_closeRoutine]
  exact hc

include start act finish

theorem gives_apart_function (hσ : σ.Able) (h : A σ.builder) (sigs : Signatures) {f : FuncDecl}
    (hfrees : Stmt.blockFrees f.body = true → frees = true) :
    Gives (function sigs f) σ fun _ σ' => σ'.Able ∧ A σ'.builder := by
  refine (gives_functionInfo f.name).bind ?_
  rintro info _ ⟨rfl, -⟩
  refine (gives_startRoutine start hσ h _ _ (machineType_ne_void info.ret)).bind fun regs σ₁ h₁ => ?_
  refine Gives.bind (.modify (Q := fun _ σ₂ => σ₂.Able ∧ I σ₂.builder) ⟨⟨h₁.1.malloc, h₁.1.functions⟩, h₁.2⟩) ?_
  intro _ σ₂ h₂
  refine ((acts_bindParams _ _ _).inside act h₂.1 h₂.2).bind fun _ σ₃ h₃ => ?_
  refine ((acts_block f.body hfrees).inside act h₃.1 h₃.2).bind fun _ σ₄ h₄ => ?_
  have hend : ∀ σ' : LowerState, σ'.Able ∧ I σ'.builder → Gives (do build Builder.finishRoutine; leaveFunction) σ'
      fun _ σ' => σ'.Able ∧ A σ'.builder := fun σ' h' =>
    (gives_finishRoutine finish h'.1 h'.2).bind fun _ _ h'' => .modify ⟨⟨h''.1.malloc, h''.1.functions⟩, h''.2.1⟩
  refine .get_bind ?_
  split
  · exact hend σ₄ h₄
  · exact ((orderly_implicitReturn trivial info.ret).inside act h₄.1 h₄.2).bind fun _ σ₅ h₅ => hend σ₅ h₅

theorem gives_apart_functions (sigs : Signatures) : ∀ {fs : List FuncDecl} {σ : LowerState}, σ.Able → A σ.builder →
    (∀ f ∈ fs, Stmt.blockFrees f.body = true → frees = true) →
      Gives (functions sigs fs) σ fun _ σ' => σ'.Able ∧ A σ'.builder
  | [], _, hσ, h, _ => .pure ⟨hσ, h⟩
  | _ :: _, _, hσ, h, hfs =>
    (gives_apart_function start act finish hσ h sigs (hfs _ List.mem_cons_self)).bind fun _ _ h₁ =>
      gives_apart_functions sigs h₁.1 h₁.2 fun f hf => hfs f (List.mem_cons_of_mem _ hf)

theorem gives_apart_topLevel (hσ : σ.Able) (h : A σ.builder) {p : Program} (hfrees : p.frees = true → frees = true) :
    Gives (topLevel p) σ fun _ σ' => A σ'.builder ∧ σ'.builder.finish = σ'.builder.assembly := by
  refine (gives_startRoutine start hσ h "main" [] (by decide)).bind fun _ σ₁ h₁ => ?_
  refine Gives.bind (.modify (Q := fun _ σ₂ => σ₂.Able ∧ I σ₂.builder) ⟨⟨h₁.1.malloc, h₁.1.functions⟩, h₁.2⟩) ?_
  intro _ σ₂ h₂
  refine ((acts_block p.statements hfrees).inside act h₂.1 h₂.2).bind fun _ σ₃ h₃ => ?_
  have hend (t : Terminator) : Gives (do build (Builder.terminate t); build Builder.finishRoutine) σ₃ fun _ σ' =>
      A σ'.builder ∧ σ'.builder.finish = σ'.builder.assembly :=
    ((Builder.orderly_terminate trivial t).inside act h₃.1 h₃.2).bind fun _ _ h₄ =>
      (gives_finishRoutine finish h₄.1 h₄.2).imp fun _ _ h => h.2
  refine .get_bind ?_
  split
  · exact hend .unreachable
  · exact hend (.ret (some (.i32, .int 0)))

end

theorem gives_opening (p : Program) (sigs : Signatures) (options : LowerOptions) (withGraphics : Bool) :
    Gives (openProgram p sigs withGraphics []) (initial options) fun _ σ =>
      σ.Able ∧ σ.builder.Opening options.moduleName := by
  rw [openProgram_eq, ← bind_assoc]
  refine (ensures_prepared p sigs options withGraphics).gives.bind ?_
  rintro _ σ ⟨es, h⟩
  refine .pure ⟨h.declared.able h.core fun _ => rfl, h.name, h.idle.routine, h.idle.block, h.prologue, fun r hr => ?_⟩
  rw [h.routines] at hr
  obtain ⟨e, -, rfl⟩ := List.mem_map.1 hr
  rfl

end Lower

/-- **What holds before the first routine holds in the end**, if it is kept from the beginning of a routine over every act
to the end of the routine. -/
theorem Program.exists_of_lower {p : Program} {sigs : Signatures} {options : LowerOptions} {a : Assembly}
    {A I : Builder → Prop} (h : p.lower sigs options = .ok a)
    (opening : ∀ b, b.Opening options.moduleName → A b)
    (start : ∀ b name params ret, A b → I ((Builder.startRoutine name params ret).run b).2)
    (act : ∀ b b', I b → b.Act p.frees b' → I b') (finish : ∀ b, I b → A b.closeRoutine) :
    ∃ b, A b ∧ a = b.assembly := by
  obtain ⟨withGraphics, σ, -, hrun, rfl⟩ := exists_run_of_lower h
  rw [Lower.program_eq] at hrun
  obtain ⟨_, σ₁, hopen, htop⟩ := Lower.exists_of_run_bind hrun
  rw [show p.functions = [] ++ p.functions from rfl, Lower.openProgram_append] at hopen
  obtain ⟨_, σ₀, hopening, hfunctions⟩ := Lower.exists_of_run_bind hopen
  obtain ⟨hσ₀, hb₀⟩ := Lower.gives_opening p sigs options withGraphics _ _ hopening
  have hfrees : ∀ f ∈ p.functions, Stmt.blockFrees f.body = true → p.frees = true := by
    intro f hf htrue
    cases hp : p.frees with
    | true => rfl
    | false => rw [Stmt.blockFrees_of_functions p.statements hp hf] at htrue; cases htrue
  obtain ⟨hσ₁, h₁⟩ := Lower.gives_apart_functions start act finish sigs hσ₀ (opening _ hb₀) hfrees _ _ hfunctions
  obtain ⟨hapart, hfinish⟩ := Lower.gives_apart_topLevel start act finish hσ₁ h₁ id _ _ htop
  exact ⟨_, hapart, hfinish⟩

end QuillLang
