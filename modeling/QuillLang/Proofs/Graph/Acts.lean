import QuillLang.Proofs.Points.Walk
/-!
# What lowering does to a routine

Between the head and the end of a routine, lowering does few things to the builder: it takes numbers and constants, writes
instructions and slots, ends the open block and begins another one, labelled by a name and its number.  `exit` is called
only where a block ends at once, code names no constant that is not there, and null is stored among it by `free` alone.
`Builder.Act` lists these acts.  Each call that lowering makes in a body is a row of them (`Builder.Call.acts`), and so is
whatever a statement says (`View.acts`): what each act keeps, every body keeps.
-/
namespace QuillLang

/-! ## Programs with `free` -/

def Program.frees (p : Program) : Bool := Stmt.blockFrees p.statements

mutual

theorem Stmt.frees_of_functions {f : FuncDecl} : ∀ s : Stmt, s.frees = false → f ∈ s.functions →
    Stmt.blockFrees f.body = false
  | .func name params body span, h, hf => by
    rcases List.mem_cons.1 hf with rfl | hf
    · exact h
    · exact Stmt.blockFrees_of_functions body h hf
  | .when _ body _, h, hf | .loop _ body _, h, hf => Stmt.blockFrees_of_functions body h hf
  | .make _ _ _, _, hf | .assign _ _ _, _, hf | .makeArray _ _ _, _, hf | .assignArray _ _ _ _, _, hf | .print _ _, _, hf
  | .free _ _, _, hf | .ret _ _, _, hf | .call _ _ _ _, _, hf | .graphics _ _, _, hf => by cases hf

theorem Stmt.blockFrees_of_functions {f : FuncDecl} : ∀ l : List Stmt, Stmt.blockFrees l = false →
    f ∈ Stmt.blockFunctions l → Stmt.blockFrees f.body = false
  | [], _, hf => by cases hf
  | s :: rest, h, hf => by
    obtain ⟨hs, hrest⟩ := Bool.or_eq_false_iff.1 h
    rcases List.mem_append.1 hf with hf | hf
    · exact Stmt.frees_of_functions s hs hf
    · exact Stmt.blockFrees_of_functions rest hrest hf

end

/-! ## Acts -/

def Assembly.Links (a : Assembly) (v : Operand) : Prop := ∀ g, v = .global g → g ∈ a.globals.map Global.name

def Instr.stores? (i : Instr) : Option Operand :=
  match i.operation with
  | .store .ptr v _ => some v
  | _ => none

theorem Instr.callee_ne_exit {i : Instr} (h : i.callee? = none) : i.callee? ≠ some "exit" := by
  rw [h]
  simp

namespace Builder

def Knows (b : Builder) (v : Operand) : Prop := b.assembly.Links v

def Links (b : Builder) (i : Instr) : Prop := ∀ v ∈ i.operation.operands, b.Knows v

def Answers (b : Builder) (callee : String) : Prop := ∃ sig, b.signatures.get? callee = some sig ∧ sig.ret ≠ .void

def wrote (b : Builder) (i : Instr) : Builder :=
  { b with block := b.block.map fun k => { k with instrs := k.instrs ++ [i] } }

/-- Numbers are taken and constants added, all code stays as it is. -/
structure Beside (b b' : Builder) : Prop where
  assembly : b'.assembly = { b.assembly with globals := b'.assembly.globals }
  globals : ∀ g ∈ b.assembly.globals, g ∈ b'.assembly.globals
  routine : b'.routine = b.routine
  block : b'.block = b.block
  prologue : b'.prologue = b.prologue
  signatures : b'.signatures = b.signatures
  nextRegister : b.nextRegister ≤ b'.nextRegister

/-- One of the things that lowering does; null is stored among the code only if `frees` says so. -/
inductive Act (frees : Bool) (b : Builder) : Builder → Prop where
  | aside {b' : Builder} (h : b.Beside b') : Act frees b b'
  | write {i : Instr} (other : i.callee? ≠ some "exit") (links : b.Links i)
      (filled : i.stores? = some .null → frees = true) : Act frees b (b.wrote i)
  | slot {i : Instr} (other : i.callee? = none) (links : b.Links i) (empty : ∀ v ∈ i.stores?, v = .null) :
      Act frees b { b with prologue := b.prologue ++ [i] }
  | close (t : Terminator) : Act frees b ((terminate t).run b).2
  | start {id : BlockId} {label : String} (labels : Block.Labels id label) : Act frees b ((startBlock id label).run b).2
  /-- The last instruction of a block. -/
  | quit {i : Instr} (links : b.Links i) (empty : i.stores? = none) (t : Terminator) {id : BlockId} {label : String}
      (labels : Block.Labels id label) : Act frees b ((startBlock id label).run ((terminate t).run (b.wrote i)).2).2

inductive Becomes (frees : Bool) (b : Builder) : Builder → Prop where
  | refl : Becomes frees b b
  | act {b' b'' : Builder} (h : Becomes frees b b') (ha : b'.Act frees b'') : Becomes frees b b''

structure Continues (b b' : Builder) : Prop where
  isOpen : b.block.isSome = true → b'.block.isSome = true
  name : b'.assembly.name = b.assembly.name
  globals : ∀ g ∈ b.assembly.globals, g ∈ b'.assembly.globals
  signatures : b'.signatures = b.signatures
  nextRegister : b.nextRegister ≤ b'.nextRegister

variable {frees : Bool} {b b' b'' : Builder}

theorem Continues.trans (h : b.Continues b') (h' : b'.Continues b'') : b.Continues b'' where
  isOpen hb := h'.isOpen (h.isOpen hb)
  name := h'.name.trans h.name
  globals g hg := h'.globals g (h.globals g hg)
  signatures := h'.signatures.trans h.signatures
  nextRegister := Nat.le_trans h.nextRegister h'.nextRegister

theorem continues_startBlock (b : Builder) (id : BlockId) (label : String) :
    b.Continues ((startBlock id label).run b).2 := by
  rw [startBlock_eq]
  exact ⟨fun _ => rfl, rfl, fun _ hg => hg, rfl, Nat.le_refl _⟩

theorem continues_terminate (b : Builder) (t : Terminator) : b.Continues ((terminate t).run b).2 :=
  ⟨fun hb => Option.isSome_map.trans hb, rfl, fun _ hg => hg, rfl, Nat.le_refl _⟩

theorem continues_wrote (b : Builder) (i : Instr) : b.Continues (b.wrote i) :=
  ⟨fun hb => Option.isSome_map.trans hb, rfl, fun _ hg => hg, rfl, Nat.le_refl _⟩

theorem Beside.continues (h : b.Beside b') : b.Continues b' :=
  ⟨fun hb => h.block ▸ hb, by rw [h.assembly], h.globals, h.signatures, h.nextRegister⟩

theorem Act.continues (h : b.Act frees b') : b.Continues b' := by
  cases h with
  | aside h => exact h.continues
  | write => exact b.continues_wrote _
  | slot => exact ⟨fun hb => hb, rfl, fun _ hg => hg, rfl, Nat.le_refl _⟩
  | close t => exact b.continues_terminate t
  | start => exact b.continues_startBlock _ _
  | quit =>
    exact (b.continues_wrote _).trans ((continues_terminate _ _).trans (continues_startBlock _ _ _))

theorem Becomes.continues (h : b.Becomes frees b') : b.Continues b' := by
  induction h with
  | refl => exact ⟨fun hb => hb, rfl, fun _ hg => hg, rfl, Nat.le_refl _⟩
  | act _ ha ih => exact ih.trans ha.continues

theorem Act.becomes (h : b.Act frees b') : b.Becomes frees b' := .act .refl h

theorem Becomes.trans (h : b.Becomes frees b') (h' : b'.Becomes frees b'') : b.Becomes frees b'' := by
  induction h' with
  | refl => exact h
  | act _ ha ih => exact ih.act ha

theorem Knows.mono {v : Operand} (h : b.Knows v) (hglobals : ∀ g ∈ b.assembly.globals, g ∈ b'.assembly.globals) :
    b'.Knows v := by
  intro g hg
  obtain ⟨c, hc, hname⟩ := List.mem_map.1 (h g hg)
  exact List.mem_map.2 ⟨c, hglobals c hc, hname⟩

theorem Continues.knows (h : b.Continues b') {v : Operand} (hv : b.Knows v) : b'.Knows v := hv.mono h.globals

theorem Continues.answers (h : b.Continues b') {callee : String} (hc : b.Answers callee) : b'.Answers callee := by
  unfold Answers
  rw [h.signatures]
  exact hc

end Builder

namespace Builder
variable {frees : Bool} {b : Builder} {callee : String} {args : List Operand} {extra : List (MachineType × Operand)}

theorem knows_of_ne_global {v : Operand} (h : ∀ name, v ≠ .global name) : b.Knows v := fun g hg => absurd hg (h g)

theorem beside_nextRegister (b : Builder) : b.Beside { b with nextRegister := b.nextRegister + 1 } :=
  ⟨rfl, fun _ hg => hg, rfl, rfl, rfl, rfl, Nat.le_succ _⟩

theorem becomes_emitResult {operation : Operation} (hlinks : ∀ v ∈ operation.operands, b.Knows v)
    (hexit : Instr.callee? ⟨some ⟨b.nextRegister⟩, operation⟩ ≠ some "exit")
    (hnull : Instr.stores? ⟨some ⟨b.nextRegister⟩, operation⟩ = none) : b.Becomes frees ((emitResult operation).run b).2 :=
  (Act.becomes (.aside b.beside_nextRegister)).act
    (.write (i := ⟨some ⟨b.nextRegister⟩, operation⟩) hexit hlinks (by simp [hnull]))

theorem mem_typeArgs : ∀ {tys : List MachineType} {vs : List Operand} {x : MachineType × Operand},
    x ∈ typeArgs tys vs → x.2 ∈ vs
  | _, [], x, h => by simp [typeArgs] at h
  | [], v :: vs, x, h | _ :: _, v :: vs, x, h => by
    rcases List.mem_cons.1 h with rfl | h
    · exact List.mem_cons_self
    · exact List.mem_cons_of_mem v (mem_typeArgs h)

theorem links_call (h : ∀ v ∈ args ++ extra.map Prod.snd, b.Knows v) (result : Option Register) (callee : String)
    (tys : List MachineType) (ret : MachineType) (variadic : Option (List MachineType)) :
    b.Links ⟨result, .call callee ret (typeArgs tys args ++ extra) variadic⟩ := by
  intro v hv
  obtain ⟨x, hx, rfl⟩ := List.mem_map.1 hv
  rcases List.mem_append.1 hx with hx | hx
  · exact h x.2 (List.mem_append_left _ (mem_typeArgs hx))
  · exact h x.2 (List.mem_append_right _ (List.mem_map_of_mem hx))

/-- The result of a call is null only if it has none. -/
theorem callVariadic_ne_null (h : b.Answers callee) : ((callVariadic callee args extra).run b).1 ≠ .null := by
  obtain ⟨sig, hsig, hret⟩ := h
  simp only [callVariadic, Build.run_bind, Build.run_get, hsig, Option.getD_some, if_neg hret]
  nofun

theorem becomes_callVariadic (hexit : callee ≠ "exit") (h : ∀ v ∈ args ++ extra.map Prod.snd, b.Knows v) :
    b.Becomes frees ((callVariadic callee args extra).run b).2 ∧
      ∀ name, ((callVariadic callee args extra).run b).1 ≠ .global name := by
  have hcall : ∀ result ret args types, Instr.callee? ⟨result, .call callee ret args types⟩ ≠ some "exit" :=
    fun _ _ _ _ h => hexit (Option.some.inj h)
  simp only [callVariadic, Build.run_bind, Build.run_get]
  split
  · exact ⟨Act.becomes (.write (hcall _ _ _ _) (links_call h none callee _ _ _) nofun), nofun⟩
  · exact ⟨becomes_emitResult (links_call h none callee _ _ _) (hcall _ _ _ _) rfl, nofun⟩

theorem becomes_stringConstant (content : String) : b.Becomes frees ((stringConstant content).run b).2 ∧
    ((stringConstant content).run b).2.Knows (.global ((stringConstant content).run b).1) := by
  have hfound : ∀ {b' : Builder} {c : Global}, c ∈ b'.assembly.globals → b'.Knows (.global c.name) := by
    intro b' c hc g hg
    cases hg
    exact List.mem_map_of_mem hc
  obtain ⟨name, hmem, hrun⟩ | ⟨hnone, hrun⟩ := b.stringConstant_cases content <;> rw [hrun]
  · exact ⟨.refl, hfound (c := ⟨name, content⟩) hmem⟩
  · refine ⟨Act.becomes (.aside ?_), hfound (c := ⟨_, content⟩) (List.mem_append_right _ List.mem_cons_self)⟩
    exact ⟨rfl, fun g hg => List.mem_append_left _ hg, rfl, rfl, rfl, rfl, Nat.le_refl _⟩

theorem becomes_quit {id : BlockId} {label : String} (h : Block.Labels id label) :
    b.Becomes frees ((Call.quit id label).run.run b).2 := by
  have hzero (b : Builder) (result : Option Register) (tys ret variadic) :
      b.Links ⟨result, .call "exit" ret (typeArgs tys [.int 0] ++ []) variadic⟩ :=
    links_call (by simpa using knows_of_ne_global (by simp)) result "exit" tys ret variadic
  simp only [Call.run, call, callVariadic, bind_assoc, Build.run_bind, Build.run_get]
  split
  · exact Act.becomes (.quit (hzero b none _ _ _) rfl .unreachable h)
  · exact (Act.becomes (.aside b.beside_nextRegister)).act (.quit (i := ⟨some _, _⟩) (hzero _ _ _ _ _) rfl .unreachable h)

end Builder

/-! ## Lowering -/

open Builder (Call Permit)

namespace LowerState

/-- `malloc` and the functions that are known can be called. -/
structure Able (σ : LowerState) : Prop where
  malloc : σ.builder.Answers "malloc"
  functions : ∀ name info, σ.functions.get? name = some info → info.symbol ≠ "exit" ∧ σ.builder.Answers info.symbol

/-- The slots have registers that are taken. -/
def Below (σ : LowerState) : Prop := ∀ slot ∈ σ.frames.current, slot.register.index < σ.builder.nextRegister

/-- A row of acts was done, no function made known, and slots were given registers that are taken. -/
structure Acted (frees : Bool) (σ σ' : LowerState) : Prop where
  becomes : σ.builder.Becomes frees σ'.builder
  functions : σ'.functions = σ.functions
  below : σ.Below → σ'.Below

variable {frees : Bool} {σ σ' σ'' : LowerState}

theorem Acted.continues (h : σ.Acted frees σ') : σ.builder.Continues σ'.builder := h.becomes.continues

theorem Acted.able (h : σ.Acted frees σ') (hσ : σ.Able) : σ'.Able := by
  refine ⟨h.continues.answers hσ.malloc, fun name info hinfo => ?_⟩
  rw [h.functions] at hinfo
  exact (hσ.functions name info hinfo).imp_right h.continues.answers

theorem Acted.trans (h : σ.Acted frees σ') (h' : σ'.Acted frees σ'') : σ.Acted frees σ'' :=
  ⟨h.becomes.trans h'.becomes, h'.functions.trans h.functions, fun hσ => h'.below (h.below hσ)⟩

theorem Acted.called {α : Type} {c : Call α} (h : σ.builder.Becomes frees (c.run.run σ.builder).2) :
    σ.Acted frees (σ.called c) :=
  ⟨h, rfl, fun hσ slot hslot => Nat.lt_of_lt_of_le (hσ slot hslot) h.continues.nextRegister⟩

theorem Acted.mark (h : σ.Kept σ') (hb : σ'.builder = σ.builder) : σ.Acted frees σ' := by
  refine ⟨hb ▸ .refl, h.functions, fun hσ slot hslot => ?_⟩
  rw [h.current] at hslot
  exact hb ▸ hσ slot hslot

theorem Acted.register {reg : Register} (h : reg.index < σ.builder.nextRegister) (name : String) (kind : SlotKind) :
    σ.Acted frees { σ with frames := (σ.frames.register name reg kind).2 } := by
  refine ⟨.refl, rfl, fun hσ slot hslot => ?_⟩
  have hslot : slot ∈ (σ.frames.register name reg kind).2.current := hslot
  cases hlookup : σ.frames.lookup name with
  | some old => exact hσ slot (Frames.register_of_some hlookup reg kind ▸ hslot)
  | none =>
    rcases List.mem_append.1 ((Frames.register_of_none hlookup reg kind).2 ▸ hslot) with hslot | hslot
    · exact hσ slot hslot
    · rw [List.mem_singleton.1 hslot]
      exact h

end LowerState

def Sight.acts (frees : Bool) : Sight where
  may := { Permit.all with Frees := frees = true, Bodies := False }
  Fit := LowerState.Able
  Le := LowerState.Acted frees
  Holds
    | .known, σ, v | .solid, σ, v => σ.builder.Knows v
    | .text, σ, v => σ.builder.Knows v ∧ v ≠ .null
  Full _ _ := True
  Calls callee := callee ≠ "exit"
  Answers σ callee := σ.builder.Answers callee
  Taken σ reg := reg.index < σ.builder.nextRegister

/-- **A call in a body is a row of acts.** -/
theorem Builder.Call.acts {α : Type} {frees : Bool} (c : Call α) {σ : LowerState} (hσ : σ.Able)
    (hmay : c.Permitted (Sight.acts frees).may) (h : c.Sound (Sight.acts frees) σ) :
    σ.builder.Becomes frees (c.run.run σ.builder).2 ∧
      c.Result (Sight.acts frees) σ (c.run.run σ.builder).1 (σ.called c) := by
  have hregister {b : Builder} (r : Register) : b.Knows (.register r) := knows_of_ne_global (by simp)
  cases c with
  | store ty v address =>
    refine ⟨Act.becomes (.write (i := ⟨none, .store ty v address⟩) (Instr.callee_ne_exit rfl) ?_ ?_), fun _ _ _ _ => trivial⟩
    · simpa [Links, Operation.operands] using ⟨h.1, h.2.1⟩
    · intro hnull
      cases ty <;> simp_all [Instr.stores?, Sound, Sight.acts]
  | load ty address =>
    have haddress : σ.builder.Knows address := h
    refine ⟨becomes_emitResult (by simpa [Operation.operands]) (Instr.callee_ne_exit rfl) rfl, hregister _, ?_⟩
    exact ⟨fun _ => hregister _, fun _ _ _ => ⟨hregister _, fun h => by cases h⟩⟩
  | compute operation =>
    obtain ⟨hcomputes, hops⟩ := h
    refine ⟨becomes_emitResult hops ?_ ?_, hregister _⟩ <;>
      cases operation <;> simp_all [Operation.computes, Instr.callee?, Instr.stores?]
  | invoke callee fixed extra =>
    have hops : ∀ v ∈ fixed ++ extra.map Prod.snd, σ.builder.Knows v := by
      intro v hv
      have hv := h.2 v hv
      split at hv <;> exact hv
    obtain ⟨hbecomes, hglobal⟩ := becomes_callVariadic h.1 hops
    refine ⟨hbecomes, knows_of_ne_global hglobal, fun hanswers => ⟨knows_of_ne_global hglobal, callVariadic_ne_null ?_⟩⟩
    exact hanswers.elim (fun hmalloc => hmalloc ▸ hσ.malloc) id
  | terminate t => exact ⟨Act.becomes (.close t), trivial⟩
  | createBlock name =>
    exact ⟨Act.becomes (.aside ⟨rfl, fun _ hg => hg, rfl, rfl, rfl, rfl, Nat.le_refl _⟩), Block.labels_createBlock h _⟩
  | startBlock id label => exact ⟨Act.becomes (.start h), trivial⟩
  | quit id label => exact ⟨becomes_quit h, trivial⟩
  | alloca ty =>
    have hslot : Act frees { σ.builder with nextRegister := σ.builder.nextRegister + 1 } _ :=
      .slot (i := ⟨some ⟨σ.builder.nextRegister⟩, .alloca ty⟩) rfl (fun _ hv => by cases hv) (by simp [Instr.stores?])
    exact ⟨(Act.becomes (.aside σ.builder.beside_nextRegister)).act hslot, Nat.lt_succ_self _⟩
  | initSlot kind slot =>
    refine ⟨Act.becomes (.slot rfl ?_ ?_), trivial⟩
    · cases kind <;> simp [Links, Operation.operands, Lower.initialValue, Knows, Assembly.Links]
    · cases kind <;> simp [Instr.stores?, SlotKind.machineType, Lower.initialValue]
  | stringConstant content =>
    obtain ⟨hbecomes, hknows⟩ := becomes_stringConstant content
    exact ⟨hbecomes, hknows, by simp⟩
  | declareExternal | register | startRoutine | finishRoutine => exact hmay.elim

/-- What lowering does to a routine. -/
def View.acts (frees : Bool) : View where
  toSight := .acts frees
  refl σ := .mark (.refl σ) rfl
  trans h h' := h.trans h'
  fit h hσ := h.able hσ
  holds {_ _ g _} h hv := by
    cases g with
    | known | solid => exact h.continues.knows hv
    | text => exact ⟨h.continues.knows hv.1, hv.2⟩
  answers h hc := h.continues.answers hc
  taken h hreg := Nat.lt_of_lt_of_le hreg h.continues.nextRegister
  ready _ _ _ _ _ := trivial
  solid_of_text h := h.1
  known_of_solid h := h
  null h := absurd rfl h.2
  register _ _ := Builder.knows_of_ne_global nofun
  literal _ h := Builder.knows_of_ne_global h
  calls h _ := h
  linked hσ hinfo := hσ.functions _ _ hinfo
  full _ _ _ := trivial
  marks := .mark
  declares name kind _ h := .register h name kind
  bodies h := h.elim
  call c _ hσ hmay h := (c.acts hσ hmay h).imp_left .called

theorem View.whole_acts (frees : Bool) : (View.acts frees).Whole := ⟨trivial, trivial, trivial⟩

namespace Lower
variable {frees : Bool} {σ : LowerState}

theorem Orderly.able {α : Type} {p q : Builder.Phase} {x : Lower α} {P : α → LowerState → Prop}
    (h : Orderly (View.acts true) σ p x P q) (hσ : σ.Able) : Gives x σ fun a σ' => σ'.Able ∧ P a σ' :=
  (h.gives hσ).imp fun _ _ h => ⟨h.1.able hσ, h.2⟩

/-- **A block is lowered by a row of acts.** -/
theorem acts_block (l : List Stmt) (h : Stmt.blockFrees l = true → frees = true) :
    Tidy (View.acts frees) σ (block l) := tidy_block (View.whole_acts frees) l (fun _ => trivial) h

theorem acts_bindParams (names : List Ident) (tys : List Ty) (regs : List Register) :
    Tidy (View.acts frees) σ (bindParams names tys regs) :=
  tidy_bindParams (View.whole_acts frees) names tys regs fun _ _ => ⟨Builder.knows_of_ne_global nofun, nofun⟩

end Lower
end QuillLang
