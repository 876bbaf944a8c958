import Mathlib.Data.List.Perm.Subperm
import QuillLang.Proofs.Symbols
/-!
# Building in any order

Whatever a builder is asked for, in whatever order, the assembly that it makes is sound (`Builder.finish_runAll`): no
register gets two values, the constants are numbered as they come and are all different, and each routine begins with the
slots that were asked for while it was open.  All operations but three only add to what is open (`Builder.Op.adds`).

A builder that counts in words of 32 bits begins again when it has drawn all of them.  So registers are different as long as
no more than that are drawn, and not any longer (`Builder.registers_repeat`).
-/
namespace QuillLang

/-- The registers that a routine gives values to.  Those of a routine that is defined elsewhere stand for nothing. -/
def Routine.registers (r : Routine) : List Register :=
  (if r.isExternal then [] else r.params.map Prod.fst) ++ r.instrs.filterMap Instr.result

/-- The name of a routine, and the code that it begins with. -/
def Routine.opening (r : Routine) : String × Option (List Instr) := (r.name, r.blocks.head?.map Block.instrs)

def Assembly.defined (a : Assembly) : List Routine := a.routines.filter fun r => !r.isExternal

namespace Builder
variable {ν : Type} [Counter ν]
open Counter (ofNat toNat)

/-! ## Operations -/

inductive Op where
  | setSourceName (name : String)
  | setTargetTriple (triple : Option String)
  | freshRegister
  | freshBlock
  | declareExternal (name : String) (sig : CallSignature)
  | register (name : String) (params : List MachineType) (ret : MachineType)
  | signature (name : String)
  | stringConstant (content : String)
  | startRoutine (name : String) (params : List MachineType) (ret : MachineType)
  | finishRoutine
  | createBlock (name : String)
  | startBlock (id : BlockId) (label : String)
  | isTerminated
  | alloca (ty : MachineType)
  | initSlot (ty : MachineType) (value : Operand) (slot : Register)
  | load (ty : MachineType) (address : Operand)
  | store (ty : MachineType) (value address : Operand)
  | element (ty : MachineType) (base index : Operand)
  | arith (op : ArithOp) (ty : MachineType) (lhs rhs : Operand)
  | intOp (op : ArithOp) (lhs rhs : Operand)
  | compare (op : CompareOp) (ty : MachineType) (lhs rhs : Operand)
  | cast (op : CastOp) (value : Operand) (source target : MachineType)
  | call (callee : String) (args : List Operand)
  | callVariadic (callee : String) (fixed : List Operand) (extra : List (MachineType × Operand))
  | ret (value : Option (MachineType × Operand))
  | br (target : BlockId)
  | condBr (cond : Operand) (yes no : BlockId)
  | unreachable

namespace Op

/-- Does the operation end the routine that is open? -/
def endsRoutine : Op → Bool
  | startRoutine _ _ _ | finishRoutine => true
  | _ => false

/-- Does it end the block that is open? -/
def endsBlock : Op → Bool
  | startBlock _ _ => true
  | op => op.endsRoutine

/-- What is asked for at the head of the routine: a slot, or its first value. -/
def slots (b : Builder ν) : Op → List Instr
  | alloca ty => [⟨some ⟨toNat b.nextRegister⟩, .alloca ty⟩]
  | initSlot ty value slot => [⟨none, .store ty value (.register slot)⟩]
  | _ => []

/-- The call of a routine as it is known so far; its result is the next register. -/
def calling (b : Builder ν) (callee : String) (fixed : List Operand) (extra : List (MachineType × Operand)) : Instr :=
  let sig := (b.signatures.get? callee).getD ⟨[], .void, false⟩
  ⟨if sig.ret = .void then none else some ⟨toNat b.nextRegister⟩,
    .call callee sig.ret (typeArgs sig.params fixed ++ extra) (if sig.isVariadic then some sig.params else none)⟩

/-- What is written where the builder stands. -/
def code (b : Builder ν) : Op → List Instr
  | load ty address => [⟨some ⟨toNat b.nextRegister⟩, .load ty address⟩]
  | store ty value address => [⟨none, .store ty value address⟩]
  | element ty base index => [⟨some ⟨toNat b.nextRegister⟩, .element ty base index⟩]
  | arith op ty lhs rhs => [⟨some ⟨toNat b.nextRegister⟩, .arith op ty lhs rhs⟩]
  | intOp op lhs rhs => [⟨some ⟨toNat b.nextRegister⟩, .arith op .i64 lhs rhs⟩]
  | compare op ty lhs rhs => [⟨some ⟨toNat b.nextRegister⟩, .compare op ty lhs rhs⟩]
  | cast op value source target => [⟨some ⟨toNat b.nextRegister⟩, .cast op value source target⟩]
  | call callee args => [calling b callee args []]
  | callVariadic callee fixed extra => [calling b callee fixed extra]
  | _ => []

/-- The number of registers that are drawn. -/
def draws (b : Builder ν) : Op → Nat
  | freshRegister => 1
  | startRoutine _ params _ => params.length
  | op => ((op.slots b ++ op.code b).filterMap Instr.result).length

end Op

/-- The builder after an operation, whose answer is dropped. -/
def after (b : Builder ν) : Op → Builder ν
  | .setSourceName name => ((setSourceName name).run b).2
  | .setTargetTriple triple => ((setTargetTriple triple).run b).2
  | .freshRegister => (freshRegister.run b).2
  | .freshBlock => (freshBlock.run b).2
  | .declareExternal name sig => ((declareExternal name sig).run b).2
  | .register name params ret => ((register name params ret).run b).2
  | .signature name => ((signature? name).run b).2
  | .stringConstant content => ((stringConstant content).run b).2
  | .startRoutine name params ret => ((startRoutine name params ret).run b).2
  | .finishRoutine => (finishRoutine.run b).2
  | .createBlock name => ((createBlock name).run b).2
  | .startBlock id label => ((startBlock id label).run b).2
  | .isTerminated => b
  | .alloca ty => ((alloca ty).run b).2
  | .initSlot ty value slot => ((initSlot ty value slot).run b).2
  | .load ty address => ((load ty address).run b).2
  | .store ty value address => ((store ty value address).run b).2
  | .element ty base index => ((element ty base index).run b).2
  | .arith op ty lhs rhs => ((arith op ty lhs rhs).run b).2
  | .intOp op lhs rhs => ((intOp op lhs rhs).run b).2
  | .compare op ty lhs rhs => ((compare op ty lhs rhs).run b).2
  | .cast op value source target => ((cast op value source target).run b).2
  | .call callee args => ((call callee args).run b).2
  | .callVariadic callee fixed extra => ((callVariadic callee fixed extra).run b).2
  | .ret value => ((ret value).run b).2
  | .br target => ((br target).run b).2
  | .condBr cond yes no => ((condBr cond yes no).run b).2
  | .unreachable => (unreachable.run b).2

def runAll (b : Builder ν) (ops : List Op) : Builder ν := ops.foldl after b

def draws (b : Builder ν) : List Op → Nat
  | [] => 0
  | op :: ops => op.draws b + (b.after op).draws ops

/-- What is asked for at the head of the open routine, until it is ended. -/
def slotsUntilEnd (b : Builder ν) : List Op → List Instr
  | [] => []
  | op :: ops => if op.endsRoutine then [] else op.slots b ++ (b.after op).slotsUntilEnd ops

/-- What is written until the open block is ended. -/
def codeUntilEnd (b : Builder ν) : List Op → List Instr
  | [] => []
  | op :: ops => if op.endsBlock then [] else op.code b ++ (b.after op).codeUntilEnd ops

/-- The routines that are begun, each with the slots that are asked for while it is open and the code written in its first
block. -/
def begun (b : Builder ν) : List Op → List (String × Option (List Instr))
  | [] => []
  | .startRoutine name params ret :: ops =>
    let b' := b.after (.startRoutine name params ret)
    (name, some (b'.slotsUntilEnd ops ++ b'.codeUntilEnd ops)) :: b'.begun ops
  | op :: ops => (b.after op).begun ops

/-! ## What an operation adds -/

/-- Slots were added for the head of the routine, code to the open block, and declarations to the assembly, and so many
registers were drawn. -/
structure Adds (draws : Nat) (slots code : List Instr) (b b' : Builder ν) : Prop where
  nextRegister : ∀ n, b.nextRegister = ofNat n → b'.nextRegister = ofNat (n + draws)
  routine : b'.routine = b.routine
  block : b'.block.map Block.instrs = b.block.map fun k => k.instrs ++ code
  prologue : b'.prologue = b.prologue ++ slots
  routines : ∃ es, b'.assembly.routines = b.assembly.routines ++ es ∧ ∀ r ∈ es, r.isExternal = true ∧ r.blocks = []
  globals : b'.assembly.globals = b.assembly.globals ∨ ∃ content, b' = ((stringConstant content).run b).2
  results : ∀ n, b.nextRegister = ofNat n →
    ((slots ++ code).filterMap Instr.result).Subperm ((List.range' n draws).map (drawn ν))

variable {b b' : Builder ν}

theorem next_eq (n : Nat) (h : b.nextRegister = ofNat n) : Counter.next b.nextRegister = ofNat (n + 1) := by
  rw [h, Counter.next_ofNat]

theorem result_next (n : Nat) (h : b.nextRegister = ofNat n) :
    [⟨toNat b.nextRegister⟩].Subperm ((List.range' n 1).map (drawn ν)) := by
  rw [h]
  exact List.Subperm.refl _

theorem adds_slots {draws : Nat} {slots : List Instr}
    (hnext : ∀ n, b.nextRegister = ofNat n → b'.nextRegister = ofNat (n + draws)) (hroutine : b'.routine = b.routine)
    (hblock : b'.block.map Block.instrs = b.block.map Block.instrs) (hprologue : b'.prologue = b.prologue ++ slots)
    (hroutines : b'.assembly.routines = b.assembly.routines)
    (hglobals : b'.assembly.globals = b.assembly.globals ∨ ∃ content, b' = ((stringConstant content).run b).2)
    (hresults : ∀ n, b.nextRegister = ofNat n →
      (slots.filterMap Instr.result).Subperm ((List.range' n draws).map (drawn ν))) : b.Adds draws slots [] b' where
  nextRegister := hnext
  routine := hroutine
  block := by simpa using hblock
  prologue := hprologue
  routines := ⟨[], by simpa using hroutines, by simp⟩
  globals := hglobals
  results := by simpa using hresults

theorem adds_nothing (hnext : b'.nextRegister = b.nextRegister) (hroutine : b'.routine = b.routine)
    (hblock : b'.block.map Block.instrs = b.block.map Block.instrs) (hprologue : b'.prologue = b.prologue)
    (hroutines : b'.assembly.routines = b.assembly.routines)
    (hglobals : b'.assembly.globals = b.assembly.globals ∨ ∃ content, b' = ((stringConstant content).run b).2) :
    b.Adds 0 [] [] b' :=
  adds_slots (fun _ h => hnext.trans h) hroutine hblock (by simpa using hprologue) hroutines hglobals
    fun _ _ => List.nil_subperm

theorem adds_emit (operation : Operation) : b.Adds 0 [] [⟨none, operation⟩] ((emit none operation).run b).2 where
  nextRegister _ h := h
  routine := rfl
  block := Option.map_map _ _ _
  prologue := (List.append_nil _).symm
  routines := ⟨[], (List.append_nil _).symm, by simp⟩
  globals := .inl rfl
  results _ _ := List.nil_subperm

theorem adds_emitResult (operation : Operation) :
    b.Adds 1 [] [⟨some ⟨toNat b.nextRegister⟩, operation⟩] ((emitResult operation).run b).2 where
  nextRegister := next_eq
  routine := rfl
  block := Option.map_map _ _ _
  prologue := (List.append_nil _).symm
  routines := ⟨[], (List.append_nil _).symm, by simp⟩
  globals := .inl rfl
  results := result_next

theorem adds_callVariadic (callee : String) (fixed : List Operand) (extra : List (MachineType × Operand)) :
    b.Adds ([Op.calling b callee fixed extra].filterMap Instr.result).length [] [Op.calling b callee fixed extra]
      ((callVariadic callee fixed extra).run b).2 := by
  unfold callVariadic Op.calling
  rw [Build.run_bind, Build.run_get]
  dsimp only
  split
  · exact adds_emit _
  · exact adds_emitResult _

theorem adds_terminate (t : Terminator) : b.Adds 0 [] [] ((terminate t).run b).2 :=
  adds_nothing rfl rfl (Option.map_map _ _ _) rfl rfl (.inl rfl)

/-- **What an operation does that ends nothing.** -/
theorem Op.adds (op : Op) (h : op.endsBlock = false) (b : Builder ν) :
    b.Adds (op.draws b) (op.slots b) (op.code b) (b.after op) := by
  cases op with
  | startRoutine | finishRoutine | startBlock => cases h
  | setSourceName | setTargetTriple | freshBlock | register | signature | createBlock | isTerminated =>
    exact adds_nothing rfl rfl rfl rfl rfl (.inl rfl)
  | freshRegister => exact adds_slots next_eq rfl rfl (List.append_nil _).symm rfl (.inl rfl) fun _ _ => List.nil_subperm
  | declareExternal name sig =>
    show b.Adds 0 [] [] (ite _ _ _)
    split
    · exact adds_nothing rfl rfl rfl rfl rfl (.inl rfl)
    · exact ⟨fun _ h => h, rfl, by simp, by simp, ⟨_, rfl, by simp⟩, .inl rfl, fun _ _ => List.nil_subperm⟩
  | stringConstant content =>
    refine adds_nothing ?_ ?_ ?_ ?_ ?_ (.inr ⟨content, rfl⟩) <;>
      obtain ⟨name, -, hrun⟩ | ⟨hnone, hrun⟩ := b.stringConstant_cases content <;> rw [after, hrun] <;> rfl
  | alloca => exact adds_slots next_eq rfl rfl rfl rfl (.inl rfl) result_next
  | initSlot => exact adds_slots (fun _ h => h) rfl rfl rfl rfl (.inl rfl) fun _ _ => List.nil_subperm
  | load | element | arith | intOp | compare | cast => exact adds_emitResult _
  | store => exact adds_emit _
  | call | callVariadic => exact adds_callVariadic _ _ _
  | ret | br | condBr | unreachable => exact adds_terminate _

theorem Op.cases_endsBlock (op : Op) : op.endsBlock = false ∨ (∃ name params ret, op = .startRoutine name params ret) ∨
    op = .finishRoutine ∨ ∃ id label, op = .startBlock id label := by
  cases op <;> simp [endsBlock, endsRoutine]

/-! ## What the other operations do -/

theorem after_startRoutine (b : Builder ν) (name : String) (params : List MachineType) (ret : MachineType) : ∃ next ps k,
    b.after (.startRoutine name params ret) = { b.closeRoutine with
      nextRegister := next, nextBlock := Counter.next b.nextBlock
      signatures := b.signatures.insert name ⟨params, ret, false⟩
      routine := some ⟨name, ps, ret, [], false, false⟩, block := some k } ∧ k.instrs = [] := by
  obtain ⟨ps, hrun, -⟩ := startRoutine_eq name params ret (Counter.ofNat_toNat b.nextRegister).symm
  exact ⟨_, ps, _, congrArg Prod.snd hrun, rfl⟩

/-! ## Registers -/

/-- All registers with a value so far. -/
def registers (b : Builder ν) : List Register :=
  b.assembly.routines.flatMap Routine.registers ++ (b.routine.toList.flatMap Routine.registers ++
    (b.prologue ++ b.block.toList.flatMap Block.instrs).filterMap Instr.result)

theorem registers_append (r : Routine) (ks : List Block) : Routine.registers { r with blocks := r.blocks ++ ks } =
    r.registers ++ (ks.flatMap Block.instrs).filterMap Instr.result := by
  simp [Routine.registers, Routine.instrs]

theorem registers_withPrologue (r : Routine) (is : List Instr) :
    (withPrologue r is).registers.Subperm (r.registers ++ is.filterMap Instr.result) := by
  unfold withPrologue
  cases hblocks : r.blocks with
  | nil => exact (List.sublist_append_left _ _).subperm
  | cons entry rest =>
    refine List.subperm_iff_count.2 fun x => ?_
    simp only [Routine.registers, Routine.instrs, hblocks, List.flatMap_cons, List.filterMap_append, List.count_append]
    omega

theorem registers_closeRoutine (b : Builder ν) : b.closeRoutine.registers.Subperm b.registers := by
  rw [closeRoutine_eq]
  refine List.subperm_iff_count.2 fun x => ?_
  unfold registers closing
  cases b.routine with
  | none => simp
  | some r =>
    have hclosed := List.subperm_iff_count.1
      (registers_withPrologue { r with blocks := r.blocks ++ b.block.toList } b.prologue) x
    rw [registers_append] at hclosed
    simp only [List.count_append, Option.map_some, Option.toList_some, Option.toList_none, List.flatMap_append,
      List.flatMap_cons, List.flatMap_nil, List.filterMap_append, List.append_nil, List.filterMap_nil] at hclosed ⊢
    omega

theorem Adds.registers {draws : Nat} {slots code : List Instr} (h : b.Adds draws slots code b') :
    b'.registers.Subperm (b.registers ++ (slots ++ code).filterMap Instr.result) := by
  obtain ⟨es, hroutines, hes⟩ := h.routines
  have hexternal : es.flatMap Routine.registers = [] := by
    refine List.flatMap_eq_nil_iff.2 fun r hr => ?_
    simp [Routine.registers, Routine.instrs, hes r hr]
  have hcode : (b'.block.toList.flatMap Block.instrs).Sublist (b.block.toList.flatMap Block.instrs ++ code) := by
    have hblock := h.block
    cases hb : b.block <;> cases hb' : b'.block <;> simp_all
  refine List.subperm_iff_count.2 fun x => ?_
  have hcount := (hcode.filterMap Instr.result).count_le x
  simp only [Builder.registers, hroutines, hexternal, h.routine, h.prologue, List.flatMap_append, List.filterMap_append,
    List.count_append, List.append_nil] at hcount ⊢
  omega

/-- So many registers were drawn, and each was given a value at most as often as it was drawn. -/
structure Drew (n : Nat) (b : Builder ν) : Prop where
  nextRegister : b.nextRegister = ofNat n
  registers : b.registers.Subperm ((List.range n).map (drawn ν))

theorem Drew.join {n draws : Nat} (h : b.Drew n) {rs : List Register} (hnext : b'.nextRegister = ofNat (n + draws))
    (hnew : rs.Subperm ((List.range' n draws).map (drawn ν))) (hsub : b'.registers.Subperm (b.registers ++ rs)) :
    b'.Drew (n + draws) where
  nextRegister := hnext
  registers := by
    have hrange : List.range (n + draws) = List.range n ++ List.range' n draws := by
      rw [List.range_eq_range', List.range_eq_range', ← List.range'_append_1, Nat.zero_add]
    refine List.subperm_iff_count.2 fun x => ?_
    have hx := List.subperm_iff_count.1 hsub x
    have hold := List.subperm_iff_count.1 h.registers x
    have hadded := List.subperm_iff_count.1 hnew x
    rw [hrange, List.map_append, List.count_append]
    rw [List.count_append] at hx
    omega

/-- **A register is given a value only when it is drawn.** -/
theorem Drew.after {n : Nat} (h : b.Drew n) (op : Op) : (b.after op).Drew (n + op.draws b) := by
  have hquiet {b' : Builder ν} (hnext : b'.nextRegister = b.nextRegister) (hsub : b'.registers.Subperm b.registers) :
      b'.Drew n := ⟨hnext.trans h.nextRegister, hsub.trans h.registers⟩
  obtain hop | ⟨name, params, ret, rfl⟩ | rfl | ⟨id, label, rfl⟩ := op.cases_endsBlock
  · have hadds := op.adds hop b
    exact h.join (hadds.nextRegister n h.nextRegister) (hadds.results n h.nextRegister) hadds.registers
  · obtain ⟨ps, hrun, -, hregs⟩ := startRoutine_eq name params ret h.nextRegister
    rw [Builder.after, hrun]
    refine h.join rfl (hregs.symm ▸ List.Subperm.refl _ : (ps.map Prod.fst).Subperm _) ?_
    have hclose := b.registers_closeRoutine
    rw [closeRoutine_eq] at hclose ⊢
    refine List.subperm_iff_count.2 fun x => ?_
    have hcount := List.subperm_iff_count.1 hclose x
    simp [Builder.registers, Routine.registers, Routine.instrs, List.count_append] at hcount ⊢
    omega
  · exact hquiet (by rw [show b.after .finishRoutine = b.closeRoutine from rfl, closeRoutine_eq]) b.registers_closeRoutine
  · rw [Builder.after, startBlock_eq]
    refine hquiet rfl (List.subperm_iff_count.2 fun x => ?_)
    unfold Builder.registers
    cases b.routine with
    | none => simp [List.count_append]
    | some r =>
      simp [registers_append, List.count_append]
      omega

theorem Drew.runAll : ∀ (ops : List Op) {b : Builder ν} {n : Nat}, b.Drew n → (b.runAll ops).Drew (n + b.draws ops)
  | [], _, _, h => h
  | op :: ops, b, n, h => by
    rw [draws, ← Nat.add_assoc]
    exact Drew.runAll ops (h.after op)

/-! ## Constants -/

theorem globals_after (b : Builder ν) (op : Op) : (b.after op).assembly.globals = b.assembly.globals ∨
    ∃ content, b.after op = ((stringConstant content).run b).2 := by
  obtain hop | ⟨name, params, ret, rfl⟩ | rfl | ⟨id, label, rfl⟩ := op.cases_endsBlock
  · have hadds := op.adds hop b
    exact hadds.globals
  · obtain ⟨next, ps, k, hafter, -⟩ := b.after_startRoutine name params ret
    rw [hafter]
    exact .inl b.closeRoutine_globals
  · exact .inl b.closeRoutine_globals
  · rw [after, startBlock_eq]
    exact .inl rfl

/-- The constants are numbered as they come, and no two are equal. -/
structure Interns (b : Builder ν) : Prop where
  numbered : b.Numbered
  contents : (b.assembly.globals.map Global.content).Nodup

theorem Interns.after (h : b.Interns) (op : Op) : (b.after op).Interns := by
  rcases b.globals_after op with hsame | ⟨content, hconstant⟩
  · constructor
    · unfold Numbered
      rw [hsame]
      exact h.numbered
    · rw [hsame]
      exact h.contents
  · rw [hconstant]
    refine ⟨h.numbered.stringConstant content, ?_⟩
    obtain ⟨name, -, hrun⟩ | ⟨hnone, hrun⟩ := b.stringConstant_cases content <;> rw [hrun]
    · exact h.contents
    · have hnew : content ∉ b.assembly.globals.map Global.content := by
        rintro hmem
        obtain ⟨g, hg, rfl⟩ := List.mem_map.1 hmem
        have hfound := (b.interned g.content g.name).2 hg
        rw [hnone] at hfound
        cases hfound
      show (List.map Global.content (_ ++ [_])).Nodup
      rw [List.map_append, List.map_singleton]
      exact h.contents.append (List.nodup_singleton _) (by simpa using hnew)

theorem globals_subset_after (b : Builder ν) (op : Op) : b.assembly.globals ⊆ (b.after op).assembly.globals := by
  rcases b.globals_after op with hsame | ⟨content, hconstant⟩
  · rw [hsame]
    exact List.Subset.refl _
  · rw [hconstant]
    obtain ⟨name, -, hrun⟩ | ⟨hnone, hrun⟩ := b.stringConstant_cases content <;> rw [hrun]
    · exact List.Subset.refl _
    · exact List.subset_append_left _ _

/-! ## Heads of routines -/

/-- An open routine is not one that is defined elsewhere, and has an open block. -/
def IsWhole (b : Builder ν) : Prop := ∀ r ∈ b.routine, r.isExternal = false ∧ b.block.isSome = true

/-- The open routine with the head that it gets. -/
def pending (b : Builder ν) (ops : List Op) : List (String × Option (List Instr)) :=
  b.routine.toList.map fun r =>
    (r.name, some (b.prologue ++ b.slotsUntilEnd ops ++ r.blocks.head?.elim (b.code ++ b.codeUntilEnd ops) Block.instrs))

theorem IsWhole.after (h : b.IsWhole) (op : Op) : (b.after op).IsWhole := by
  obtain hop | ⟨name, params, ret, rfl⟩ | rfl | ⟨id, label, rfl⟩ := op.cases_endsBlock
  · have hadds := op.adds hop b
    intro r hr
    rw [hadds.routine] at hr
    have hblock := congrArg Option.isSome hadds.block
    rw [Option.isSome_map, Option.isSome_map] at hblock
    exact ⟨(h r hr).1, hblock.trans (h r hr).2⟩
  · obtain ⟨next, ps, k, hafter, -⟩ := b.after_startRoutine name params ret
    rw [hafter]
    rintro r ⟨⟩
    exact ⟨rfl, rfl⟩
  · rw [show b.after .finishRoutine = b.closeRoutine from rfl, closeRoutine_eq]
    rintro r ⟨⟩
  · rw [Builder.after, startBlock_eq]
    intro r hr
    obtain ⟨r', hr', rfl⟩ := Option.map_eq_some_iff.1 hr
    exact ⟨(h r' hr').1, rfl⟩

theorem Adds.defined {draws : Nat} {slots code : List Instr} (h : b.Adds draws slots code b') :
    b'.assembly.defined = b.assembly.defined := by
  obtain ⟨es, hroutines, hes⟩ := h.routines
  have hexternal : es.filter (fun r => !r.isExternal) = [] := by
    simpa using fun r hr => (hes r hr).1
  unfold Assembly.defined
  rw [hroutines, List.filter_append, hexternal, List.append_nil]

theorem opening_closeRoutine (h : b.IsWhole) : b.closeRoutine.assembly.defined.map Routine.opening =
    b.assembly.defined.map Routine.opening ++ b.pending [] := by
  have hclosing : (b.closing.toList.filter fun r => !r.isExternal).map Routine.opening = b.pending [] := by
    unfold closing pending
    cases hr : b.routine with
    | none => rfl
    | some r =>
      obtain ⟨hexternal, hblock⟩ := h r hr
      obtain ⟨k, hk⟩ := Option.isSome_iff_exists.1 hblock
      cases hblocks : r.blocks <;>
        simp [withPrologue, hblocks, hk, hexternal, Routine.opening, slotsUntilEnd, codeUntilEnd, code]
  rw [closeRoutine_eq]
  unfold Assembly.defined
  rw [List.filter_append, List.map_append, hclosing]

theorem pending_of_endsRoutine {op : Op} (h : op.endsRoutine = true) (ops : List Op) :
    b.pending (op :: ops) = b.pending [] := by
  have hblock : op.endsBlock = true := by
    cases op <;> first | rfl | cases h
  simp [pending, slotsUntilEnd, codeUntilEnd, h, hblock]

theorem pending_of_adds (h : b.IsWhole) {op : Op} (hop : op.endsBlock = false) (ops : List Op) :
    b.pending (op :: ops) = (b.after op).pending ops := by
  have hroutine : op.endsRoutine = false := by
    cases op <;> first | rfl | cases hop
  have hadds := op.adds hop b
  unfold pending
  rw [hadds.routine]
  cases hr : b.routine with
  | none => rfl
  | some r =>
    obtain ⟨k, hk⟩ := Option.isSome_iff_exists.1 (h r hr).2
    have hblock := hadds.block
    rw [hk, Option.map_some] at hblock
    obtain ⟨k', hk', hinstrs⟩ := Option.map_eq_some_iff.1 hblock
    have hcode : (b.after op).code = b.code ++ op.code b := by simp [code, hk, hk', hinstrs]
    simp [slotsUntilEnd, codeUntilEnd, hop, hroutine, hcode, hadds.prologue]

theorem pending_startBlock (h : b.IsWhole) (id : BlockId) (label : String) (ops : List Op) :
    b.pending (.startBlock id label :: ops) = (b.after (.startBlock id label)).pending ops := by
  have hslots : b.slotsUntilEnd (.startBlock id label :: ops) = (b.after (.startBlock id label)).slotsUntilEnd ops := rfl
  have hcode : b.codeUntilEnd (.startBlock id label :: ops) = [] := rfl
  unfold pending
  rw [hslots, hcode, after, startBlock_eq]
  cases hr : b.routine with
  | none => rfl
  | some r =>
    obtain ⟨k, hk⟩ := Option.isSome_iff_exists.1 (h r hr).2
    cases hblocks : r.blocks <;> simp [hblocks, hk, code]

theorem begun_of_adds {op : Op} (hop : op.endsBlock = false) (ops : List Op) :
    b.begun (op :: ops) = (b.after op).begun ops := by
  cases op <;> first | rfl | cases hop

/-- **The routines that were defined are those that were begun, each with its head.** -/
theorem opening_runAll : ∀ (ops : List Op) {b : Builder ν}, b.IsWhole → (b.runAll ops).finish.defined.map Routine.opening =
    b.assembly.defined.map Routine.opening ++ (b.pending ops ++ b.begun ops)
  | [], b, h => by
    rw [begun, List.append_nil]
    exact opening_closeRoutine h
  | op :: ops, b, h => by
    show ((b.after op).runAll ops).finish.defined.map Routine.opening = _
    rw [opening_runAll ops (h.after op)]
    obtain hop | ⟨name, params, ret, rfl⟩ | rfl | ⟨id, label, rfl⟩ := op.cases_endsBlock
    · have hadds := op.adds hop b
      rw [hadds.defined, pending_of_adds h hop, begun_of_adds hop]
    · obtain ⟨next, ps, k, hafter, hk⟩ := b.after_startRoutine name params ret
      have hassembly : (b.after (.startRoutine name params ret)).assembly = b.closeRoutine.assembly := by rw [hafter]
      have hpending : (b.after (.startRoutine name params ret)).pending ops ++
          (b.after (.startRoutine name params ret)).begun ops = b.begun (.startRoutine name params ret :: ops) := by
        simp [begun, pending, hafter, closeRoutine_eq, code, hk]
      rw [hassembly, opening_closeRoutine h, hpending, pending_of_endsRoutine rfl, List.append_assoc]
    · have hpending : (b.after .finishRoutine).pending ops = [] := by
        rw [show b.after .finishRoutine = b.closeRoutine from rfl, closeRoutine_eq]
        rfl
      rw [hpending, show (b.after .finishRoutine).assembly = b.closeRoutine.assembly from rfl, opening_closeRoutine h,
        pending_of_endsRoutine rfl, List.append_assoc]
      rfl
    · rw [pending_startBlock h, show b.begun _ = (b.after (.startBlock id label)).begun ops from rfl]
      rw [show (b.after (.startBlock id label)).assembly = b.assembly by rw [after, startBlock_eq]]

theorem runAll_keeps {I : Builder ν → Prop} (h : ∀ {b : Builder ν} (op : Op), I b → I (b.after op)) :
    ∀ (ops : List Op) {b : Builder ν}, I b → I (b.runAll ops)
  | [], _, hb => hb
  | op :: ops, _, hb => runAll_keeps h ops (h op hb)

/-! ## Words of 32 bits -/

theorem drawn_word (k : Nat) : drawn UInt32 k = ⟨k % 2 ^ 32⟩ := congrArg Register.mk UInt32.toNat_ofNat'

theorem drawn_inj {m n : Nat} (hm : m < 2 ^ 32) (hn : n < 2 ^ 32) (h : drawn UInt32 m = drawn UInt32 n) : m = n := by
  rw [drawn_word, drawn_word, Nat.mod_eq_of_lt hm, Nat.mod_eq_of_lt hn] at h
  exact congrArg Register.index h

theorem Drew.nodup {b : Builder UInt32} {n : Nat} (h : b.Drew n) (hn : n ≤ 2 ^ 32) : b.registers.Nodup := by
  have hdrawn : ((List.range n).map (drawn UInt32)).Nodup := by
    refine List.nodup_range.map_on fun k hk l hl => drawn_inj ?_ ?_
    · exact Nat.lt_of_lt_of_le (List.mem_range.1 hk) hn
    · exact Nat.lt_of_lt_of_le (List.mem_range.1 hl) hn
  obtain ⟨l, hl, hsub⟩ := h.registers
  exact hl.nodup_iff.1 (hdrawn.sublist hsub)

theorem Interns.name_inj {b : Builder UInt32} (h : b.Interns) (hfew : b.assembly.globals.length ≤ 2 ^ 32) {g g' : Global}
    (hg : g ∈ b.assembly.globals) (hg' : g' ∈ b.assembly.globals) (hname : g.name = g'.name) : g.content = g'.content := by
  have hnodup := h.numbered.nodup fun m hm n hn hmn =>
    drawn_inj (Nat.lt_of_lt_of_le hm hfew) (Nat.lt_of_lt_of_le hn hfew) (congrArg Register.mk hmn)
  rw [List.inj_on_of_nodup_map hnodup hg hg' hname]

/-- A text asked for twice, and slots asked for behind code and in a second routine. -/
def sharing : List Op :=
  [.startRoutine "f" [.i64] .i64, .stringConstant "a", .load .i64 .null, .alloca .i64, .stringConstant "b",
    .stringConstant "a", .startRoutine "g" [] .void, .alloca .ptr]

theorem draws_append (xs ys : List Op) : ∀ b : Builder ν, b.draws (xs ++ ys) = b.draws xs + (b.runAll xs).draws ys := by
  induction xs with
  | nil => exact fun b => (Nat.zero_add _).symm
  | cons op xs ih =>
    intro b
    rw [List.cons_append, draws, ih, draws, Nat.add_assoc]
    rfl

theorem runAll_freshRegister : ∀ (n : Nat) (b : Builder UInt32), b.draws (List.replicate n .freshRegister) = n ∧
    b.runAll (List.replicate n .freshRegister) = { b with nextRegister := b.nextRegister + UInt32.ofNat n }
  | 0, b => ⟨rfl, by simp [runAll]⟩
  | n + 1, b => by
    obtain ⟨hdraws, hrun⟩ := runAll_freshRegister n (b.after .freshRegister)
    refine ⟨?_, ?_⟩
    · rw [List.replicate_succ, draws, hdraws]
      exact Nat.add_comm 1 n
    · rw [List.replicate_succ]
      refine hrun.trans ?_
      show { b with nextRegister := b.nextRegister + 1 + UInt32.ofNat n } = _
      rw [UInt32.add_assoc, UInt32.add_comm 1, UInt32.ofNat_add n 1]
      rfl

/-- A parameter, and a load after so many draws that the counter is where it started. -/
theorem registers_round (n : Nat) (hround : 1 + UInt32.ofNat n = 0) : ((new "m" : Builder UInt32).runAll
    (.startRoutine "f" [.i64] .void :: (List.replicate n .freshRegister ++ [.load .i64 .null]))).finish.routines.flatMap
      Routine.registers = [⟨0⟩, ⟨0⟩] := by
  have hrun := (runAll_freshRegister n ((new "m").after (.startRoutine "f" [.i64] .void))).2
  rw [show ((new "m" : Builder UInt32).after (.startRoutine "f" [.i64] .void)).nextRegister = 1 from rfl, hround] at hrun
  rw [runAll, List.foldl_cons, List.foldl_append, show List.foldl after _ (List.replicate n .freshRegister) = _ from hrun]
  rfl

/-- **One register more than there are words, and one has two values.** -/
theorem registers_repeat : ∃ ops : List Op, (new "m" : Builder UInt32).draws ops = 2 ^ 32 + 1 ∧
    ¬(((new "m" : Builder UInt32).runAll ops).finish.routines.flatMap Routine.registers).Nodup := by
  refine ⟨.startRoutine "f" [.i64] .void :: (List.replicate (2 ^ 32 - 1) .freshRegister ++ [.load .i64 .null]), ?_, ?_⟩
  · have hload : ∀ b : Builder UInt32, b.draws [.load .i64 .null] = 1 := fun _ => rfl
    rw [draws, draws_append, (runAll_freshRegister _ _).1, hload]
    rfl
  · rw [registers_round _ (by decide)]
    decide

/-- A slot that no routine is open for is lost, and one that is asked for in a later block is at the head all the same. -/
example : ((new "m" : Builder UInt32).runAll [.alloca .i64, .startRoutine "f" [.i64] .i64, .load .i64 .null,
    .startBlock ⟨7⟩ "next", .alloca .ptr, .startRoutine "g" [] .void,
    .initSlot .ptr .null ⟨3⟩]).finish.defined.map Routine.opening =
    [("f", some [⟨some ⟨3⟩, .alloca .ptr⟩, ⟨some ⟨2⟩, .load .i64 .null⟩]),
      ("g", some [⟨none, .store .ptr .null (.register ⟨3⟩)⟩])] := by decide

end Builder
end QuillLang
