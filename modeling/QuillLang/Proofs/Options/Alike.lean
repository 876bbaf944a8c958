import QuillLang.Proofs.Points.Walk
import QuillLang.Proofs.WellFormed
/-!
# Two builders that build the same

Two builders are alike when they differ in nothing but the names of their assemblies and the drawing routines that they
have declared.  A step of building is blind if it cannot tell such builders apart: it gives the same result, and leaves
them alike.  A step is not blind only when it calls a drawing routine, and then only if one of the builders lacks it.
-/
namespace QuillLang

namespace External

def declared (g : Bool) : List External := core ++ if g then graphics else []

end External

def Routine.isDrawing (r : Routine) : Bool := r.isExternal && External.draws r.name

/-- Built alike, the drawing routines declared as `g` and `g'` say. -/
structure Builder.Alike (g g' : Bool) (b b' : Builder) : Prop where
  nextRegister : b.nextRegister = b'.nextRegister
  nextBlock : b.nextBlock = b'.nextBlock
  globals : b.assembly.globals = b'.assembly.globals
  routine : b.routine = b'.routine
  block : b.block = b'.block
  prologue : b.prologue = b'.prologue
  internal : ∀ r, b.routine = some r → r.isExternal = false
  routines : ∃ rs : List Routine, (∀ r ∈ rs, r.isExternal = false) ∧
    b.assembly.routines = (External.declared g).map External.routine ++ rs ∧
    b'.assembly.routines = (External.declared g').map External.routine ++ rs
  signatures : ∀ name, g = g' ∨ External.draws name = false → b.signatures.get? name = b'.signatures.get? name

namespace Build
variable {α β : Type} {g g' : Bool} {x : Build Nat α} {f : α → Build Nat β}

/-- The step cannot tell builders apart that are alike. -/
def Blind (g g' : Bool) (x : Build Nat α) : Prop :=
  ∀ b b', b.Alike g g' b' → (x.run b).1 = (x.run b').1 ∧ (x.run b).2.Alike g g' (x.run b').2

namespace Blind

@[grind ←] theorem pure (a : α) : Blind g g' (Pure.pure a) := fun _ _ h => ⟨rfl, h⟩

@[grind ←] theorem bind (hx : Blind g g' x) (hf : ∀ a, Blind g g' (f a)) : Blind g g' (x >>= f) := by
  intro b b' h
  obtain ⟨hresult, hstate⟩ := hx b b' h
  have hrest := hf (x.run b).1 _ _ hstate
  rw [show (x >>= f).run b' = (f (x.run b').1).run (x.run b').2 from rfl, ← hresult]
  exact hrest

theorem modify {m : Builder → Builder} (h : ∀ b b', b.Alike g g' b' → (m b).Alike g g' (m b')) :
    Blind g g' (modify m : Build Nat Unit) := fun b b' hb => ⟨rfl, h b b' hb⟩

theorem get_bind {f : Builder → Build Nat β} (hsame : ∀ b b', b.Alike g g' b' → f b = f b')
    (hf : ∀ b, Blind g g' (f b)) : Blind g g' (get >>= f) := by
  intro b b' h
  have hrest := hf b b b' h
  rw [show (get >>= f).run b' = (f b').run b' from rfl, ← hsame b b' h]
  exact hrest

theorem modifyGet {m : Builder → α × Builder}
    (h : ∀ b b', b.Alike g g' b' → (m b).1 = (m b').1 ∧ (m b).2.Alike g g' (m b').2) :
    Blind g g' (modifyGet m : Build Nat α) := h

end Blind
end Build

namespace Builder
variable {g g' : Bool}

open Build (Blind)

/-! ## Code -/

@[grind ←] theorem blind_freshRegister : Blind g g' freshRegister :=
  .modifyGet fun _ _ h => ⟨congrArg Register.mk h.nextRegister, { h with nextRegister := congrArg (· + 1) h.nextRegister }⟩

@[grind ←] theorem blind_freshBlock : Blind g g' freshBlock :=
  .modifyGet fun _ _ h => ⟨congrArg BlockId.mk h.nextBlock, { h with nextBlock := congrArg (· + 1) h.nextBlock }⟩

theorem blind_createBlock (name : String) : Blind g g' (createBlock name) := by
  unfold createBlock
  grind

@[grind ←] theorem blind_emit (result : Option Register) (operation : Operation) : Blind g g' (emit result operation) :=
  .modify fun _ _ h => { h with block := congrArg (Option.map _) h.block }

@[grind ←] theorem blind_terminate (t : Terminator) : Blind g g' (terminate t) :=
  .modify fun _ _ h => { h with block := congrArg (Option.map _) h.block }

@[grind ←] theorem blind_initSlot (ty : MachineType) (value : Operand) (slot : Register) :
    Blind g g' (initSlot ty value slot) :=
  .modify fun _ _ h => { h with prologue := congrArg (· ++ _) h.prologue }

@[grind ←] theorem blind_alloca (ty : MachineType) : Blind g g' (alloca ty) := by
  have hmodify : ∀ slot, Blind g g' (modify fun b : Builder =>
      { b with prologue := b.prologue ++ [⟨some slot, .alloca ty⟩] } : Build Nat Unit) :=
    fun slot => .modify fun _ _ h => { h with prologue := congrArg (· ++ _) h.prologue }
  exact blind_freshRegister.bind fun slot => (hmodify slot).bind fun _ => .pure slot

@[grind ←] theorem blind_emitResult (operation : Operation) : Blind g g' (emitResult operation) := by
  unfold emitResult
  grind

theorem blind_callVariadic {callee : String} (h : g = g' ∨ External.draws callee = false) (fixed : List Operand)
    (extra : List (MachineType × Operand)) : Blind g g' (callVariadic callee fixed extra) := by
  refine .get_bind (fun b b' hb => ?_) fun b => ?_
  · simp only [hb.signatures callee h]
  · dsimp only
    split <;> grind

/-! ## Names -/

@[grind ←] theorem blind_register (name : String) (params : List MachineType) (ret : MachineType) :
    Blind g g' (register name params ret) := by
  refine .modify fun b b' h => { h with signatures := fun other hother => ?_ }
  simp only [Table.get?_insert, h.signatures other hother]

@[grind ←] theorem blind_stringConstant (content : String) : Blind g g' (stringConstant content) := by
  intro b b' h
  obtain ⟨hnext, hstrings⟩ := strings_eq h.globals
  unfold stringConstant
  rw [Build.run_modifyGet, Build.run_modifyGet]
  split <;> rename_i hb <;> split <;> rename_i hb' <;> rw [hstrings, hb'] at hb
  · exact ⟨Option.some.inj hb.symm, h⟩
  · cases hb
  · cases hb
  · refine ⟨by rw [hnext], { h with globals := ?_ }⟩
    simp only [intern, hnext, h.globals]

/-! ## Routines and blocks -/

theorem Alike.closeBlock {b b' : Builder} (h : b.Alike g g' b') : b.closeBlock.Alike g g' b'.closeBlock := by
  unfold Builder.closeBlock
  rw [← h.block]
  cases b.block with
  | none => exact h
  | some k =>
    refine { h with block := rfl, routine := congrArg (Option.map _) h.routine, internal := fun r hr => ?_ }
    obtain ⟨r', hr', rfl⟩ := Option.map_eq_some_iff.1 hr
    exact h.internal r' hr'

theorem isExternal_withPrologue (r : Routine) (prologue : List Instr) :
    (withPrologue r prologue).isExternal = r.isExternal := by
  unfold withPrologue
  split <;> rfl

theorem Alike.closeRoutine {b b' : Builder} (h : b.Alike g g' b') : b.closeRoutine.Alike g g' b'.closeRoutine := by
  have hclosing : b'.closing = b.closing := by rw [closing, closing, h.routine, h.block, h.prologue]
  obtain ⟨rs, hinternal, hleft, hright⟩ := h.routines
  have hlast : ∀ r ∈ rs ++ b.closing.toList, r.isExternal = false := by
    refine List.forall_mem_append.2 ⟨hinternal, fun r hr => ?_⟩
    obtain ⟨r₀, hr₀, rfl⟩ := Option.map_eq_some_iff.1 (Option.mem_toList.1 hr)
    rw [isExternal_withPrologue]
    exact h.internal r₀ hr₀
  rw [closeRoutine_eq, closeRoutine_eq, hclosing]
  refine { h with prologue := rfl, routine := rfl, block := rfl, internal := by simp, routines := ⟨_, hlast, ?_, ?_⟩ }
  · rw [hleft, List.append_assoc]
  · rw [hright, List.append_assoc]

theorem Alike.isTerminated {b b' : Builder} (h : b.Alike g g' b') : b.isTerminated = b'.isTerminated := by
  unfold Builder.isTerminated
  rw [h.block]

@[grind ←] theorem blind_finishRoutine : Blind g g' finishRoutine := .modify fun _ _ h => h.closeRoutine

@[grind ←] theorem blind_startBlock (id : BlockId) (label : String) : Blind g g' (startBlock id label) :=
  .modify fun _ _ h => { h.closeBlock with block := rfl }

@[grind ←] theorem blind_freshParams : ∀ tys : List MachineType, Blind g g' (freshParams tys)
  | [] => .pure []
  | _ :: tys => blind_freshRegister.bind fun _ => (blind_freshParams tys).bind fun _ => .pure _

@[grind ←] theorem blind_startRoutine (name : String) (params : List MachineType) (ret : MachineType) :
    Blind g g' (startRoutine name params ret) := by
  refine blind_finishRoutine.bind fun _ => (blind_freshParams params).bind fun regs => ?_
  refine (blind_register name params ret).bind fun _ => blind_freshBlock.bind fun entry => ?_
  refine Blind.bind (.modify fun b b' h => ?_) fun _ => .pure _
  exact { h with routine := rfl, block := rfl, internal := fun r hr => by cases hr; rfl }

/-- All calls after the declarations are blind, if both builders know a callee alike. -/
theorem Call.blind {α : Type} {c : Call α} {p q : Phase} (h : c.next? p = some q) {σ : LowerState}
    (hsound : c.Sound (View.plain (g = g')).toSight σ) : Blind g g' c.run := by
  cases c with
  | store => exact blind_emit _ _
  | load | compute => exact blind_emitResult _
  | invoke => exact blind_callVariadic hsound.1 _ _
  | quit id label =>
    exact (blind_callVariadic (.inr rfl) _ _).bind fun _ => (blind_terminate _).bind fun _ => blind_startBlock id label
  | terminate => exact blind_terminate _
  | createBlock => exact blind_createBlock _
  | alloca => exact blind_alloca _
  | initSlot => exact blind_initSlot _ _ _
  | stringConstant => exact blind_stringConstant _
  | declareExternal => cases h
  | register => exact blind_register _ _ _
  | startRoutine => exact blind_startRoutine _ _ _
  | finishRoutine => exact blind_finishRoutine
  | startBlock => exact blind_startBlock _ _

end Builder
end QuillLang
