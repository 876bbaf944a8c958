import QuillLang.Proofs.Meaning.Stage
import QuillLang.Proofs.Meaning.Types
/-!
# Lowering and the routine it leads to

What lowering has emitted so far becomes part of a routine.  A state of lowering stands at a point of the finished routine
(`LowerState.Stands`): what is emitted comes before the point, and what is still to be emitted comes after it.  So lowering
is read from its end: from the point where a step stands when it is done, its code leads back to the point where it stood
before.
-/
namespace QuillLang

namespace LowerState

structure Ready (σ : LowerState) : Prop extends σ.Plain where
  isOpen : ∃ r k, σ.builder.routine = some r ∧ σ.builder.block = some k ∧ k.terminator = none
  registers : (σ.frames.current.map Slot.register).Nodup
  prologue : σ.builder.prologue = σ.frames.current.flatMap Slot.prologue
  globals : σ.builder.assembly.globals = [] ∨ σ.builder.assembly.globals = [numberFormat]
  scopes : σ.scopes.current.AllInt
  ret : ∀ ty, σ.ret = some ty → ty = .int
  functions : ∀ name info, σ.functions.get? name = some info → (∀ ty ∈ info.params, ty = .int) ∧ info.ret = .int ∧
    σ.builder.signatures.get? info.symbol = some ⟨info.params.map Ty.machineType, .i64, false⟩
  printf : σ.builder.signatures.get? "printf" = some ⟨[.ptr], .i32, true⟩

structure Keeps (σ σ' : LowerState) : Prop where
  functions : σ'.functions = σ.functions
  scopes : σ'.scopes = σ.scopes
  outer : σ'.frames.outer = σ.frames.outer
  ret : σ'.ret = σ.ret
  signatures : σ'.builder.signatures = σ.builder.signatures
  routines : σ'.builder.assembly.routines = σ.builder.assembly.routines
  slots : ∀ x ∈ σ.frames.current, x ∈ σ'.frames.current
  globals : ∀ g ∈ σ.builder.assembly.globals, g ∈ σ'.builder.assembly.globals
  head : (σ'.builder.routine.map fun r => { r with blocks := [] }) = σ.builder.routine.map fun r => { r with blocks := [] }

/-- The state stands at a point of a routine: what is emitted comes before it. -/
structure Stands (σ : LowerState) (S : Stage) (P : Point) : Prop where
  code : ∃ r k later, σ.builder.routine = some r ∧ σ.builder.block = some k ∧ k.terminator = none ∧
    S.blocks = r.blocks ++ ⟨k.id, k.label, k.instrs ++ P.rest, P.terminator⟩ :: later
  frame : ∃ later, S.frame = σ.frames.current ++ later ∧ ∀ x ∈ later, σ.builder.nextRegister ≤ x.register.index
  globals : ∀ g ∈ σ.builder.assembly.globals, g ∈ S.assembly.globals

/-- The code from one state to another is as `spec` says. -/
def Leads (σ σ' : LowerState) (spec : Stage → Point → Point → Prop) : Prop :=
  ∀ S P', σ'.Stands S P' → ∃ P, σ.Stands S P ∧ spec S P P'

variable {σ σ' σ'' : LowerState} {S : Stage} {P : Point}

namespace Keeps

theorem refl (σ : LowerState) : σ.Keeps σ := ⟨rfl, rfl, rfl, rfl, rfl, rfl, fun _ hx => hx, fun _ hg => hg, rfl⟩

theorem trans (h : σ.Keeps σ') (h' : σ'.Keeps σ'') : σ.Keeps σ'' where
  functions := h'.functions.trans h.functions
  scopes := h'.scopes.trans h.scopes
  outer := h'.outer.trans h.outer
  ret := h'.ret.trans h.ret
  signatures := h'.signatures.trans h.signatures
  routines := h'.routines.trans h.routines
  slots x hx := h'.slots x (h.slots x hx)
  globals g hg := h'.globals g (h.globals g hg)
  head := h'.head.trans h.head

end Keeps

theorem Stands.mem_frame (h : σ.Stands S P) : ∀ x ∈ σ.frames.current, x ∈ S.frame := by
  intro x hx
  obtain ⟨later, hframe, -⟩ := h.frame
  rw [hframe]
  exact List.mem_append_left later hx

/-! ## Straight code -/

theorem Ready.emitted (h : σ.Ready) {n : Nat} (hn : σ.builder.nextRegister ≤ n) (is : List Instr) :
    (σ.emitted is n).Ready := by
  obtain ⟨r, k, hr, hk, hterm⟩ := h.isOpen
  refine { h with toPlain := h.toPlain.emitted hn is, isOpen := ⟨r, { k with instrs := k.instrs ++ is }, hr, ?_, hterm⟩ }
  show σ.builder.block.map _ = _
  rw [hk]
  rfl

theorem Keeps.emitted (σ : LowerState) (is : List Instr) (n : Nat) : σ.Keeps (σ.emitted is n) :=
  ⟨rfl, rfl, rfl, rfl, rfl, rfl, fun _ hx => hx, fun _ hg => hg, rfl⟩

theorem Stands.of_emitted {is : List Instr} {n : Nat} (h : (σ.emitted is n).Stands S P)
    (hn : σ.builder.nextRegister ≤ n) : σ.Stands S ⟨is ++ P.rest, P.terminator⟩ := by
  obtain ⟨⟨r, k', later, hr, hk', hterm, hblocks⟩, ⟨slots, hframe, hslots⟩, hglobals⟩ := h
  have hk' : σ.builder.block.map (fun k => { k with instrs := k.instrs ++ is }) = some k' := hk'
  obtain ⟨k, hk, rfl⟩ := Option.map_eq_some_iff.1 hk'
  refine ⟨⟨r, k, later, hr, hk, hterm, ?_⟩, ⟨slots, hframe, fun x hx => Nat.le_trans hn (hslots x hx)⟩, hglobals⟩
  rw [hblocks, List.append_assoc]

theorem Stands.clear (h : σ'.Stands S P) (hσ : σ.Plain) (hframes : σ'.frames.current = σ.frames.current) :
    S.Clear σ.builder.nextRegister σ'.builder.nextRegister := by
  obtain ⟨later, hframe, hlater⟩ := h.frame
  intro x hx
  rw [hframe, hframes] at hx
  rcases List.mem_append.1 hx with hx | hx
  · exact .inl (hσ.below x hx)
  · exact .inr (hlater x hx)

/-! ## Steps without code -/

structure Silent (σ σ' : LowerState) : Prop where
  ready : σ'.Ready
  keeps : σ.Keeps σ'
  registers : σ.builder.nextRegister ≤ σ'.builder.nextRegister
  dead : σ'.afterReturn = σ.afterReturn
  stands : ∀ S P, σ'.Stands S P → σ.Stands S P

theorem Silent.refl (h : σ.Ready) : σ.Silent σ := ⟨h, .refl σ, Nat.le_refl _, rfl, fun _ _ hP => hP⟩

theorem Ready.silent_numbered (h : σ.Ready) (k depth : Nat) :
    σ.Silent { σ with builder := { σ.builder with nextBlock := k }, loopDepth := depth } where
  ready := { h with toPlain := ⟨h.below, h.kinds⟩ }
  keeps := ⟨rfl, rfl, rfl, rfl, rfl, rfl, fun _ hx => hx, fun _ hg => hg, rfl⟩
  registers := Nat.le_refl _
  dead := rfl
  stands _ _ hP := ⟨hP.code, hP.frame, hP.globals⟩

theorem Ready.silent_interned (h : σ.Ready) {content : String} {hnone : σ.builder.strings.get? content = none}
    (hglobals : (σ.builder.intern content hnone).assembly.globals = [numberFormat]) :
    σ.Silent { σ with builder := σ.builder.intern content hnone } := by
  have hsubset : ∀ g ∈ σ.builder.assembly.globals, g ∈ (σ.builder.intern content hnone).assembly.globals :=
    fun g hg => List.mem_append_left _ hg
  exact ⟨{ h with toPlain := ⟨h.below, h.kinds⟩, globals := .inr hglobals },
    ⟨rfl, rfl, rfl, rfl, rfl, rfl, fun _ hx => hx, hsubset, rfl⟩, Nat.le_refl _, rfl,
    fun _ _ hP => ⟨hP.code, hP.frame, fun g hg => hP.globals g (hsubset g hg)⟩⟩

def declared (σ : LowerState) (name : String) : LowerState :=
  let slot : Slot := ⟨name, ⟨σ.builder.nextRegister⟩, .int⟩
  { σ with
    builder := { σ.builder with
      nextRegister := σ.builder.nextRegister + 1
      prologue := σ.builder.prologue ++ slot.prologue }
    frames := (σ.frames.register name slot.register .int).2 }

theorem Ready.declared (h : σ.Ready) {name : String} (hname : σ.frames.lookup name = none) : (σ.declared name).Ready := by
  have hcurrent := (Frames.register_of_none hname ⟨σ.builder.nextRegister⟩ .int).2
  have hfresh : (⟨σ.builder.nextRegister⟩ : Register) ∉ σ.frames.current.map Slot.register := by
    intro hmem
    obtain ⟨x, hx, hxr⟩ := List.mem_map.1 hmem
    have hlt := h.below x hx
    rw [hxr] at hlt
    exact Nat.lt_irrefl _ hlt
  refine { h with toPlain := ⟨fun x hx => ?_, fun x hx => ?_⟩, registers := ?_, prologue := ?_ }
  · rcases List.mem_append.1 (hcurrent ▸ hx) with hx | hx
    · exact Nat.lt_succ_of_lt (h.below x hx)
    · obtain rfl := List.mem_singleton.1 hx
      exact Nat.lt_succ_self _
  · rcases List.mem_append.1 (hcurrent ▸ hx) with hx | hx
    · exact h.kinds x hx
    · obtain rfl := List.mem_singleton.1 hx
      rfl
  · simp only [LowerState.declared, hcurrent, List.map_append, List.map_singleton]
    exact List.nodup_append.2
      ⟨h.registers, by simp, by simpa using fun x hx hxr => hfresh (List.mem_map.2 ⟨x, hx, hxr⟩)⟩
  · simp only [LowerState.declared, hcurrent, List.flatMap_append, h.prologue]
    simp

theorem Ready.silent_declared (h : σ.Ready) {name : String} (hname : σ.frames.lookup name = none) :
    σ.Silent (σ.declared name) where
  ready := h.declared hname
  keeps := ⟨rfl, rfl, rfl, rfl, rfl, rfl,
    fun _ hx => (Frames.register_of_none hname _ _).2 ▸ List.mem_append_left _ hx, fun _ hg => hg, rfl⟩
  registers := Nat.le_succ _
  dead := rfl
  stands S P hP := by
    obtain ⟨later, hframe, hlater⟩ := hP.frame
    refine ⟨hP.code, ⟨⟨name, ⟨σ.builder.nextRegister⟩, .int⟩ :: later, ?_, fun x hx => ?_⟩, hP.globals⟩
    · rw [hframe]
      simp [LowerState.declared, (Frames.register_of_none hname _ _).2]
    · rcases List.mem_cons.1 hx with rfl | hx
      · exact Nat.le_refl _
      · exact Nat.le_of_succ_le (hlater x hx)

/-! ## Blocks -/

/-- The open block is closed, and the block `id` is opened: jumps to it arrive where its code begins. -/
structure Opens (σ : LowerState) (t : Terminator) (id : BlockId) (σ' : LowerState) : Prop where
  ready : σ'.Ready
  keeps : σ.Keeps σ'
  stands : ∀ S P, σ'.Stands S P → σ.Stands S ⟨[], some t⟩ ∧ S.Target id P

theorem run_startBlock {b : Builder} {r : Routine} {k : Block} (hr : b.routine = some r) (hk : b.block = some k)
    (hterm : k.terminator = none) (t : Terminator) (id : BlockId) (label : String) :
    ((Builder.startBlock id label).run ((Builder.terminate t).run b).2).2 =
      { b with
        routine := some { r with blocks := r.blocks ++ [{ k with terminator := some t }] }
        block := some ⟨id, label, [], none⟩ } := by
  have hblock : ((Builder.terminate t).run b).2.block = some { k with terminator := some t } := by
    show b.block.map _ = _
    simp [hk, hterm]
  rw [Builder.startBlock_eq, hblock, show ((Builder.terminate t).run b).2.routine = some r from hr]
  rfl

theorem Ready.opens (h : σ.Ready) (t : Terminator) (id : BlockId) (label : String) (dead : Bool) :
    σ.Opens t id
      { σ with
        builder := ((Builder.startBlock id label).run ((Builder.terminate t).run σ.builder).2).2
        afterReturn := dead } := by
  obtain ⟨r, k, hr, hk, hterm⟩ := h.isOpen
  rw [run_startBlock hr hk hterm]
  refine ⟨{ h with toPlain := ⟨h.below, h.kinds⟩, isOpen := ⟨_, _, rfl, rfl, rfl⟩ },
    ⟨rfl, rfl, rfl, rfl, rfl, rfl, fun _ hx => hx, fun _ hg => hg, by rw [hr]; rfl⟩, fun S P hP => ?_⟩
  obtain ⟨⟨r', k', later, hr', hk', -, hblocks⟩, hframe, hglobals⟩ := hP
  cases hr'
  cases hk'
  refine ⟨⟨⟨r, k, ⟨id, label, P.rest, P.terminator⟩ :: later, hr, hk, hterm, ?_⟩, hframe, hglobals⟩, label, ?_⟩
  · rw [hblocks, List.append_nil]
    simp
  · rw [hblocks]
    cases r.blocks with
    | nil => simp
    | cons => simp

end LowerState
end QuillLang
