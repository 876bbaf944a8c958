import QuillLang.Proofs.Discipline.Plan
import QuillLang.Proofs.Ensures
/-!
# A routine in the making

While a routine is built, its closed blocks keep to the discipline and so does the code of its open block.  `Building`
says so of a builder.  A sketch records what the builder does not: the births of slots, the marks of blocks, a clock above
all of them, and the blocks that branches were promised but that are still to be begun.
-/
namespace QuillLang

def Builder.code {ν : Type} [Counter ν] (b : Builder ν) : List Instr :=
  match b.block with
  | none => []
  | some k => k.instrs

def Builder.written (b : Builder) (i : Instr) : Builder :=
  { b with
    nextRegister := match i.result with
      | none => b.nextRegister
      | some _ => b.nextRegister + 1
    block := b.block.map fun k => { k with instrs := k.instrs ++ [i] } }

structure Sketch where
  /-- The routines before this one. -/
  done : List Routine
  signature : String → Option CallSignature
  name : String
  params : List (Register × MachineType)
  ret : MachineType
  /-- The closed blocks. -/
  closed : List Block
  /-- The open block. -/
  id : BlockId
  label : String
  /-- Blocks that were promised and are not begun. -/
  pending : List BlockId
  /-- Blocks that follow a return. -/
  dead : List BlockId
  birth : Register → Nat
  mark : BlockId → Nat
  clock : Nat
  retMark : Nat
  early : Bool

namespace Sketch

def ids (D : Sketch) : List BlockId := D.closed.map Block.id ++ [D.id]

def startOf (D : Sketch) (i : BlockId) : Known :=
  if D.ids.head? = some i then Known.ofParams D.params else Known.atBlock (D.mark i) (decide (i ∈ D.dead))

/-- Control goes to blocks other than the first and those that follow a return, at no lesser mark. -/
def Enters (D : Sketch) (i : BlockId) (m : Nat) : Prop :=
  i ∈ D.ids.tail ∧ i ∉ D.dead ∧ m ≤ D.mark i ∨ i ∈ D.pending ∧ m ≤ D.clock

def setting (D : Sketch) (F : Frame) : Setting :=
  ⟨F, D.signature, D.ret, D.birth, D.Enters, D.retMark, D.early⟩

def registers (D : Sketch) (F : Frame) (b : Builder) : List Register :=
  D.params.map Prod.fst ++ F.map Slot.register ++ D.closed.flatMap (fun k => k.instrs.filterMap Instr.result) ++
    b.code.filterMap Instr.result

end Sketch

/-- **The builder holds the sketch**, with the slots `F`, and `t` is known at its open end. -/
structure Building (D : Sketch) (F : Frame) (b : Builder) (t : Known) : Prop where
  routines : b.assembly.routines = D.done
  signatures : ∀ name, b.signatures.get? name = D.signature name
  core : ∀ e ∈ External.core, D.signature e.name = some e.signature
  routine : b.routine = some ⟨D.name, D.params, D.ret, D.closed, false, false⟩
  block : b.block = some ⟨D.id, D.label, b.code, none⟩
  prologue : b.prologue = F.flatMap Slot.prologue
  typed : (D.setting F).Steps (D.startOf D.id) b.code t
  closed : ∀ k ∈ D.closed, (D.setting F).Keeps b.nextRegister (D.startOf k.id) k
  nodup : (D.registers F b).Nodup
  below : ∀ r ∈ D.registers F b, r.index < b.nextRegister
  unknown : ∀ r : Register, b.nextRegister ≤ r.index → t.content r = none ∧ t.status r = .ready
  ids : (D.ids ++ D.pending).Nodup
  idsBelow : ∀ i ∈ D.ids ++ D.pending, i.index < b.nextBlock
  deadBegun : ∀ i ∈ D.dead, i ∈ D.ids
  mark : t.mark ≤ D.clock
  births : ∀ slot ∈ F, D.birth slot.register < D.clock
  retMark : D.retMark ≤ D.clock

theorem Setting.Le.refl (n : Nat) (S : Setting) : S.Le n S :=
  ⟨fun _ h => h, fun _ h => .inl h, fun _ _ h => h, rfl, fun _ _ => rfl, fun _ _ h => h, Nat.le_refl _, fun h => h⟩

namespace Building
variable {D : Sketch} {F : Frame} {b : Builder} {t t' : Known}

theorem slot_below (h : Building D F b t) {slot : Slot} (hs : slot ∈ F) : slot.register.index < b.nextRegister :=
  h.below _ (by simp only [Sketch.registers, List.mem_append, List.mem_map]; exact .inl (.inl (.inr ⟨slot, hs, rfl⟩)))

theorem content_below (h : Building D F b t) {r : Register} {c : Content} (hr : t.content r = some c) :
    r.index < b.nextRegister := by
  rcases Nat.lt_or_ge r.index b.nextRegister with hlt | hge
  · exact hlt
  · rw [(h.unknown r hge).1] at hr
    cases hr

theorem fresh (h : Building D F b t) : (D.setting F).Fresh t ⟨b.nextRegister⟩ :=
  ⟨(h.unknown _ (Nat.le_refl _)).1, fun slot hs he => by
    have := h.slot_below hs
    rw [he] at this
    exact Nat.lt_irrefl _ this, fun _ _ hx => h.content_below hx⟩

theorem code_written {i : Instr} (h : Building D F b t) : (b.written i).code = b.code ++ [i] := by
  obtain ⟨k, hk⟩ : ∃ k, b.block = some k := ⟨_, h.block⟩
  simp only [Builder.code, Builder.written, hk, Option.map_some]

/-- **An instruction that the discipline allows may be written.** -/
theorem written (h : Building D F b t) {i : Instr} (hi : i.result = none ∨ i.result = some ⟨b.nextRegister⟩)
    (hs : (D.setting F).Step t i t') : Building D F (b.written i) t' := by
  have hcode : (b.written i).code = b.code ++ [i] := h.code_written
  have hle : b.nextRegister ≤ (b.written i).nextRegister := by
    simp only [Builder.written]
    split <;> omega
  have hregs : D.registers F (b.written i) = D.registers F b ++ i.result.toList := by
    unfold Sketch.registers
    rw [hcode, List.filterMap_append]
    cases hr : i.result <;> simp [hr]
  have hnew : ∀ r ∈ i.result.toList, b.nextRegister = r.index ∧ r.index < (b.written i).nextRegister := by
    intro r hr
    rcases hi with hi | hi
    · rw [hi] at hr
      cases hr
    · rw [hi] at hr
      obtain rfl : r = ⟨b.nextRegister⟩ := by simpa using hr
      simp [Builder.written, hi]
  refine ⟨h.routines, h.signatures, h.core, h.routine, ?_, h.prologue, ?_, ?_, ?_, ?_, ?_, h.ids, h.idsBelow,
    h.deadBegun, ?_, h.births, h.retMark⟩
  · rw [hcode]
    show b.block.map _ = _
    rw [h.block]
    rfl
  · rw [hcode]
    exact h.typed.snoc hs
  · exact fun k hk => (h.closed k hk).mono (Setting.Le.refl _ _) hle
  · rw [hregs, List.nodup_append]
    refine ⟨h.nodup, by cases i.result <;> simp, fun r hr x hx he => ?_⟩
    have := h.below r hr
    have := (hnew x hx).1
    rw [he] at *
    omega
  · intro r hr
    rw [hregs, List.mem_append] at hr
    rcases hr with hr | hr
    · exact Nat.lt_of_lt_of_le (h.below r hr) hle
    · exact (hnew r hr).2
  · intro r hr
    have hr' : b.nextRegister ≤ r.index := by omega
    refine ⟨hs.content_defined (h.unknown r hr').1 (fun he => ?_), ?_⟩
    · have := (hnew r (by rw [he]; simp)).2
      omega
    · rw [hs.status_of_not_slot (fun slot hslot he => ?_)]
      · exact (h.unknown r hr').2
      · have := h.slot_below hslot
        rw [he] at this
        omega
  · exact hs.mark_le h.mark h.births

end Building
end QuillLang
