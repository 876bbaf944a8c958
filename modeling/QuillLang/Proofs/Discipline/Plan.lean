import QuillLang.Lowering.Context
import QuillLang.Proofs.Discipline.Lemmas
/-!
# Routines that keep to the discipline

A plan of a routine names its slots, their births and the marks of its blocks, and splits the first block into the code that
makes the slots and the code after it.  A routine fits a plan when its registers and its blocks have names of their own and
every block keeps to the discipline.
-/
namespace QuillLang

def Slot.prologue (slot : Slot) : List Instr :=
  [⟨some slot.register, .alloca slot.kind.machineType⟩,
    ⟨none, .store slot.kind.machineType (Lower.initialValue slot.kind) (.register slot.register)⟩]

def Instr.slot? (i : Instr) : Option Register :=
  match i.operation with
  | .alloca _ => i.result
  | _ => none

namespace Known

def ofParams (params : List (Register × MachineType)) : Known :=
  ⟨fun r => (params.find? fun p => p.1 = r).map fun p => if p.2 = .ptr then .argument else .plain p.2,
    fun _ => .ready, 0, false⟩

def atEntry (params : List (Register × MachineType)) (F : Frame) : Known :=
  { ofParams params with status := fun x => if x ∈ F.map Slot.register then .absent else .ready }

end Known

structure Plan where
  frame : Frame
  /-- The first block, without the code that makes the slots. -/
  entry : Block
  rest : List Block
  birth : Register → Nat
  mark : BlockId → Nat
  /-- Blocks that nothing enters. -/
  dead : List BlockId
  retMark : Nat
  early : Bool

namespace Plan

def blocks (P : Plan) : List Block :=
  { P.entry with instrs := P.frame.flatMap Slot.prologue ++ P.entry.instrs } :: P.rest

def Enters (P : Plan) (i : BlockId) (m : Nat) : Prop := i ∈ P.rest.map Block.id ∧ i ∉ P.dead ∧ m ≤ P.mark i

def setting (P : Plan) (signature : String → Option CallSignature) (ret : MachineType) : Setting :=
  ⟨P.frame, signature, ret, P.birth, P.Enters, P.retMark, P.early⟩

def startOf (P : Plan) (k : Block) : Known := Known.atBlock (P.mark k.id) (decide (k.id ∈ P.dead))

def start (P : Plan) (params : List (Register × MachineType)) (k : Block) : Known :=
  if k.id = P.entry.id then Known.atEntry params P.frame else P.startOf k

structure Fits (P : Plan) (signature : String → Option CallSignature) (r : Routine) : Prop where
  internal : r.isExternal = false
  fixed : r.isVariadic = false
  blocks : r.blocks = P.blocks
  ids : (r.blocks.map Block.id).Nodup
  registers : (r.params.map Prod.fst ++ r.instrs.filterMap Instr.result).Nodup
  entry : ∃ n, (P.setting signature r.ret).Keeps n (Known.ofParams r.params) P.entry
  rest : ∀ k ∈ P.rest, ∃ n, (P.setting signature r.ret).Keeps n (P.startOf k) k

end Plan

/-! ## The head of a routine -/

theorem Slot.results_prologue (F : Frame) :
    (F.flatMap Slot.prologue).filterMap Instr.result = F.map Slot.register := by
  induction F with
  | nil => rfl
  | cons slot F ih => simp [Slot.prologue, ih]

theorem Setting.steps_prologue (S : Setting) (params : List (Register × MachineType)) :
    ∀ G : Frame, (∀ slot ∈ G, slot ∈ S.frame) → (G.map Slot.register).Nodup →
      S.Steps (Known.atEntry params G) (G.flatMap Slot.prologue) (Known.ofParams params)
  | [], _, _ => by
    show Known.atEntry params [] = Known.ofParams params
    simp [Known.atEntry, Known.ofParams]
  | slot :: G, hG, hn => by
    have hmem := hG slot (by simp)
    have hnot : slot.register ∉ G.map Slot.register := (List.nodup_cons.1 hn).1
    have ih := S.steps_prologue params G (fun x hx => hG x (List.mem_cons_of_mem _ hx)) (List.nodup_cons.1 hn).2
    have hready : ((Known.atEntry params (slot :: G)).setStatus slot.register .stale).setStatus slot.register .ready =
        Known.atEntry params G := by
      simp only [Known.atEntry, Known.setStatus, Known.mk.injEq, true_and, and_true]
      funext x
      by_cases hx : x = slot.register
      · simp [hx, hnot]
      · simp [hx]
    refine ⟨_, .alloca hmem (by simp [Known.atEntry]), _, ?_, by rw [← hready] at ih; exact ih⟩
    cases hk : slot.kind with
    | int => exact .storeNumber hmem hk (by simp) (Known.hasType_int _ _)
    | string => exact .storeNull hmem (by rw [hk]; rfl) (by simp)
    | array => exact .storeNull hmem (by rw [hk]; rfl) (by simp)

namespace Plan.Fits
variable {P : Plan} {signature : String → Option CallSignature} {r : Routine}

theorem slots_nodup (h : P.Fits signature r) : (P.frame.map Slot.register).Nodup := by
  have hn := (List.nodup_append.1 h.registers).2.1
  rw [Routine.instrs, h.blocks, Plan.blocks, List.flatMap_cons, List.append_assoc, List.filterMap_append,
    Slot.results_prologue] at hn
  exact (List.nodup_append.1 hn).1

/-- **Every block keeps to the discipline from its first instruction.** -/
theorem block (h : P.Fits signature r) {k : Block} (hk : k ∈ r.blocks) : ∃ t e m, k.terminator = some e ∧
    (P.setting signature r.ret).Steps (P.start r.params k) k.instrs t ∧
    (∀ i ∈ k.instrs, i.slot? = none → ∀ x, i.result = some x → x.index < m) ∧
    (P.setting signature r.ret).Ends m t e := by
  have below : ∀ {is : List Instr} {m : Nat}, (∀ x ∈ is.filterMap Instr.result, x.index < m) →
      ∀ i ∈ is, ∀ x, i.result = some x → x.index < m :=
    fun hm i hi x hx => hm x (List.mem_filterMap.2 ⟨i, hi, hx⟩)
  rw [h.blocks, Plan.blocks] at hk
  have hids := h.ids
  rw [h.blocks, Plan.blocks, List.map_cons, List.nodup_cons] at hids
  unfold Plan.start
  rcases List.mem_cons.1 hk with rfl | hk
  · rw [if_pos rfl]
    obtain ⟨n, t, e, he, hs, m, -, hm, hends⟩ := h.entry
    refine ⟨t, e, m, he, Setting.steps_append.2 ⟨_, ?_, hs⟩, fun i hi hslot x hx => ?_, hends⟩
    · exact Setting.steps_prologue _ _ _ (fun _ hs => hs) h.slots_nodup
    · rcases List.mem_append.1 hi with hi | hi
      · obtain ⟨slot, -, hi⟩ := List.mem_flatMap.1 hi
        simp only [Slot.prologue, List.mem_cons, List.not_mem_nil, or_false] at hi
        rcases hi with rfl | rfl
        · cases hslot
        · cases hx
      · exact below hm i hi x hx
  · rw [if_neg]
    · obtain ⟨n, t, e, he, hs, m, -, hm, hends⟩ := h.rest k hk
      exact ⟨t, e, m, he, hs, fun i hi _ => below hm i hi, hends⟩
    · intro hid
      exact hids.1 (hid ▸ List.mem_map_of_mem hk)

end Plan.Fits
end QuillLang
