import QuillLang.Proofs.Graph.Routines
/-!
# Where slots are emptied

A slot for a buffer starts out with null, and the statement `free` puts null back.  Nothing else does: in the code of a
program without `free`, null is stored at the heads of routines alone, before any other pointer is
(`Program.emptiesFirst_of_lower`).
-/
namespace QuillLang

/-! ## Code -/

def Instr.empties? (i : Instr) : Option Register :=
  match i.operation with
  | .store .ptr .null (.register s) => some s
  | _ => none

def Instr.fills? (i : Instr) : Option Register :=
  match i.operation with
  | .store .ptr v (.register s) => if v = .null then none else some s
  | _ => none

/-- Null is stored in the first block alone, and there before any other pointer. -/
structure Routine.EmptiesFirst (r : Routine) : Prop where
  entry : ∀ k ∈ r.blocks.head?, ∃ before code, k.instrs = before ++ code ∧ (∀ i ∈ before, i.fills? = none) ∧
    ∀ i ∈ code, i.empties? = none
  rest : ∀ k ∈ r.blocks.tail, ∀ i ∈ k.instrs, i.empties? = none

/-! ## Building -/

namespace Builder

theorem emptiesFirst_withPrologue (r : Routine) (prologue : List Instr) (hr : ∀ i ∈ r.instrs, i.empties? = none)
    (hp : ∀ i ∈ prologue, i.fills? = none) : (withPrologue r prologue).EmptiesFirst := by
  unfold withPrologue
  split
  · rename_i hblocks
    exact ⟨by simp [hblocks], by simp [hblocks]⟩
  · rename_i entry rest hblocks
    rw [Routine.instrs, hblocks] at hr
    obtain ⟨hentry, hrest⟩ := List.forall_mem_append.1 hr
    refine ⟨fun k hk => ?_, fun k hk i hi => hrest i (List.mem_flatMap.2 ⟨k, hk, hi⟩)⟩
    cases hk
    exact ⟨prologue, entry.instrs, rfl, hp, hentry⟩

end Builder

/-- **In the code of a program without `free`, null is stored at the heads of routines alone.** -/
theorem Program.emptiesFirst_of_lower {p : Program} {sigs : Signatures} {options : LowerOptions} {a : Assembly}
    (h : p.lower sigs options = .ok a) (hfrees : p.frees = false) : ∀ r ∈ a.routines, r.EmptiesFirst := by
  have hempties (i : Instr) (hi : i.stores? = some .null → p.frees = true) : i.empties? = none := by
    rw [hfrees] at hi
    unfold Instr.stores? at hi
    unfold Instr.empties?
    split <;> simp_all
  have hfills (i : Instr) (hi : ∀ v ∈ i.stores?, v = .null) : i.fills? = none := by
    unfold Instr.stores? at hi
    unfold Instr.fills?
    split <;> simp_all
  obtain ⟨b, hb, rfl⟩ := exists_of_lower (A := Builder.Coded Routine.EmptiesFirst _ _) h
    (fun _ hb => hb.coded fun r hr => ⟨by simp [hr], by simp [hr]⟩)
    (fun _ _ _ _ hb => hb.startRoutine Builder.emptiesFirst_withPrologue _ _ _)
    (fun _ _ hb ha => hb.act ha (fun i _ => hempties i) fun i _ => hfills i)
    fun _ hb => hb.closeRoutine Builder.emptiesFirst_withPrologue
  exact hb.routines

end QuillLang
