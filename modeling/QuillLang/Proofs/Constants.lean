import QuillLang.Proofs.Graph.Routines
/-!
# Constants

Code refers to a constant by name.  No act of lowering takes a constant away, and what is written names constants that are
there, so in what lowering makes every constant is there (`Program.linked_of_lower`).
-/
namespace QuillLang

def Assembly.Linked (a : Assembly) : Prop :=
  ∀ r ∈ a.routines, ∀ i ∈ r.instrs, ∀ v ∈ i.operation.operands, a.Links v

namespace Builder

/-- All code names constants that are there. -/
def Linked (b : Builder) : Prop := Coded (fun r => ∀ i ∈ r.instrs, b.Links i) b.Links b.Links b

theorem mem_withPrologue {r : Routine} {is : List Instr} {i : Instr} (h : i ∈ (withPrologue r is).instrs) :
    i ∈ r.instrs ∨ i ∈ is := by
  unfold withPrologue at h
  split at h
  · exact .inl h
  · rename_i hb
    rw [Routine.instrs, hb]
    simp only [Routine.instrs, List.flatMap_cons, List.mem_append] at h ⊢
    rcases h with (h | h) | h
    · exact .inr h
    · exact .inl (.inl h)
    · exact .inl (.inr h)

theorem links_withPrologue (b : Builder) (r : Routine) (is : List Instr) (hr : ∀ i ∈ r.instrs, b.Links i)
    (his : ∀ i ∈ is, b.Links i) : ∀ i ∈ (withPrologue r is).instrs, b.Links i :=
  fun i hi => (mem_withPrologue hi).elim (hr i) (his i)

theorem Coded.linked {b b' : Builder} (h : Coded (fun r => ∀ i ∈ r.instrs, b.Links i) b.Links b.Links b')
    (hglobals : ∀ g ∈ b.assembly.globals, g ∈ b'.assembly.globals) : b'.Linked := by
  have hlinks (i : Instr) (hi : b.Links i) : b'.Links i := fun v hv => (hi v hv).mono hglobals
  exact ⟨fun r hr i hi => hlinks i (h.routines r hr i hi), fun r hr i hi => hlinks i (h.routine r hr i hi),
    fun k hk i hi => hlinks i (h.block k hk i hi), fun i hi => hlinks i (h.prologue i hi)⟩

end Builder

/-- **Every constant that lowered code names is there.** -/
theorem Program.linked_of_lower {p : Program} {sigs : Signatures} {options : LowerOptions} {a : Assembly}
    (h : p.lower sigs options = .ok a) : a.Linked := by
  have hstart (b : Builder) (name params ret) (hb : b.Linked) :
      ((Builder.startRoutine name params ret).run b).2.Linked := by
    refine (hb.startRoutine b.links_withPrologue name params ret).linked ?_
    obtain ⟨ps, hrun, -⟩ := Builder.run_startRoutine name params ret b
    simp [hrun, Builder.closeRoutine_eq]
  obtain ⟨b, hb, rfl⟩ := exists_of_lower h (fun _ hb => hb.coded fun r hr => by simp [Routine.instrs, hr]) hstart
    (fun _ _ hb ha => (hb.act ha (fun _ hi _ => hi) fun _ hi _ => hi).linked ha.continues.globals)
    fun b hb => (hb.closeRoutine b.links_withPrologue).linked (by simp [Builder.closeRoutine_eq])
  exact hb.routines

end QuillLang
