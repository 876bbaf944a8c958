import QuillLang.Proofs.Filled.Run
import QuillLang.Proofs.Machine.Control
/-!
# Code that fills before it reads

Which slots are filled at a place in the code can be settled without running it: say for each block which slots are filled
whenever control gets there, none for the first, and see that every jump and every read agrees with that.  A run of such
code reads no slot that it has not filled, whichever way it takes (`Assembly.fillsFirst_of_sure`).
-/
namespace QuillLang

def FilledBy (S : Register → Prop) (is : List Instr) (s : Register) : Prop := S s ∨ ∃ i ∈ is, i.fills? = some s

theorem FilledBy.mono {S S' : Register → Prop} {is js : List Instr} {s : Register} (h : FilledBy S is s)
    (hS : ∀ s, S s → S' s) (his : ∀ i ∈ is, i ∈ js) : FilledBy S' js s :=
  h.imp (hS s) fun ⟨i, hi, hs⟩ => ⟨i, his i hi, hs⟩

/-- With the slots `sure` filled at the heads of blocks, the block reads what is filled, and leads to others with what they
ask for. -/
structure Block.Sure (sure : BlockId → Register → Prop) (k : Block) : Prop where
  reads : ∀ before r s is, k.instrs = before ++ ⟨some r, .load .ptr (.register s)⟩ :: is → k.handsOn r is = true →
    FilledBy (sure k.id) before s
  leads : ∀ e, k.terminator = some e → ∀ target ∈ e.successors, ∀ s, sure target s → FilledBy (sure k.id) k.instrs s

structure Routine.Sure (sure : BlockId → Register → Prop) (r : Routine) : Prop where
  entry : ∀ k ∈ r.blocks.head?, ∀ s, ¬ sure k.id s
  blocks : ∀ k ∈ r.blocks, k.Sure sure

/-! ## Runs of sure code -/

def Activation.Sure (f : Activation) (filled : Register → Prop) : Prop :=
  ∃ sure before, (∀ k ∈ f.routine.blocks, k.Sure sure) ∧ f.block ∈ f.routine.blocks ∧
    f.block.instrs = before ++ f.rest ∧ ∀ s, FilledBy (sure f.block.id) before s → filled s

structure Machine.Sure (m : Machine) (filled : Nat → Register → Prop) : Prop where
  running : m.running.Sure (filled m.running.id)
  callers : ∀ f ∈ m.callers, f.Sure (filled f.id) ∧ ∀ i ∈ f.rest.head?, i.fills? = none

namespace Activation.Sure
variable {f f' : Activation} {filled filled' : Register → Prop}

theorem mono (h : f.Sure filled) (hf : ∀ s, filled s → filled' s) : f.Sure filled' := by
  obtain ⟨sure, before, hblocks, hblock, hbefore, hfilled⟩ := h
  exact ⟨sure, before, hblocks, hblock, hbefore, fun s hs => hf s (hfilled s hs)⟩

theorem advances (h : f.Sure filled) (hf' : f.Advances f') (hfilled : ∀ s, filled s → filled' s)
    (hfills : ∀ i ∈ f.rest.head?, ∀ s, i.fills? = some s → filled' s) : f'.Sure filled' := by
  obtain ⟨sure, before, hblocks, hblock, hbefore, hsure⟩ := h
  rw [← hf'.block, ← hf'.routine] at hblock
  rw [← hf'.routine] at hblocks
  rw [← hf'.block] at hbefore hsure
  cases hrest : f.rest with
  | nil =>
    refine ⟨sure, before, hblocks, hblock, ?_, fun s hs => hfilled s (hsure s hs)⟩
    rw [hbefore, hf'.rest, hrest]
    rfl
  | cons i is =>
    rw [hrest] at hfills
    refine ⟨sure, before ++ [i], hblocks, hblock, ?_, ?_⟩
    · rw [hbefore, hf'.rest, hrest]
      simp
    · rintro s (hs | ⟨j, hj, hs⟩)
      · exact hfilled s (hsure s (.inl hs))
      · rcases List.mem_append.1 hj with hj | hj
        · exact hfilled s (hsure s (.inr ⟨j, hj, hs⟩))
        · rw [List.mem_singleton.1 hj] at hs
          exact hfills i rfl s hs

theorem filled_of_reads {m : Machine} {s : Register} (h : m.running.Sure filled) (hs : m.reads? = some s) : filled s := by
  obtain ⟨sure, before, hblocks, hblock, hbefore, hsure⟩ := h
  unfold Machine.reads? at hs
  split at hs
  · rename_i r s' is hrest
    split at hs
    · rename_i hhands
      cases hs
      rw [hrest] at hbefore
      exact hsure s ((hblocks _ hblock).reads before r s is hbefore hhands)
    · cases hs
  · cases hs

end Activation.Sure

namespace Machine
variable {a : Assembly} {w : Answer} {m m' : Machine} {filled : Nat → Register → Prop}

theorem Sure.enters (h : m.Sure filled) (hroutines : ∀ r ∈ a.routines, ∃ sure, r.Sure sure) (henters : m.Enters a m')
    (hcall : ∀ i ∈ m.running.rest.head?, i.fills? = none) : m'.Sure filled := by
  obtain ⟨sure, hsure⟩ := hroutines _ henters.routine
  refine ⟨⟨sure, [], hsure.blocks, List.mem_of_mem_head? henters.entry, by simp [henters.rest], ?_⟩, ?_⟩
  · rintro s (hs | ⟨i, hi, -⟩)
    · exact absurd hs (hsure.entry _ henters.entry s)
    · cases hi
  · rw [henters.callers]
    exact List.forall_mem_cons.2 ⟨⟨h.running, hcall⟩, h.callers⟩

/-- **A step of sure code leads to sure code.** -/
theorem Sure.step (h : m.Sure filled) (hroutines : ∀ r ∈ a.routines, ∃ sure, r.Sure sure)
    (hgoes : m.step a w = .ok m') : m'.Sure (m.filledAfter filled) := by
  have hafter : ∀ {f : Activation}, f.Sure (filled f.id) → f.Sure (m.filledAfter filled f.id) := fun hf =>
    hf.mono fun s hs => .inl hs
  have hcallers : ∀ f ∈ m.callers, f.Sure (m.filledAfter filled f.id) ∧ ∀ i ∈ f.rest.head?, i.fills? = none :=
    fun f hf => ⟨hafter (h.callers f hf).1, (h.callers f hf).2⟩
  unfold Machine.step at hgoes
  split at hgoes
  · rename_i i is hrest
    rcases control_perform hgoes with hnext | ⟨⟨_, _, _, _, hcall⟩, henters⟩
    · refine ⟨?_, hnext.callers ▸ hcallers⟩
      rw [hnext.running.id]
      refine h.running.advances hnext.running (fun s hs => .inl hs) fun j hj s hs => .inr ⟨rfl, ?_⟩
      rw [fills?, hj]
      exact hs
    · have hm : m.Sure (m.filledAfter filled) := ⟨hafter h.running, hcallers⟩
      refine hm.enters hroutines henters fun j hj => ?_
      rw [hrest] at hj
      cases hj
      simp [Instr.fills?, hcall]
  · rename_i hrest
    rcases (control_conclude hgoes).2 with ⟨e, target, k, he, htarget, hk, hid, hrunning, hsame⟩ | ⟨f, hf, hnext⟩
    · refine ⟨?_, hsame ▸ hcallers⟩
      obtain ⟨sure, before, hblocks, hblock, hbefore, hsure⟩ := h.running
      rw [hrunning]
      refine ⟨sure, [], hblocks, hk, rfl, ?_⟩
      rintro s (hs | ⟨i, hi, -⟩)
      · -- what the successor asks for is filled at the end of the block
        have hs : sure target s := hid ▸ hs
        rw [hrest, List.append_nil] at hbefore
        exact .inl (hsure s (hbefore ▸ (hblocks _ hblock).leads e he target htarget s hs))
      · cases hi
    · rw [hf] at hcallers
      obtain ⟨⟨hrunning, hcall⟩, hcallers⟩ := List.forall_mem_cons.1 hcallers
      refine ⟨?_, hcallers⟩
      rw [hnext.id]
      exact hrunning.advances hnext (fun s hs => hs) fun i hi s hs => by rw [hcall i hi] at hs; cases hs

end Machine

/-- **Sure code fills before it reads**, in every run. -/
theorem Assembly.fillsFirst_of_sure {a : Assembly} (h : ∀ r ∈ a.routines, ∃ sure, r.Sure sure) (ws : List Answer) :
    a.FillsFirst ws := by
  have hrun : ∀ us m, a.run us = .ok m → m.Sure (a.Filled us) := by
    intro us
    induction us using List.reverseRecOn with
    | nil =>
      intro m hm
      obtain ⟨m₀, hstart, hm⟩ := exists_of_bind_ok hm
      cases hm
      unfold start at hstart
      split at hstart
      · cases hstart
      rename_i f hf
      split at hstart
      · cases hstart
      rename_i k ks hk
      cases hstart
      obtain ⟨sure, hsure⟩ := h f (List.mem_of_find?_eq_some hf)
      have hentry : k ∈ f.blocks.head? := by simp [hk]
      refine ⟨⟨sure, [], hsure.blocks, List.mem_of_mem_head? hentry, rfl, ?_⟩, fun f hf => by cases hf⟩
      rintro s (hs | ⟨i, hi, -⟩)
      · exact absurd hs (hsure.entry k hentry s)
      · cases hi
    | append_singleton us w ih =>
      intro m hm
      rw [run_append] at hm
      obtain ⟨m₁, hm₁, hstep⟩ := exists_of_bind_ok hm
      obtain ⟨hrunning, hcallers⟩ := (ih m₁ hm₁).step h hstep
      have hfilled := fun id s => (filled_append (w := w) hm₁ id s).2
      exact ⟨hrunning.mono (hfilled _), fun f hf => ⟨(hcallers f hf).1.mono (hfilled _), (hcallers f hf).2⟩⟩
  intro us m s _ _ hm hs
  exact (hrun us m hm).running.filled_of_reads hs

end QuillLang
