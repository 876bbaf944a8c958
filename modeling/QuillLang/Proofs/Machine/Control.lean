import QuillLang.Proofs.Machine.Step
/-!
# Where control goes

After an instruction, control goes to the next one or into the routine that is called; at the end of a block it goes to one
of its successors or back to the caller.  What is printed stays printed.
-/
namespace QuillLang

structure Activation.Advances (f f' : Activation) : Prop where
  id : f'.id = f.id
  routine : f'.routine = f.routine
  block : f'.block = f.block
  rest : f'.rest = f.rest.tail

namespace Machine
variable {a : Assembly} {w : Answer} {m m' : Machine} {i : Instr}

structure Uses (m m' : Machine) : Prop where
  running : m'.running = m.running
  callers : m'.callers = m.callers
  output : m.output <+: m'.output

structure Advances (m m' : Machine) : Prop where
  running : m.running.Advances m'.running
  callers : m'.callers = m.callers
  output : m.output <+: m'.output

structure Enters (a : Assembly) (m m' : Machine) : Prop where
  routine : m'.running.routine ∈ a.routines
  entry : m'.running.routine.blocks.head? = some m'.running.block
  rest : m'.running.rest = m'.running.block.instrs
  callers : m'.callers = m.running :: m.callers
  output : m'.output = m.output

theorem Uses.memory (m : Machine) (heap : List Buffer) (slots : Nat → Register → Option Value) :
    m.Uses { m with heap := heap, slots := slots } := ⟨rfl, rfl, List.prefix_refl _⟩

theorem Uses.finish (h : m.Uses m') (result : Option Register) (v : Value) : m.Advances (m'.finish result v) := by
  refine ⟨?_, h.callers, h.output⟩
  rw [← h.running]
  exact ⟨rfl, rfl, rfl, rfl⟩

theorem uses_write {p : Pointer} {v : Value} (h : m.write p v = .ok m') : m.Uses m' := by
  cases p with
  | slot i r =>
    cases h
    exact .memory m _ _
  | null | global | heap =>
    obtain ⟨c, -, h⟩ := exists_of_bind_ok h
    dsimp only at h
    split at h
    · cases h
      exact .memory m _ _
    · cases h

theorem uses_setText {p : Pointer} {text : List UInt8} (h : m.setText p text = .ok m') : m.Uses m' := by
  unfold setText at h
  repeat' split at h
  all_goals cases h
  exact .memory m _ _

theorem uses_free {p : Pointer} (h : m.free p = .ok m') : m.Uses m' := by
  unfold free at h
  repeat' split at h
  all_goals cases h
  all_goals exact .memory m _ _

theorem uses_callLibrary {name : String} {ret : MachineType} {vs : List Value} {y : Machine × Value}
    (h : m.callLibrary a w name ret vs = .ok y) : m.Uses y.1 := by
  unfold callLibrary at h
  split at h
  · cases h
  obtain ⟨args, -, h⟩ := exists_of_bind_ok h
  split at h
  · cases h
  obtain ⟨m₁, hwrite, h⟩ := exists_of_bind_ok h
  cases h
  have hm₁ : m.Uses m₁ := by
    unfold writeFirst at hwrite
    split at hwrite
    · exact uses_setText hwrite
    · cases hwrite
    · cases hwrite
      exact .memory m _ _
  exact ⟨hm₁.running, hm₁.callers, hm₁.output.trans (List.prefix_append _ _)⟩

theorem control_call {result : Option Register} {callee : String} {ret : MachineType}
    {args : List (MachineType × Operand)} (h : m.call a w result callee ret args = .ok m') :
    m.Advances m' ∨ m.Enters a m' := by
  unfold call at h
  obtain ⟨vs, -, h⟩ := exists_of_bind_ok h
  split at h
  · cases h
  rename_i f hf
  split at h
  · left
    unfold callExternal at h
    split at h
    · split at h
      · cases h
        exact (Uses.memory m _ m.slots).finish _ _
      · cases h
    split at h
    · split at h
      · obtain ⟨m₁, hfree, h⟩ := exists_of_bind_ok h
        cases h
        exact (uses_free hfree).finish _ _
      · cases h
    split at h
    · split at h <;> cases h
    · obtain ⟨y, hlibrary, h⟩ := exists_of_bind_ok h
      cases h
      exact (uses_callLibrary hlibrary).finish _ _
  · right
    unfold enter at h
    split at h
    · cases h
    rename_i k ks hk
    split at h
    · cases h
      exact ⟨List.mem_of_find?_eq_some hf, by simp [hk], rfl, rfl, rfl⟩
    · cases h

/-- **Where control goes after an instruction**: to the next, or into a routine. -/
theorem control_perform (h : m.perform a w i = .ok m') :
    m.Advances m' ∨ (∃ callee ret args variadic, i.operation = .call callee ret args variadic) ∧ m.Enters a m' := by
  have hfinish {v : Value} {result : Option Register} (hv : m' = m.finish result v) : m.Advances m' :=
    hv ▸ (Uses.memory m m.heap m.slots).finish _ _
  unfold perform at h
  split at h
  · split at h
    · cases h
      exact .inl (hfinish rfl)
    · cases h
  · obtain ⟨p, -, h⟩ := exists_of_bind_ok h
    obtain ⟨v, -, h⟩ := exists_of_bind_ok h
    cases h
    exact .inl (hfinish rfl)
  · obtain ⟨v, -, h⟩ := exists_of_bind_ok h
    obtain ⟨p, -, h⟩ := exists_of_bind_ok h
    obtain ⟨m₁, hwrite, h⟩ := exists_of_bind_ok h
    cases h
    exact .inl ((uses_write hwrite).finish _ _)
  · obtain ⟨p, -, h⟩ := exists_of_bind_ok h
    obtain ⟨n, -, h⟩ := exists_of_bind_ok h
    cases h
    exact .inl (hfinish rfl)
  · obtain ⟨x, -, h⟩ := exists_of_bind_ok h
    obtain ⟨y, -, h⟩ := exists_of_bind_ok h
    obtain ⟨v, -, h⟩ := exists_of_bind_ok h
    cases h
    exact .inl (hfinish rfl)
  · obtain ⟨x, -, h⟩ := exists_of_bind_ok h
    obtain ⟨y, -, h⟩ := exists_of_bind_ok h
    obtain ⟨v, -, h⟩ := exists_of_bind_ok h
    cases h
    exact .inl (hfinish rfl)
  · obtain ⟨x, -, h⟩ := exists_of_bind_ok h
    obtain ⟨v, -, h⟩ := exists_of_bind_ok h
    cases h
    exact .inl (hfinish rfl)
  · rename_i hop
    exact (control_call h).imp id fun henters => ⟨⟨_, _, _, _, hop⟩, henters⟩

/-- **Where control goes at the end of a block**: to one of its successors, or back to the caller. -/
theorem control_conclude (h : m.conclude a = .ok m') : m'.output = m.output ∧
    ((∃ e target k, m.running.block.terminator = some e ∧ target ∈ e.successors ∧ k ∈ m.running.routine.blocks ∧
      k.id = target ∧ m'.running = { m.running with block := k, rest := k.instrs } ∧ m'.callers = m.callers) ∨
    ∃ f, m.callers = f :: m'.callers ∧ f.Advances m'.running) := by
  have hgoto {e : Terminator} {target : BlockId} (he : m.running.block.terminator = some e)
      (htarget : target ∈ e.successors) (hgoes : m.goto target = .ok m') : m'.output = m.output ∧
        ∃ e target k, m.running.block.terminator = some e ∧ target ∈ e.successors ∧ k ∈ m.running.routine.blocks ∧
          k.id = target ∧ m'.running = { m.running with block := k, rest := k.instrs } ∧ m'.callers = m.callers := by
    unfold goto at hgoes
    split at hgoes
    · rename_i k hk
      cases hgoes
      exact ⟨rfl, e, target, k, he, htarget, List.mem_of_find?_eq_some hk, by simpa using List.find?_some hk, rfl, rfl⟩
    · cases hgoes
  unfold conclude at h
  split at h
  · rename_i he
    exact (hgoto he (by simp [Terminator.successors]) h).imp id .inl
  · rename_i cond yes no he
    obtain ⟨x, -, h⟩ := exists_of_bind_ok h
    split at h
    · exact (hgoto he (by split <;> simp [Terminator.successors]) h).imp id .inl
    · cases h
  · obtain ⟨v, -, h⟩ := exists_of_bind_ok h
    unfold leave at h
    split at h
    · split at h <;> cases h
    · rename_i f fs hfs
      split at h
      · cases h
      · cases h
        exact ⟨rfl, .inr ⟨f, hfs, rfl, rfl, rfl, rfl⟩⟩
  · cases h
  · cases h
  · cases h

/-- **What is printed stays printed.** -/
theorem output_step (h : m.step a w = .ok m') : m.output <+: m'.output := by
  unfold step at h
  split at h
  · rcases control_perform h with hnext | ⟨-, henters⟩
    · exact hnext.output
    · exact henters.output ▸ List.prefix_refl _
  · exact (control_conclude h).1 ▸ List.prefix_refl _

end Machine
end QuillLang
