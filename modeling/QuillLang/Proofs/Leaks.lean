import QuillLang.Proofs.MemorySafety
/-!
# What a function leaves behind

A return frees the buffers of the variables declared before it and of no others.  A variable that is declared later holds
nothing yet, unless a loop brought control back to the return; then its buffer is lost.  So a function with no return before
a declaration in the same loop frees everything but what it returns, and one with such a return need not.
-/
namespace QuillLang

def Machine.returning? (m : Machine) : Option (MachineType × Operand) :=
  match m.running.rest, m.running.block.terminator with
  | [], some (.ret x) => x
  | _, _ => none

theorem Machine.returning?_eq_some {m : Machine} {x : MachineType × Operand} (h : m.returning? = some x) :
    m.running.rest = [] ∧ m.running.block.terminator = some (.ret (some x)) := by
  unfold returning? at h
  split at h
  · rename_i hrest hret
    rw [h] at hret
    exact ⟨hrest, hret⟩
  · cases h

namespace Scene
variable {X : Scene} {P : Plan} {t : Known} {m : Machine} {n : Nat} {v : Operand} {x : Value} {b : Nat}

/-- At a return, a block of the activation is returned or is held by a slot that was made after the return. -/
theorem Stands.kept (hstands : X.Stands P t m.running m.slots m.heap)
    (hx : m.eval X.assembly m.running.routine.ret v = .ok x) (howned : ∀ r, t.content r = some .owned → v = .register r)
    (hreleases : (X.setting P m.running).Releases n t v) (hb : Owns m.heap m.running.id b) :
    x = .ptr (.heap b 0) ∨ ∃ s, P.frame.HasHeap s ∧ n ≤ s.index ∧
      m.slots m.running.id s = some (.ptr (.heap b 0)) ∧ (P.early = false → t.mark ≤ P.birth s) := by
  obtain ⟨place, hholder, hvalue⟩ := hstands.agrees.ledger.complete b hb
  cases place with
  | register r =>
    obtain rfl := howned r hholder
    exact .inl (Option.some.inj ((Machine.register_of_eval hx).symm.trans hvalue))
  | slot s =>
    obtain ⟨hheap, hready⟩ := hholder
    obtain ⟨slot, hmem, rfl, hkind⟩ := hheap
    rcases hreleases slot hmem hkind with ⟨-, hstale | ⟨r, rfl, hview⟩⟩ | ⟨hn, hmark⟩
    · rw [hready] at hstale
      cases hstale
    · have he := (hstands.agrees.view r _ hview).2.2
      exact .inl (Option.some.inj ((Machine.register_of_eval hx).symm.trans (he.trans hvalue)))
    · exact .inr ⟨slot.register, ⟨slot, hmem, rfl, hkind⟩, hn, hvalue, hmark⟩

theorem Stands.owns_of_slot (hstands : X.Stands P t m.running m.slots m.heap) {s : Register}
    (hs : s ∈ m.running.routine.slots) (hready : t.status s = .ready)
    (hvalue : m.slots m.running.id s = some (.ptr (.heap b 0))) : Owns m.heap m.running.id b := by
  rw [hstands.plan.fits.slots_eq] at hs
  obtain ⟨slot, hmem, rfl⟩ := List.mem_map.1 hs
  have hkind : slot.kind.isHeap = true := by
    cases hk : slot.kind with
    | int =>
      obtain ⟨k, hk⟩ := hstands.agrees.number slot hmem hk hready
      rw [hk] at hvalue
      cases hvalue
    | string | array => rfl
  exact hstands.agrees.ledger.owns (x := .slot slot.register) ⟨⟨slot, hmem, rfl, hkind⟩, hready⟩ hvalue

end Scene

namespace Program

/-- A function that joins its argument and a mark, and returns the text. -/
def echo : Program :=
  let here : Span := ⟨⟨1, 1, 0⟩, ⟨1, 1, 0⟩⟩
  let name (x : String) : Ident := ⟨x, here⟩
  ⟨[.func (name "echo") [name "t"]
      [.make (name "s") (.binary .add (.var "t" here) (.string "!" here) here) here, .ret (name "s") here] here,
    .call (name "echo") [.string "hi" here] none here], here⟩

/-- A return before a declaration in a loop: the second round returns and leaves the text of the first. -/
def leaky : Program :=
  let here : Span := ⟨⟨1, 1, 0⟩, ⟨1, 1, 0⟩⟩
  let name (x : String) : Ident := ⟨x, here⟩
  ⟨[.func (name "leak") [name "n"]
      [.loop (.number 1 here)
        [.when (.var "n" here) [.ret (name "n") here] here,
          .make (name "s") (.string "abc" here) here,
          .make (name "n") (.number 1 here) here] here] here,
    .call (name "leak") [.number 0 here] none here], here⟩

/-- A run that is about to return from a function, and still owns a block. -/
theorem returns_of_any (p : Program) (n : Nat) (name : String) (ty : MachineType)
    (h : ((p.lower (Signatures.infer p) .standard).toOption.any fun a =>
      (a.run (List.replicate n .quiet)).toOption.any fun m =>
        m.running.routine.name == name && (m.returning?.any (·.1 == ty) &&
          m.heap.zipIdx.any fun k => k.1.live && k.1.owner == m.running.id)) = true) :
    ∃ a m v b, p.lower (Signatures.infer p) .standard = .ok a ∧ a.run (List.replicate n .quiet) = .ok m ∧
      m.running.routine.name = name ∧ m.returning? = some (ty, v) ∧ Owns m.heap m.running.id b := by
  obtain ⟨a, ha, h⟩ := exists_of_any h
  obtain ⟨m, hm, h⟩ := exists_of_any h
  simp only [Bool.and_eq_true, beq_iff_eq, Option.any_eq_true, List.any_eq_true] at h
  obtain ⟨hname, ⟨x, hret, rfl⟩, k, hk, hlive, howner⟩ := h
  exact ⟨a, m, x.2, k.2, ha, hm, hname, hret, k.1, List.mem_zipIdx_iff_getElem?.1 hk, hlive, howner⟩

/-- **What a function leaves behind when it returns.**  Registers are numbered in the order in which they are made, so the
slots numbered above all that the block of the return writes are those of variables declared after it.  When a function
returns the value `x`, the blocks that it still owns, the returned one apart, are exactly those in such slots; and if no
return stands before the first declaration of a text or an array in the same loop, there are none. -/
theorem lower_return_frees {p : Program} {sigs : Signatures} {options : LowerOptions} {a : Assembly}
    (h : p.lower sigs options = .ok a) {ws : List Answer} {m : Machine} (hm : a.run ws = .ok m) {f : FuncDecl}
    (hf : f ∈ p.functions) (hname : m.running.routine.name = "fn." ++ f.name.name) {ty : MachineType} {v : Operand}
    (hret : m.returning? = some (ty, v)) :
    ∃ x n, m.eval a ty v = .ok x ∧
      (∀ i ∈ m.running.block.instrs, i.slot? = none → ∀ r, i.result = some r → r.index < n) ∧
      (∀ b, x ≠ .ptr (.heap b 0) → (Owns m.heap m.running.id b ↔
        ∃ s ∈ m.running.routine.slots, n ≤ s.index ∧ m.slots m.running.id s = some (.ptr (.heap b 0)))) ∧
      (f.returnsEarly sigs = false → ∀ b, Owns m.heap m.running.id b → x = .ptr (.heap b 0)) := by
  obtain ⟨hrest, hret⟩ := Machine.returning?_eq_some hret
  obtain ⟨signature, hX⟩ := runnable_of_lower h
  have hsound := hX.run_safe ws
  rw [show Scene.assembly _ = a from rfl, hm] at hsound
  obtain ⟨P, t, hstands, hahead⟩ := hsound.running
  obtain ⟨hearly, hne⟩ := hstands.plan.function f hf hname
  rw [hrest] at hahead
  obtain ⟨e, n, he, hbound, hends⟩ := hahead.ends
  obtain rfl := Option.some.inj (he.symm.trans hret)
  cases hends with
  | ret hvalue hhands howned hlater hmark hreleases =>
    obtain ⟨x, hx, -⟩ := hstands.returns hvalue hhands
    have hkept := fun b => hstands.kept (b := b) hx howned (hreleases hne)
    refine ⟨x, n, hx, hbound, fun b hxb => ⟨fun hb => ?_, ?_⟩, fun hnot b hb => ?_⟩
    · rcases hkept b hb with hxb' | ⟨s, ⟨slot, hmem, rfl, -⟩, hn, hs, -⟩
      · exact absurd hxb' hxb
      · exact ⟨slot.register, hstands.plan.fits.slots_eq ▸ List.mem_map_of_mem hmem, hn, hs⟩
    · rintro ⟨s, hs, hn, hvalue⟩
      exact hstands.owns_of_slot hs (hlater s hn) hvalue
    · rcases hkept b hb with hxb | ⟨s, hheap, hn, hs, hbirth⟩
      · exact hxb
      · -- a variable that is declared later holds nothing when no loop has brought control back
        have hnull := hstands.agrees.vacant s hheap (hlater s hn) (hbirth (hearly.trans hnot))
        rw [hnull] at hs
        cases hs

theorem echo_return_frees : ∃ a m v x b, echo.lower (Signatures.infer echo) .standard = .ok a ∧
    a.run (List.replicate 22 .quiet) = .ok m ∧ m.running.routine.name = "fn.echo" ∧ m.returning? = some (.ptr, v) ∧
    m.eval a .ptr v = .ok x ∧ Owns m.heap m.running.id b ∧
    ∀ c, Owns m.heap m.running.id c → x = .ptr (.heap c 0) := by
  obtain ⟨a, m, v, b, ha, hm, hname, hret, hb⟩ :=
    returns_of_any echo 22 "fn.echo" .ptr (by decide +kernel)
  have hany : (echo.functions.any fun f => f.name.name == "echo" && !f.returnsEarly (Signatures.infer echo)) = true := by
    decide +kernel
  obtain ⟨f, hf, hecho⟩ := List.any_eq_true.1 hany
  simp only [Bool.and_eq_true, beq_iff_eq, Bool.not_eq_true'] at hecho
  obtain ⟨x, n, hx, -, -, hfrees⟩ := lower_return_frees ha hm hf (by rw [hname, hecho.1]; rfl) hret
  exact ⟨a, m, v, x, b, ha, hm, hname, hret, hx, hb, hfrees hecho.2⟩

/-- **A function may leak**: `leaky` returns a number while a text of its own is live. -/
theorem leaky_leaks : ∃ a m v b, leaky.lower (Signatures.infer leaky) .standard = .ok a ∧
    a.run (List.replicate 29 .quiet) = .ok m ∧ m.running.routine.name = "fn.leak" ∧ m.returning? = some (.i64, v) ∧
    Owns m.heap m.running.id b :=
  returns_of_any leaky 29 "fn.leak" .i64 (by decide +kernel)

end Program
end QuillLang
