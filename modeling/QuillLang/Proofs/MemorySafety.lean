import QuillLang.Proofs.Machine.Safety
/-!
# No double free, no use after free

A run of a lowered program stops at null or outside an array, and for no other reason before its end.  In each step that is
made, what is freed is null or a live block, and what is read or written is a live block or a constant.
-/
namespace QuillLang

/-! ## Steps that were made -/

theorem exists_of_mapM_ok {ε α β : Type} {f : α → Except ε β} : ∀ {l : List α} {ys : List β}, l.mapM f = .ok ys →
    ∀ x ∈ l, ∃ y ∈ ys, f x = .ok y
  | [], _, _, _, hx => by cases hx
  | a :: l, ys, h, x, hx => by
    rw [List.mapM_cons] at h
    obtain ⟨y, hy, h⟩ := exists_of_bind_ok h
    obtain ⟨zs, hzs, h⟩ := exists_of_bind_ok h
    cases h
    rcases List.mem_cons.1 hx with rfl | hx
    · exact ⟨y, List.mem_cons_self, hy⟩
    · obtain ⟨z, hz, hxz⟩ := exists_of_mapM_ok hzs x hx
      exact ⟨z, List.mem_cons_of_mem y hz, hxz⟩

def Operation.address? : Operation → Option Operand
  | load _ address | store _ _ address => some address
  | alloca _ | element _ _ _ | arith _ _ _ _ | compare _ _ _ _ | cast _ _ _ _ | call _ _ _ _ => none

theorem Instr.operation_of_callee? {i : Instr} {callee : String} (h : i.callee? = some callee) :
    ∃ ret args variadic, i.operation = .call callee ret args variadic := by
  unfold Instr.callee? at h
  split at h
  · rename_i hop
    cases h
    exact ⟨_, _, _, hop⟩
  · cases h

namespace Machine
variable {a : Assembly} {w : Answer} {m m' : Machine} {S : Setting} {t t' : Known} {i : Instr}

def IsLive (m : Machine) (b : Nat) : Prop := ∃ k, m.heap[b]? = some k ∧ k.live = true

structure UsesLive (a : Assembly) (m : Machine) (op : Operation) : Prop where
  /-- What is freed is null or a live block. -/
  freed : ∀ ret args variadic, op = .call "free" ret args variadic → ∀ x ∈ args,
    ∃ p, m.pointer a x.2 = .ok p ∧ (p = .null ∨ ∃ b, p = .heap b 0 ∧ m.IsLive b)
  /-- What an external routine reads or writes is a constant or a live block. -/
  passed : ∀ callee ret args variadic, op = .call callee ret args variadic → callee ∈ External.names →
    callee ≠ "free" → ∀ x ∈ args, x.1 = .ptr → ∃ p, m.pointer a x.2 = .ok p ∧
      ((∃ g, p = .global g ∧ g ∈ a.globals.map Global.name) ∨ ∃ b, p = .heap b 0 ∧ m.IsLive b)
  /-- What is loaded or stored is a slot of the routine or an element of a live block. -/
  accessed : ∀ v, op.address? = some v → ∃ p, m.pointer a v = .ok p ∧
    ((∃ s, p = .slot m.running.id s) ∨ ∃ b offset, p = .heap b offset ∧ m.IsLive b)

theorem isLive_of_owns {id b : Nat} (h : Owns m.heap id b) : m.IsLive b := by
  obtain ⟨k, hk, hlive, -⟩ := h
  exact ⟨k, hk, hlive⟩

theorem Is.freed (h : m.Is a S t) (hstep : S.Step t i t') {ret : MachineType} {args : List (MachineType × Operand)}
    {variadic : Option (List MachineType)} (hop : i.operation = .call "free" ret args variadic) :
    ∀ x ∈ args, ∃ p, m.pointer a x.2 = .ok p ∧ (p = .null ∨ ∃ b, p = .heap b 0 ∧ m.IsLive b) := by
  have howned : ∀ {p : Pointer}, OwnedBy m.heap m.running.id p → p = .null ∨ ∃ b, p = .heap b 0 ∧ m.IsLive b := by
    rintro p (rfl | ⟨b, rfl, hb⟩)
    · exact .inl rfl
    · exact .inr ⟨b, rfl, isLive_of_owns hb⟩
  cases hstep with
  | freeOwned hknown hr =>
    cases hop
    obtain ⟨p, hp, hown⟩ := h.owned_value hr
    simpa [pointer_register hp] using howned hown
  | freeView hknown hmem hheap hready hr =>
    cases hop
    obtain ⟨p, hp, -, hown⟩ := h.view_value hr
    simpa [pointer_register hp] using howned hown
  | external hcalls hmem hother =>
    cases hop
    exact absurd (by simp) hother
  | function hcalls huser =>
    cases hop
    exact absurd (by decide) huser
  | malloc | exit => simp at hop
  | alloca | storeNumber | storeNull | storeOwned | loadNumber | loadPointer | element | loadCell | storeCell | arith
  | compare | cast => cases hop

theorem ne_null_of_callLibrary {name : String} {ret : MachineType} {vs : List Value} {y : Machine × Value}
    (h : m.callLibrary a w name ret vs = .ok y) {p : Pointer} (hp : .ptr p ∈ vs) : p ≠ .null := by
  rintro rfl
  unfold callLibrary at h
  split at h
  · cases h
  · obtain ⟨args, hargs, -⟩ := exists_of_bind_ok h
    obtain ⟨x, -, hx⟩ := exists_of_mapM_ok hargs _ hp
    cases hx

theorem Is.passed (h : m.Is a S t) (hl : ∀ v ∈ i.operation.operands, a.Links v)
    (hcallee : ∀ name sig, S.signature name = some sig → name ∈ External.names →
      ∃ f, a.routine? name = some f ∧ f.isExternal = true)
    (hstep : S.Step t i t') (hgoes : m.perform a w i = .ok m') {callee : String} {ret : MachineType}
    {args : List (MachineType × Operand)} {variadic : Option (List MachineType)}
    (hop : i.operation = .call callee ret args variadic) (hname : callee ∈ External.names) (hfree : callee ≠ "free") :
    ∀ x ∈ args, x.1 = .ptr → ∃ p, m.pointer a x.2 = .ok p ∧
      ((∃ g, p = .global g ∧ g ∈ a.globals.map Global.name) ∨ ∃ b, p = .heap b 0 ∧ m.IsLive b) := by
  cases hstep with
  | freeOwned | freeView =>
    cases hop
    exact absurd rfl hfree
  | malloc | exit =>
    cases hop
    simp
  | function hcalls huser =>
    cases hop
    exact absurd hname huser
  | external hcalls hmem hother hwrites hreadable =>
    cases hop
    intro x hx hptr
    obtain ⟨f, hf, hext⟩ := hcallee _ _ hcalls.known hname
    obtain ⟨hmalloc, hfree, hexit⟩ : callee ≠ "malloc" ∧ callee ≠ "free" ∧ callee ≠ "exit" := by simpa using hother
    have hgoes : m.call a w _ callee _ args = .ok m' := hgoes
    rw [call_external hf hext] at hgoes
    obtain ⟨vs, hvs, hgoes⟩ := exists_of_bind_ok hgoes
    unfold callExternal at hgoes
    rw [if_neg hmalloc, if_neg hfree, if_neg hexit] at hgoes
    obtain ⟨y, hlibrary, -⟩ := exists_of_bind_ok hgoes
    obtain ⟨v, hv, heval⟩ := exists_of_mapM_ok hvs x hx
    rw [hptr] at heval
    obtain ⟨p, rfl, hlent⟩ := h.lent_of_readable (hreadable x hx hptr) (hl x.2 (List.mem_map_of_mem hx)) heval
    refine ⟨p, by simp [pointer, heval]; rfl, ?_⟩
    rcases hlent with rfl | hg | ⟨b, owner, rfl, hb, -⟩
    · exact absurd rfl (ne_null_of_callLibrary hlibrary hv)
    · exact .inl hg
    · exact .inr ⟨b, rfl, isLive_of_owns hb⟩
  | alloca | storeNumber | storeNull | storeOwned | loadNumber | loadPointer | element | loadCell | storeCell | arith
  | compare | cast => cases hop

theorem Is.element_live (h : m.Is a S t) {r s : Register} (hr : t.content r = some (.cell s))
    (hcell : ∀ p, m.pointer a (.register r) = .ok p → p ≠ .null) : ∃ p, m.pointer a (.register r) = .ok p ∧
      ((∃ s, p = .slot m.running.id s) ∨ ∃ b offset, p = .heap b offset ∧ m.IsLive b) := by
  obtain ⟨p, n, hp, hown⟩ := h.cell_value hr
  refine ⟨_, pointer_register hp, .inr ?_⟩
  rcases hown with rfl | ⟨b, rfl, hb⟩
  · exact absurd rfl (hcell _ (pointer_register hp))
  · exact ⟨b, _, rfl, isLive_of_owns hb⟩

theorem Is.accessed (h : m.Is a S t) (hl : ∀ v ∈ i.operation.operands, a.Links v) (hstep : S.Step t i t')
    (hgoes : m.perform a w i = .ok m') {v : Operand} (hop : i.operation.address? = some v) :
    ∃ p, m.pointer a v = .ok p ∧
      ((∃ s, p = .slot m.running.id s) ∨ ∃ b offset, p = .heap b offset ∧ m.IsLive b) := by
  have hslot : ∀ {slot : Slot}, slot ∈ S.frame → t.status slot.register ≠ .absent →
      ∃ p, m.pointer a (.register slot.register) = .ok p ∧
        ((∃ s, p = .slot m.running.id s) ∨ ∃ b offset, p = .heap b offset ∧ m.IsLive b) :=
    fun hmem hpresent => ⟨_, pointer_register (h.address _ hmem hpresent), .inl ⟨_, rfl⟩⟩
  cases hstep with
  | storeNumber hmem hkind hpresent =>
    cases hop
    exact hslot hmem hpresent
  | storeNull hmem hheap hstale =>
    cases hop
    exact hslot hmem (by rw [hstale]; simp)
  | storeOwned hmem hheap howned hvacant =>
    cases hop
    exact hslot hmem (by rcases hvacant with hs | ⟨hs, -⟩ <;> rw [hs] <;> simp)
  | loadNumber hmem hkind hready =>
    cases hop
    exact hslot hmem (by rw [hready]; simp)
  | loadPointer hmem hheap hready =>
    cases hop
    exact hslot hmem (by rw [hready]; simp)
  | loadCell hcell =>
    cases hop
    refine h.element_live hcell ?_
    rintro p hp rfl
    simp only [perform, hp] at hgoes
    cases hgoes
  | storeCell hcell hvalue =>
    cases hop
    refine h.element_live hcell ?_
    rintro p hp rfl
    obtain ⟨n, hn, -⟩ := h.number_ok hvalue (hl _ (by simp [Operation.operands]))
    simp only [perform, hn, hp] at hgoes
    cases hgoes
  | alloca | element | arith | compare | cast | malloc | freeOwned | freeView | exit | external | function => cases hop

end Machine

def Answer.quiet : Answer := ⟨0, [], fun _ => 0⟩

/-! ## Lowered programs -/

/-- **A step that is made uses what is live.** -/
theorem Scene.Sound.usesLive {X : Scene} (hX : X.Runnable) {m m' : Machine} {w : Answer} (h : X.Sound m) {i : Instr}
    {is : List Instr} (hrest : m.running.rest = i :: is) (hgoes : m.step X.assembly w = .ok m') :
    m.UsesLive X.assembly i.operation := by
  obtain ⟨P, t, hstands, hahead⟩ := h.running
  rw [hrest] at hahead
  obtain ⟨t', hstep, -⟩ := hahead.next
  have his : m.Is X.assembly (X.setting P m.running) t := hstands.agrees
  have hl := hstands.links hX hrest
  unfold Machine.step at hgoes
  rw [hrest] at hgoes
  refine ⟨fun ret args variadic hop => his.freed hstep hop, fun callee ret args variadic hop hname hfree => ?_,
    fun v hop => his.accessed hl hstep hgoes hop⟩
  refine his.passed hl (fun name sig hs hn => ?_) hstep hgoes hop hname hfree
  obtain ⟨f, -, hf, -, hext⟩ := hX.callee name sig hs
  exact ⟨f, hf, hext.2 hn⟩

theorem Program.runnable_of_lower {p : Program} {sigs : Signatures} {options : LowerOptions} {a : Assembly}
    (h : p.lower sigs options = .ok a) : ∃ signature, Scene.Runnable ⟨p, sigs, a, signature⟩ := by
  obtain ⟨es, fs, main, signature, ha⟩ := assembled_of_lower h
  exact ⟨signature, ha.runnable (linked_of_lower h)⟩

namespace Program

/-- **Lowered programs are memory safe.**  However long a run is and whatever the world outside answers, it stops by a fault
only where a text is read through null or an array is used outside its bounds.  And in every step that is made, what is
freed is null or a live block, and what is used is a constant or a live block. -/
theorem lower_memory_safe {p : Program} {sigs : Signatures} {options : LowerOptions} {a : Assembly}
    (h : p.lower sigs options = .ok a) (ws : List Answer) :
    (∀ f, a.run ws = .error (.fault f) → f = .nullText ∨ f = .outOfBounds) ∧
      ∀ m, a.run ws = .ok m → ∀ i is, m.running.rest = i :: is → ∀ w m', m.step a w = .ok m' →
        m.UsesLive a i.operation := by
  obtain ⟨signature, hX⟩ := runnable_of_lower h
  have hrun := hX.run_safe ws
  constructor
  · intro f hf
    rw [show Scene.assembly _ = a from rfl, hf] at hrun
    exact hrun
  · intro m hm i is hrest w m' hgoes
    rw [show Scene.assembly _ = a from rfl, hm] at hrun
    exact Scene.Sound.usesLive hX hrun hrest hgoes

/-- In the second round of the loop of `greeting` a text of the first round is freed. -/
theorem greeting_frees : ∃ a m i is m', greeting.lower (Signatures.infer greeting) .standard = .ok a ∧
    a.run (List.replicate 38 .quiet) = .ok m ∧ m.running.rest = i :: is ∧ m.step a .quiet = .ok m' ∧
    ∃ ret args variadic, i.operation = .call "free" ret args variadic := by
  have hany : ((greeting.lower (Signatures.infer greeting) .standard).toOption.any fun a =>
      (a.run (List.replicate 38 .quiet)).toOption.any fun m =>
        (m.step a .quiet).toOption.any fun _ => m.running.rest.head?.bind Instr.callee? == some "free") = true := by
    decide +kernel
  obtain ⟨a, ha, hany⟩ := exists_of_any hany
  obtain ⟨m, hm, hany⟩ := exists_of_any hany
  obtain ⟨m', hstep, hany⟩ := exists_of_any hany
  cases hrest : m.running.rest with
  | nil =>
    rw [hrest] at hany
    cases hany
  | cons i is =>
    refine ⟨a, m, i, is, m', ha, hm, hrest, hstep, ?_⟩
    rw [hrest] at hany
    exact Instr.operation_of_callee? (by simpa using hany)

theorem greeting_memory_safe : ∃ a m i is, greeting.lower (Signatures.infer greeting) .standard = .ok a ∧
    a.run (List.replicate 38 .quiet) = .ok m ∧ m.running.rest = i :: is ∧
    (∃ ret args variadic, i.operation = .call "free" ret args variadic) ∧ m.UsesLive a i.operation := by
  obtain ⟨a, m, i, is, m', ha, hm, hrest, hstep, hfree⟩ := greeting_frees
  exact ⟨a, m, i, is, ha, hm, hrest, hfree, (lower_memory_safe ha _).2 m hm i is hrest .quiet m' hstep⟩

end Program
end QuillLang
