import QuillLang.Proofs.Filled.Sure
/-!
# Reads in a block

As long as a block is open, what may be handed on from it are the operands in hand: no register among them was loaded from a
slot that may be empty (`Builder.Solid`).  A slot whose buffer is only freed, and an array that is only indexed, are loaded
to registers that are not in hand afterwards, and so they need not be filled.
-/
namespace QuillLang

namespace Builder

/-- The block is open, and reads what is filled when the slots `S` are filled at its head. -/
structure Reads (S : Register → Prop) (b : Builder) : Prop where
  block : ∃ k, b.block = some k ∧ k.terminator = none
  below : ∀ i ∈ b.code, ∀ r, i.result = some r → r.index < b.nextRegister
  reads : ∀ before r s is, b.code = before ++ ⟨some r, .load .ptr (.register s)⟩ :: is →
    (∃ i ∈ is, i.handsOn r = true) → FilledBy S before s

/-- The operand may be handed on: it was not loaded from a slot that may be empty. -/
def Solid (S : Register → Prop) (b : Builder) (v : Operand) : Prop :=
  ∀ r, v = .register r → r.index < b.nextRegister ∧
    ∀ before s is, b.code = before ++ ⟨some r, .load .ptr (.register s)⟩ :: is → FilledBy S before s

/-- Code with new registers was added to the open block, and maybe slots to the head of the routine. -/
structure Grows (b b' : Builder) : Prop where
  routines : b'.assembly.routines = b.assembly.routines
  routine : b'.routine = b.routine
  prologue : ∀ i ∈ b'.prologue, i ∈ b.prologue ∨ ∀ ty address, i.operation ≠ .load ty address
  nextBlock : b'.nextBlock = b.nextBlock
  registers : b.nextRegister ≤ b'.nextRegister
  block : b'.block = b.block.map fun k => { k with instrs := b'.code }
  code : ∃ is, b'.code = b.code ++ is ∧ ∀ i ∈ is, ∀ r, i.result = some r → b.nextRegister ≤ r.index

variable {S : Register → Prop} {b b' b'' : Builder} {v : Operand} {s : Register}

theorem block_code (b : Builder) : b.block = b.block.map fun k => { k with instrs := b.code } := by
  unfold code
  cases b.block <;> rfl

theorem Grows.refl (b : Builder) : b.Grows b :=
  ⟨rfl, rfl, fun _ => .inl, rfl, Nat.le_refl _, b.block_code, [], by simp, by simp⟩

theorem Grows.trans (h : b.Grows b') (h' : b'.Grows b'') : b.Grows b'' := by
  refine ⟨h'.routines.trans h.routines, h'.routine.trans h.routine, fun i hi => ?_, h'.nextBlock.trans h.nextBlock,
    Nat.le_trans h.registers h'.registers, ?_, ?_⟩
  · exact (h'.prologue i hi).elim (h.prologue i) .inr
  · rw [h'.block, h.block, Option.map_map]
    rfl
  · obtain ⟨is, hcode, his⟩ := h.code
    obtain ⟨js, hcode', hjs⟩ := h'.code
    refine ⟨is ++ js, by rw [hcode', hcode, List.append_assoc], List.forall_mem_append.2 ⟨his, fun i hi r hr => ?_⟩⟩
    exact Nat.le_trans h.registers (hjs i hi r hr)

theorem Grows.filledBy (h : b.Grows b') (hs : FilledBy S b.code s) : FilledBy S b'.code s := by
  obtain ⟨is, hcode, -⟩ := h.code
  rw [hcode]
  exact hs.mono (fun _ h => h) fun i hi => List.mem_append_left is hi

theorem Solid.grows (h : b.Solid S v) (hb : b.Grows b') : b'.Solid S v := by
  intro r hr
  obtain ⟨hlt, hloads⟩ := h r hr
  refine ⟨Nat.lt_of_lt_of_le hlt hb.registers, fun before s is hsplit => ?_⟩
  obtain ⟨more, hcode, hnew⟩ := hb.code
  -- a new instruction does not write an old register
  have hold : ⟨some r, .load .ptr (.register s)⟩ ∉ more := fun hmem => Nat.not_le.2 hlt (hnew _ hmem r rfl)
  rw [hcode] at hsplit
  rcases List.append_eq_append_iff.1 hsplit with ⟨xs, -, rfl⟩ | ⟨xs, hb, hxs⟩
  · exact absurd (by simp) hold
  · cases xs with
    | nil => exact absurd (by rw [← List.nil_append more, ← hxs]; exact List.mem_cons_self) hold
    | cons x xs =>
      cases hxs
      exact hloads before s xs hb

theorem solid_of_ne_register (h : ∀ r, v ≠ .register r) : b.Solid S v := fun r hr => absurd hr (h r)

theorem Grows.written {i : Instr} (hb : b.block ≠ none) (hi : i.result = none ∨ i.result = some ⟨b.nextRegister⟩) :
    b.Grows (b.written i) ∧ (b.written i).code = b.code ++ [i] := by
  obtain ⟨k, hk⟩ := Option.ne_none_iff_exists'.1 hb
  have hcode : (b.written i).code = b.code ++ [i] := by simp only [Builder.code, Builder.written, hk, Option.map_some]
  refine ⟨⟨rfl, rfl, fun _ => .inl, rfl, ?_, ?_, [i], hcode, ?_⟩, hcode⟩
  · simp only [Builder.written]
    split <;> omega
  · rw [hcode]
    simp only [Builder.code, Builder.written, hk, Option.map_some]
  · intro j hj r hr
    rw [List.mem_singleton.1 hj] at hr
    rcases hi with hi | hi
    · rw [hi] at hr
      cases hr
    · rw [hi] at hr
      cases hr
      exact Nat.le_refl _

/-- **An instruction that hands on what is in hand may be written.** -/
theorem Reads.written (h : b.Reads S) {i : Instr} (hi : i.result = none ∨ i.result = some ⟨b.nextRegister⟩)
    (hhands : ∀ r, i.handsOn r = true → b.Solid S (.register r)) : (b.written i).Reads S := by
  obtain ⟨k, hk, hopen⟩ := h.block
  obtain ⟨hgrows, hcode⟩ := Grows.written (by simp [hk]) hi
  refine ⟨⟨{ k with instrs := k.instrs ++ [i] }, by simp [Builder.written, hk], hopen⟩, fun j hj r hr => ?_, ?_⟩
  · rw [hcode] at hj
    rcases List.mem_append.1 hj with hj | hj
    · exact Nat.lt_of_lt_of_le (h.below j hj r hr) hgrows.registers
    · rw [List.mem_singleton.1 hj] at hr
      rcases hi with hi | hi
      · rw [hi] at hr
        cases hr
      · rw [hi] at hr
        cases hr
        simp [Builder.written, hi]
  · rintro before r s is hsplit ⟨j, hj, hhand⟩
    rw [hcode] at hsplit
    -- the last of the code is the new instruction
    rcases List.eq_nil_or_concat is with rfl | ⟨is, last, rfl⟩
    · cases hj
    · rw [List.concat_eq_append, ← List.cons_append, ← List.append_assoc] at hsplit
      obtain ⟨hbefore, hlast⟩ := List.append_inj' hsplit rfl
      cases hlast
      rw [List.concat_eq_append] at hj
      rcases List.mem_append.1 hj with hj | hj
      · exact h.reads before r s is hbefore ⟨j, hj, hhand⟩
      · rw [List.mem_singleton.1 hj] at hhand
        exact (hhands r hhand r rfl).2 before s is hbefore

theorem Reads.aside (h : b.Reads S) (hroutines : b'.assembly.routines = b.assembly.routines)
    (hroutine : b'.routine = b.routine)
    (hprologue : ∀ i ∈ b'.prologue, i ∈ b.prologue ∨ ∀ ty address, i.operation ≠ .load ty address)
    (hnext : b'.nextBlock = b.nextBlock) (hregisters : b.nextRegister ≤ b'.nextRegister) (hblock : b'.block = b.block) :
    b'.Reads S ∧ b.Grows b' := by
  have hcode : b'.code = b.code := by
    unfold Builder.code
    rw [hblock]
  refine ⟨⟨hblock ▸ h.block, fun i hi r hr => ?_, hcode ▸ h.reads⟩, ⟨hroutines, hroutine, hprologue, hnext, hregisters, ?_,
    [], by simp [hcode], by simp⟩⟩
  · exact Nat.lt_of_lt_of_le (h.below i (hcode ▸ hi) r hr) hregisters
  · rw [hblock, hcode]
    exact b.block_code

end Builder

/-- A step that only adds to the open block, hands on what is in hand, and has a result as `Q` says. -/
def Build.Covers {α : Type} (S : Register → Prop) (x : Build Nat α) (b : Builder) (Q : α → Builder → Prop) : Prop :=
  Build.Ensures x b fun v b' => b'.Reads S ∧ b.Grows b' ∧ Q v b'

namespace Build.Covers
variable {α β : Type} {S : Register → Prop} {x : Build Nat α} {f : α → Build Nat β} {b : Builder} {P Q : α → Builder → Prop}
  {R : β → Builder → Prop}

theorem bind (hx : Covers S x b P) (hf : ∀ v b', b'.Reads S → b.Grows b' → P v b' → Covers S (f v) b' R) :
    Covers S (x >>= f) b R := by
  obtain ⟨hreads, hgrows, hv⟩ := hx
  obtain ⟨hreads', hgrows', hw⟩ := hf _ _ hreads hgrows hv
  exact ⟨hreads', hgrows.trans hgrows', hw⟩

theorem pure (hb : b.Reads S) {v : α} (h : Q v b) : Covers S (Pure.pure v) b Q := ⟨hb, .refl b, h⟩

theorem mono (h : Covers S x b P) (hQ : ∀ v b', P v b' → Q v b') : Covers S x b Q := ⟨h.1, h.2.1, hQ _ _ h.2.2⟩

end Build.Covers

namespace Builder
variable {S : Register → Prop} {b : Builder} {v w : Operand} {s : Register} {ty : MachineType} {op : Operation}

open Build

theorem covers_emit (hb : b.Reads S) (hhands : ∀ r, Instr.handsOn ⟨none, op⟩ r = true → b.Solid S (.register r)) :
    Covers S (emit none op) b fun _ b' => b'.code = b.code ++ [⟨none, op⟩] := by
  obtain ⟨k, hk, -⟩ := hb.block
  have hgrows := Grows.written (b := b) (i := ⟨none, op⟩) (by simp [hk]) (.inl rfl)
  exact ⟨hb.written (.inl rfl) hhands, hgrows.1, hgrows.2⟩

/-- The result of an instruction is in hand, unless it is loaded from a slot that may be empty. -/
theorem covers_emitResult (hb : b.Reads S)
    (hhands : ∀ r, Instr.handsOn ⟨some ⟨b.nextRegister⟩, op⟩ r = true → b.Solid S (.register r)) :
    Covers S (emitResult op) b fun v b' => (∀ s, op = .load .ptr (.register s) → FilledBy S b.code s) → b'.Solid S v := by
  obtain ⟨k, hk, -⟩ := hb.block
  obtain ⟨hgrows, hcode⟩ := Grows.written (b := b) (i := ⟨some ⟨b.nextRegister⟩, op⟩) (by simp [hk]) (.inr rfl)
  refine ⟨hb.written (.inr rfl) hhands, hgrows, fun hload r hr => ?_⟩
  obtain rfl : (⟨b.nextRegister⟩ : Register) = r := Operand.register.inj hr
  refine ⟨Nat.lt_succ_self _, fun before s is hsplit => ?_⟩
  have hsplit := hcode.symm.trans hsplit
  rcases List.eq_nil_or_concat is with rfl | ⟨is, last, rfl⟩
  · obtain ⟨hbefore, hlast⟩ := List.append_inj' hsplit rfl
    cases hlast
    exact hbefore ▸ hload s rfl
  · -- an older instruction does not write the new register
    rw [List.concat_eq_append, ← List.cons_append, ← List.append_assoc] at hsplit
    obtain ⟨hbefore, -⟩ := List.append_inj' hsplit rfl
    have hmem : ⟨some ⟨b.nextRegister⟩, .load .ptr (.register s)⟩ ∈ b.code := by
      rw [hbefore]
      simp
    exact absurd (hb.below _ hmem _ rfl) (Nat.lt_irrefl _)

theorem covers_callVariadic (hb : b.Reads S) {callee : String} {fixed : List Operand} {extra : List (MachineType × Operand)}
    (h : callee ≠ "free" → (∀ v ∈ fixed, b.Solid S v) ∧ ∀ x ∈ extra, b.Solid S x.2) :
    Covers S (callVariadic callee fixed extra) b fun v b' => b'.Solid S v := by
  have hhands : ∀ {result : Option Register} {ret : MachineType} {tys : List MachineType}
      {variadic : Option (List MachineType)} (r : Register),
      Instr.handsOn ⟨result, .call callee ret (typeArgs tys fixed ++ extra) variadic⟩ r = true →
        b.Solid S (.register r) := by
    intro result ret tys variadic r hr
    simp only [Instr.handsOn, Bool.and_eq_true, decide_eq_true_eq] at hr
    obtain ⟨hfixed, hextra⟩ := h hr.1
    rcases List.mem_append.1 hr.2 with hx | hx
    · exact hfixed _ (mem_typeArgs hx)
    · exact hextra _ hx
  refine Covers.bind (P := fun c b' => c = b ∧ b' = b) ⟨hb, .refl b, rfl, rfl⟩ ?_
  rintro _ _ - - ⟨rfl, rfl⟩
  dsimp only
  split
  · exact (covers_emit hb hhands).bind fun _ _ hb' _ _ => .pure hb' (solid_of_ne_register (by simp))
  · exact (covers_emitResult hb hhands).mono fun _ _ hv => hv fun s hs => by cases hs

theorem covers_stringConstant (hb : b.Reads S) (content : String) :
    Covers S (stringConstant content) b fun _ _ => True := by
  unfold Covers Ensures stringConstant
  simp only [Build.run_modifyGet]
  split
  · exact ⟨hb, .refl b, trivial⟩
  · exact and_assoc.1 ⟨hb.aside rfl rfl (fun _ => .inl) rfl (Nat.le_refl _) rfl, trivial⟩

theorem covers_alloca (hb : b.Reads S) (ty : MachineType) : Covers S (alloca ty) b fun _ _ => True := by
  refine and_assoc.1 ⟨hb.aside rfl rfl (fun i hi => ?_) rfl (Nat.le_succ _) rfl, trivial⟩
  refine (List.mem_append.1 hi).imp id fun hi => ?_
  rw [List.mem_singleton.1 hi]
  simp

theorem covers_initSlot (hb : b.Reads S) (ty : MachineType) (v : Operand) (slot : Register) :
    Covers S (initSlot ty v slot) b fun _ _ => True := by
  refine and_assoc.1 ⟨hb.aside rfl rfl (fun i hi => ?_) rfl (Nat.le_refl _) rfl, trivial⟩
  refine (List.mem_append.1 hi).imp id fun hi => ?_
  rw [List.mem_singleton.1 hi]
  simp

end Builder
end QuillLang
