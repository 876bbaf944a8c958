import QuillLang.Proofs.Sketch.Basic
/-!
# A sketch that grows

Between instructions a sketch changes in three ways: variables get slots and time goes on (`Building.extend`), a block is
promised (`Building.promise`), and the open block is closed and another is begun (`Building.begun`).  What was built stays
well behaved.
-/
namespace QuillLang

def Sketch.retimed (D : Sketch) (birth : Register → Nat) (clock retMark : Nat) (early : Bool) : Sketch :=
  { D with birth, clock, retMark, early }

def Sketch.begun (D : Sketch) (code : List Instr) (e : Terminator) (id : BlockId) (label : String)
    (pending dead : List BlockId) : Sketch :=
  { D with
    closed := D.closed ++ [⟨D.id, D.label, code, some e⟩]
    id, label, pending, dead
    mark := fun i => if i = id then D.clock else D.mark i }

theorem Sketch.ids_begun (D : Sketch) (code : List Instr) (e : Terminator) (id : BlockId) (label : String)
    (pending dead : List BlockId) : (D.begun code e id label pending dead).ids = D.ids ++ [id] := by
  simp [Sketch.begun, Sketch.ids]

theorem Sketch.ids_ne_nil (D : Sketch) : D.ids ≠ [] := by
  simp [Sketch.ids]

def Builder.terminated (b : Builder) (e : Terminator) : Builder :=
  { b with block := b.block.map fun k => { k with terminator := k.terminator.or (some e) } }

namespace Building
variable {D : Sketch} {F : Frame} {b : Builder} {t : Known}

theorem result_below (h : Building D F b t) : ∀ r ∈ b.code.filterMap Instr.result, r.index < b.nextRegister :=
  fun r hr => h.below r (by simp only [Sketch.registers, List.mem_append]; exact .inr hr)

/-! ## Slots and times -/

theorem extend (h : Building D F b t) (added : Frame) (birth : Register → Nat) (clock retMark n : Nat) (early : Bool)
    (hle : (D.setting F).Le b.nextRegister ((D.retimed birth clock retMark early).setting (F ++ added)))
    (hn : b.nextRegister ≤ n) (hregs : (added.map Slot.register).Nodup)
    (hnew : ∀ slot ∈ added, b.nextRegister ≤ slot.register.index ∧ slot.register.index < n)
    (hclock : D.clock ≤ clock) (hbirth : ∀ slot ∈ F ++ added, birth slot.register < clock) (hret : retMark ≤ clock) :
    Building (D.retimed birth clock retMark early) (F ++ added)
      { b with nextRegister := n, prologue := b.prologue ++ added.flatMap Slot.prologue } t := by
  have hmem : ∀ r, r ∈ (D.retimed birth clock retMark early).registers (F ++ added)
      { b with nextRegister := n, prologue := b.prologue ++ added.flatMap Slot.prologue } ↔
      r ∈ D.registers F b ∨ r ∈ added.map Slot.register := by
    intro r
    simp only [Sketch.registers, Sketch.retimed, Builder.code, List.map_append, List.mem_append]
    grind
  refine ⟨h.routines, h.signatures, h.core, h.routine, h.block, ?_, h.typed.mono hle h.result_below,
    fun k hk => (h.closed k hk).mono hle hn, ?_, ?_, fun r hr => h.unknown r (Nat.le_trans hn hr), h.ids, h.idsBelow,
    h.deadBegun, Nat.le_trans h.mark hclock, hbirth, hret⟩
  · show b.prologue ++ _ = _
    rw [h.prologue, List.flatMap_append]
  · have hperm : ((D.retimed birth clock retMark early).registers (F ++ added)
        { b with nextRegister := n, prologue := b.prologue ++ added.flatMap Slot.prologue }).Perm
        (D.registers F b ++ added.map Slot.register) := by
      simp only [Sketch.registers, Sketch.retimed, Builder.code, List.map_append, List.append_assoc]
      refine List.Perm.append_left _ (List.Perm.append_left _ ?_)
      rw [← List.append_assoc, ← List.append_assoc, List.append_assoc]
      exact List.perm_append_comm.trans (by simp)
    rw [hperm.nodup_iff, List.nodup_append]
    refine ⟨h.nodup, hregs, fun r hr x hx he => ?_⟩
    obtain ⟨slot, hs, rfl⟩ := List.mem_map.1 hx
    have := h.below r hr
    have := (hnew slot hs).1
    rw [he] at *
    omega
  · intro r hr
    rcases (hmem r).1 hr with hr | hr
    · exact Nat.lt_of_lt_of_le (h.below r hr) hn
    · obtain ⟨slot, hs, rfl⟩ := List.mem_map.1 hr
      exact (hnew slot hs).2

theorem retime (h : Building D F b t) {clock retMark : Nat} (hc : D.clock ≤ clock) (hr : D.retMark ≤ retMark)
    (hrc : retMark ≤ clock) : Building (D.retimed D.birth clock retMark D.early) F b t := by
  have key := h.extend [] D.birth clock retMark b.nextRegister D.early ?_ (Nat.le_refl _) (by simp) (by simp) hc ?_ hrc
  · simpa using key
  · refine ⟨fun slot hs => List.mem_append_left _ hs, fun slot hs => .inl (by simpa [Sketch.setting] using hs),
      fun _ _ h => h, rfl, fun _ _ => rfl, fun i m hi => hi.imp id (fun hp => ⟨hp.1, Nat.le_trans hp.2 hc⟩), hr, fun h => h⟩
  · intro slot hs
    exact Nat.lt_of_lt_of_le (h.births slot (by simpa using hs)) hc

/-! ## Blocks -/

theorem promise (h : Building D F b t) :
    Building { D with pending := ⟨b.nextBlock⟩ :: D.pending } F { b with nextBlock := b.nextBlock + 1 } t := by
  have hle : (D.setting F).Le b.nextRegister
      ((show Sketch from { D with pending := ⟨b.nextBlock⟩ :: D.pending }).setting F) :=
    { Setting.Le.refl b.nextRegister (D.setting F) with
      enters := fun i m hi => hi.imp id (fun hp => ⟨List.mem_cons_of_mem _ hp.1, hp.2⟩) }
  have hids : ∀ i ∈ D.ids ++ D.pending, i ≠ ⟨b.nextBlock⟩ := by
    rintro i hi rfl
    exact Nat.lt_irrefl _ (h.idsBelow _ hi)
  refine ⟨h.routines, h.signatures, h.core, h.routine, h.block, h.prologue, h.typed.mono hle h.result_below,
    fun k hk => (h.closed k hk).mono hle (Nat.le_refl _), h.nodup, h.below, h.unknown, ?_, ?_, h.deadBegun, h.mark,
    h.births, h.retMark⟩
  · show (D.ids ++ (⟨b.nextBlock⟩ :: D.pending)).Nodup
    rw [List.perm_middle.nodup_iff, List.nodup_cons]
    exact ⟨fun hi => hids _ hi rfl, h.ids⟩
  · show ∀ i ∈ D.ids ++ (⟨b.nextBlock⟩ :: D.pending), i.index < b.nextBlock + 1
    intro i hi
    rw [List.mem_append, List.mem_cons] at hi
    rcases hi with hi | rfl | hi
    · exact Nat.lt_succ_of_lt (h.idsBelow i (List.mem_append_left _ hi))
    · exact Nat.lt_succ_self _
    · exact Nat.lt_succ_of_lt (h.idsBelow i (List.mem_append_right _ hi))

theorem closeBlock_terminated (h : Building D F b t) (e : Terminator) (n : Nat) :
    Builder.closeBlock { b.terminated e with nextBlock := n } =
      { b with
        nextBlock := n
        block := none
        routine := some ⟨D.name, D.params, D.ret, D.closed ++ [⟨D.id, D.label, b.code, some e⟩], false, false⟩ } := by
  unfold Builder.closeBlock Builder.terminated
  rw [h.block, h.routine]
  rfl

/-- **The open block is closed, and another is begun**: one that was promised, or one that nothing enters. -/
theorem begun (h : Building D F b t) {e : Terminator} (he : (D.setting F).Ends b.nextRegister t e) (id : BlockId)
    (label : String) (pending dead : List BlockId) {n : Nat} (hn : b.nextBlock ≤ n)
    (hids : (D.ids ++ id :: pending).Nodup) (hbelow : ∀ i ∈ id :: pending, i.index < n)
    (hpending : ∀ i ∈ D.pending, i ∈ pending ∨ i = id ∧ id ∉ dead)
    (hdead : ∀ i, i ∈ dead ↔ i ∈ D.dead ∨ i = id ∧ id ∈ dead) :
    Building (D.begun b.code e id label pending dead) F
      { Builder.closeBlock { b.terminated e with nextBlock := n } with block := some ⟨id, label, [], none⟩ }
      (Known.atBlock D.clock (decide (id ∈ dead))) := by
  have hid : ∀ i ∈ D.ids, i ≠ id := by
    rintro i hi rfl
    exact (List.nodup_append.1 hids).2.2 i hi i (by simp) rfl
  have hnewdead : ∀ i ∈ D.ids, (i ∈ dead ↔ i ∈ D.dead) := by
    intro i hi
    rw [hdead i]
    simp [hid i hi]
  have htail : (D.ids ++ [id]).tail = D.ids.tail ++ [id] := List.tail_append_of_ne_nil D.ids_ne_nil
  have hhead : (D.ids ++ [id]).head? = D.ids.head? := by
    cases hd : D.ids with
    | nil => exact absurd hd D.ids_ne_nil
    | cons i is => rfl
  have hstart : ∀ i ∈ D.ids, (D.begun b.code e id label pending dead).startOf i = D.startOf i := by
    intro i hi
    unfold Sketch.startOf
    rw [Sketch.ids_begun, hhead]
    simp only [Sketch.begun, hid i hi, if_false, hnewdead i hi]
  have hle : (D.setting F).Le b.nextRegister ((D.begun b.code e id label pending dead).setting F) :=
    { Setting.Le.refl b.nextRegister (D.setting F) with
      enters := by
        intro i m hi
        show Sketch.Enters _ i m
        unfold Sketch.Enters
        rw [Sketch.ids_begun, htail]
        rcases hi with ⟨hi, hd, hm⟩ | ⟨hi, hm⟩
        · have hi' := List.mem_of_mem_tail hi
          refine .inl ⟨List.mem_append_left _ hi, fun h' => hd ((hnewdead i hi').1 h'), ?_⟩
          simp only [Sketch.begun, hid i hi', if_false, hm]
        · rcases hpending i hi with hi | ⟨rfl, hd⟩
          · exact .inr ⟨hi, hm⟩
          · refine .inl ⟨by simp, hd, ?_⟩
            simp only [Sketch.begun, if_true, hm] }
  have hopen : D.id ∈ D.ids := by simp [Sketch.ids]
  have hregs : (D.begun b.code e id label pending dead).registers F
      { Builder.closeBlock { b.terminated e with nextBlock := n } with block := some ⟨id, label, [], none⟩ } =
        D.registers F b := by
    show D.params.map Prod.fst ++ F.map Slot.register ++ List.flatMap _ (D.closed ++ [_]) ++ [] = _
    simp only [Sketch.registers, List.flatMap_append, List.flatMap_cons, List.flatMap_nil, List.append_nil,
      List.append_assoc]
  rw [h.closeBlock_terminated e n] at hregs ⊢
  refine ⟨h.routines, h.signatures, h.core, rfl, rfl, h.prologue, ?_, ?_, ?_, ?_, fun r _ => ⟨rfl, rfl⟩, ?_, ?_, ?_,
    Nat.le_refl _, h.births, h.retMark⟩
  · show Sketch.startOf _ id = _
    unfold Sketch.startOf
    rw [Sketch.ids_begun, hhead, if_neg]
    · simp only [Sketch.begun, if_true]
      rfl
    · intro hi
      exact hid id (List.mem_of_mem_head? hi) rfl
  · intro k hk
    rcases List.mem_append.1 hk with hk | hk
    · rw [hstart k.id (by simp only [Sketch.ids, List.mem_append, List.mem_map]; exact .inl ⟨k, hk, rfl⟩)]
      exact (h.closed k hk).mono hle (Nat.le_refl _)
    · obtain rfl := List.mem_singleton.1 hk
      rw [hstart _ hopen]
      exact ⟨t, e, rfl, h.typed.mono hle h.result_below, b.nextRegister, Nat.le_refl _, h.result_below,
        he.mono hle (Nat.le_refl _)⟩
  · rw [hregs]
    exact h.nodup
  · rw [hregs]
    exact h.below
  · rw [Sketch.ids_begun]
    show ((D.ids ++ [id]) ++ pending).Nodup
    rw [List.append_assoc]
    exact hids
  · rw [Sketch.ids_begun]
    show ∀ i ∈ (D.ids ++ [id]) ++ pending, i.index < n
    rw [List.append_assoc]
    intro i hi
    rcases List.mem_append.1 hi with hi | hi
    · exact Nat.lt_of_lt_of_le (h.idsBelow i (List.mem_append_left _ hi)) hn
    · exact hbelow i hi
  · rw [Sketch.ids_begun]
    intro i hi
    rcases (hdead i).1 hi with hi | ⟨rfl, -⟩
    · exact List.mem_append_left _ (h.deadBegun i hi)
    · simp

end Building
end QuillLang
