import QuillLang.Proofs.Filled.Reads
/-!
# Sure routines in the making

A routine is sure when it says of each block which slots are filled at its head.  While it is built, this is said of the
blocks that were numbered; a block to come takes what is filled where it is numbered (`Heads.extend`).  So a branch leads
to a block with what the block asks for as long as no slot is emptied in between, whatever else was built by then.
-/
namespace QuillLang

structure Block.Below (n : Nat) (k : Block) : Prop where
  id : k.id.index < n
  successors : ∀ e, k.terminator = some e → ∀ target ∈ e.successors, target.index < n

namespace Block
variable {sure sure' : BlockId → Register → Prop} {k : Block} {n n' : Nat} {r : Register}

theorem Below.mono (h : k.Below n) (hn : n ≤ n') : k.Below n' :=
  ⟨Nat.lt_of_lt_of_le h.id hn, fun e he target ht => Nat.lt_of_lt_of_le (h.successors e he target ht) hn⟩

theorem Sure.congr (h : k.Sure sure) (hk : k.Below n) (hsame : ∀ i, i.index < n → sure' i = sure i) : k.Sure sure' := by
  refine ⟨fun before r s is hsplit hhands => ?_, fun e he target ht s hs => ?_⟩
  · rw [hsame _ hk.id]
    exact h.reads before r s is hsplit hhands
  · rw [hsame _ (hk.successors e he target ht)] at hs
    rw [hsame _ hk.id]
    exact h.leads e he target ht s hs

theorem handsOn_cases : ∀ {is : List Instr}, k.handsOn r is = true →
    (∃ i ∈ is, i.handsOn r = true) ∨ k.terminator = some (.ret (some (.ptr, .register r)))
  | [], h => .inr (by simpa [handsOn] using h)
  | i :: is, h => by
    simp only [handsOn, Bool.or_eq_true, Bool.and_eq_true] at h
    rcases h with h | ⟨-, h⟩
    · exact .inl ⟨i, List.mem_cons_self, h⟩
    · refine (handsOn_cases h).imp_left ?_
      rintro ⟨j, hj, hhands⟩
      exact ⟨j, List.mem_cons_of_mem i hj, hhands⟩

theorem handsOn_with (is : List Instr) : ∀ rest, ({ k with instrs := is } : Block).handsOn r rest = k.handsOn r rest
  | [] => rfl
  | i :: rest => by simp only [handsOn, handsOn_with is rest]

theorem Sure.prepend {is : List Instr} (h : k.Sure sure) (his : ∀ i ∈ is, ∀ ty address, i.operation ≠ .load ty address) :
    ({ k with instrs := is ++ k.instrs } : Block).Sure sure := by
  refine ⟨fun before r s rest hsplit hhands => ?_, fun e he target ht s hs => ?_⟩
  · rw [handsOn_with] at hhands
    rcases List.append_eq_append_iff.1 hsplit with ⟨xs, rfl, hcode⟩ | ⟨xs, rfl, hcode⟩
    · exact (h.reads xs r s rest hcode hhands).mono (fun _ hs => hs) fun i hi => List.mem_append_right is hi
    · cases xs with
      | nil =>
        refine (h.reads [] r s rest ?_ hhands).mono (fun _ hs => hs) (by simp)
        simpa using hcode.symm
      | cons x xs =>
        cases hcode
        exact absurd rfl (his ⟨some r, .load .ptr (.register s)⟩ (by simp) .ptr (.register s))
  · exact (h.leads e he target ht s hs).mono (fun _ hs => hs) fun i hi => List.mem_append_right is hi

end Block

/-- The slots that are filled at the heads of blocks, and the block at hand. -/
structure Heads where
  sure : BlockId → Register → Prop
  id : BlockId

namespace Heads

def Filled (H : Heads) (b : Builder) (s : Register) : Prop := FilledBy (H.sure H.id) b.code s

/-- At the heads of blocks to come those slots are filled that are now. -/
def extend (H : Heads) (b : Builder) : Heads :=
  { H with sure := fun i => if i.index < b.nextBlock then H.sure i else H.Filled b }

variable {H : Heads} {b : Builder} {i : BlockId}

theorem extend_old (h : i.index < b.nextBlock) : (H.extend b).sure i = H.sure i := if_pos h

theorem extend_new (h : b.nextBlock ≤ i.index) : (H.extend b).sure i = H.Filled b := if_neg (Nat.not_lt.2 h)

end Heads

namespace Builder

structure Holds (H : Heads) (b : Builder) : Prop where
  routines : ∀ r ∈ b.assembly.routines, ∃ sure, r.Sure sure
  prologue : ∀ i ∈ b.prologue, ∀ ty address, i.operation ≠ .load ty address
  routine : ∃ r, b.routine = some r ∧ (∀ k ∈ r.blocks, k.Sure H.sure ∧ k.Below b.nextBlock) ∧
    ∀ i ∈ (r.blocks.map Block.id ++ [H.id]).head?, ∀ s, ¬ H.sure i s
  block : ∃ k, b.block = some k ∧ k.id = H.id
  below : H.id.index < b.nextBlock

structure Sure (H : Heads) (b : Builder) : Prop extends b.Holds H where
  reads : b.Reads (H.sure H.id)

structure Ended (H : Heads) (b : Builder) : Prop extends b.Holds H where
  ended : ∀ k, b.block = some k → k.Sure H.sure ∧ k.Below b.nextBlock

structure Rests (b : Builder) : Prop where
  routine : b.routine = none
  block : b.block = none
  routines : ∀ r ∈ b.assembly.routines, ∃ sure, r.Sure sure

variable {H : Heads} {b b' : Builder}

theorem Holds.grows (h : b.Holds H) (hb : b.Grows b') : b'.Holds H := by
  obtain ⟨k, hk, hid⟩ := h.block
  refine ⟨hb.routines ▸ h.routines, fun i hi => ?_, ?_, ⟨{ k with instrs := b'.code }, by rw [hb.block, hk]; rfl, hid⟩, ?_⟩
  · rcases hb.prologue i hi with hi | hi
    · exact h.prologue i hi
    · exact hi
  · rw [hb.routine, hb.nextBlock]
    exact h.routine
  · rw [hb.nextBlock]
    exact h.below

theorem Sure.grows (h : b.Sure H) (hb : b.Grows b') (hreads : b'.Reads (H.sure H.id)) : b'.Sure H :=
  ⟨h.toHolds.grows hb, hreads⟩

theorem Sure.extend (h : b.Sure H) : b.Sure (H.extend b) := by
  have hid : (H.extend b).sure (H.extend b).id = H.sure H.id := Heads.extend_old h.below
  obtain ⟨r, hr, hclosed, hentry⟩ := h.routine
  refine ⟨⟨h.routines, h.prologue, ⟨r, hr, fun k hk => ?_, fun i hi => ?_⟩, h.block, h.below⟩, hid ▸ h.reads⟩
  · exact ⟨(hclosed k hk).1.congr (hclosed k hk).2 fun i hi => Heads.extend_old hi, (hclosed k hk).2⟩
  · -- the first block was numbered, so nothing new is said of it
    have hbelow : i.index < b.nextBlock := by
      rcases List.mem_append.1 (List.mem_of_mem_head? hi) with hmem | hmem
      · obtain ⟨k, hk, rfl⟩ := List.mem_map.1 hmem
        exact (hclosed k hk).2.id
      · rw [List.mem_singleton.1 hmem]
        exact h.below
    rw [Heads.extend_old hbelow]
    exact hentry i hi

theorem Sure.filled_extend (h : b.Sure H) {s : Register} (hs : H.Filled b s) : (H.extend b).Filled b s := by
  unfold Heads.Filled
  rw [show (H.extend b).sure (H.extend b).id = H.sure H.id from Heads.extend_old h.below]
  exact hs

/-! ## Blocks -/

open Build

theorem Holds.numbered (h : b.Holds H) {n : Nat} (hn : b.nextBlock ≤ n) : ({ b with nextBlock := n } : Builder).Holds H := by
  obtain ⟨r, hr, hclosed, hentry⟩ := h.routine
  refine ⟨h.routines, h.prologue, ⟨r, hr, fun k hk => ?_, hentry⟩, h.block, Nat.lt_of_lt_of_le h.below hn⟩
  exact ⟨(hclosed k hk).1, (hclosed k hk).2.mono hn⟩

theorem Sure.numbered (h : b.Sure H) {n : Nat} (hn : b.nextBlock ≤ n) : ({ b with nextBlock := n } : Builder).Sure H :=
  ⟨h.toHolds.numbered hn, ⟨h.reads.block, h.reads.below, h.reads.reads⟩⟩

theorem Ended.numbered (h : b.Ended H) {n : Nat} (hn : b.nextBlock ≤ n) : ({ b with nextBlock := n } : Builder).Ended H :=
  ⟨h.toHolds.numbered hn, fun k hk => ⟨(h.ended k hk).1, (h.ended k hk).2.mono hn⟩⟩

/-- **A block may be left for blocks that ask for no more than is filled.** -/
theorem Sure.terminate (h : b.Sure H) {t : Terminator}
    (hleads : ∀ target ∈ t.successors, target.index < b.nextBlock ∧ ∀ s, H.sure target s → H.Filled b s)
    (hret : ∀ v, t = .ret (some (.ptr, v)) → b.Solid (H.sure H.id) v) :
    Ensures (terminate t) b fun _ b' => b'.Ended H ∧ b'.code = b.code ∧ b'.nextBlock = b.nextBlock := by
  obtain ⟨k, hk, hopen⟩ := h.reads.block
  have hid : k.id = H.id := by
    obtain ⟨k', hk', hid⟩ := h.block
    exact Option.some.inj (hk.symm.trans hk') ▸ hid
  have hcode : b.code = k.instrs := by simp only [Builder.code, hk]
  have hended : ({ k with terminator := some t } : Block).Sure H.sure := by
    refine ⟨fun before r s is hsplit hhands => ?_, fun e he target ht s hs => ?_⟩
    · show FilledBy (H.sure k.id) before s
      rw [hid]
      rw [← hcode] at hsplit
      rcases Block.handsOn_cases hhands with hhands | hterm
      · exact h.reads.reads before r s is hsplit hhands
      · exact (hret (.register r) (Option.some.inj hterm) r rfl).2 before s is hsplit
    · show FilledBy (H.sure k.id) k.instrs s
      cases he
      rw [hid, ← hcode]
      exact (hleads target ht).2 s hs
  have hbelow : ({ k with terminator := some t } : Block).Below b.nextBlock := by
    refine ⟨hid ▸ h.below, fun e he target ht => ?_⟩
    cases he
    exact (hleads target ht).1
  have hb' : ((Builder.terminate t).run b).2 = { b with block := some { k with terminator := some t } } := by
    show ({ b with block := b.block.map _ } : Builder) = _
    rw [hk, Option.map_some, hopen, Option.none_or]
  unfold Ensures
  rw [hb']
  refine ⟨⟨⟨h.routines, h.prologue, h.routine, ⟨_, rfl, hid⟩, h.below⟩, fun k' hk' => ?_⟩, hcode.symm, rfl⟩
  cases hk'
  exact ⟨hended, hbelow⟩

theorem Ended.closeBlock (h : b.Ended H) : ∃ r, b.closeBlock = { b with block := none, routine := some r } ∧
    r.blocks ≠ [] ∧ (∀ k ∈ r.blocks, k.Sure H.sure ∧ k.Below b.nextBlock) ∧
      ∀ i ∈ (r.blocks.map Block.id).head?, ∀ s, ¬ H.sure i s := by
  obtain ⟨r, hr, hclosed, hentry⟩ := h.routine
  obtain ⟨k, hk, hid⟩ := h.block
  refine ⟨{ r with blocks := r.blocks ++ [k] }, ?_, by simp, ?_, ?_⟩
  · simp only [Builder.closeBlock, hk, hr, Option.map_some]
  · exact List.forall_mem_append.2 ⟨hclosed, by simpa using h.ended k hk⟩
  · simpa [hid] using hentry

theorem Ended.startBlock (h : b.Ended H) {id : BlockId} (hid : id.index < b.nextBlock) (label : String) :
    Ensures (startBlock id label) b fun _ b' =>
      b'.Sure { H with id := id } ∧ b'.nextBlock = b.nextBlock := by
  obtain ⟨r, hclose, hne, hclosed, hentry⟩ := h.closeBlock
  show Builder.Sure _ { b.closeBlock with block := some ⟨id, label, [], none⟩ } ∧ b.closeBlock.nextBlock = b.nextBlock
  rw [hclose]
  refine ⟨⟨⟨h.routines, h.prologue, ⟨r, rfl, hclosed, fun i hi => ?_⟩, ⟨_, rfl, rfl⟩, hid⟩, ⟨⟨_, rfl, rfl⟩, ?_, ?_⟩⟩, rfl⟩
  · rw [List.head?_append_of_ne_nil _ (by simpa using hne)] at hi
    exact hentry i hi
  · intro i hi
    cases hi
  · intro before x s is hsplit
    cases before <;> cases hsplit

/-! ## Routines -/

theorem Rests.startRoutine (h : b.Rests) (name : String) (params : List MachineType) (ret : MachineType) :
    Ensures (startRoutine name params ret) b fun regs b' => ∃ H, b'.Sure H ∧
      ∀ r ∈ regs, b'.Solid (H.sure H.id) (.register r) := by
  obtain ⟨ps, hrun, -, -, hbelow⟩ := Builder.run_startRoutine name params ret b
  rw [Builder.closeRoutine_of_none h.routine h.block] at hrun hbelow
  unfold Ensures
  rw [hrun]
  refine ⟨⟨fun _ _ => False, ⟨b.nextBlock⟩⟩, ⟨⟨h.routines, by simp, ⟨_, rfl, by simp, fun _ _ _ hs => hs⟩, ⟨_, rfl, rfl⟩,
    Nat.lt_succ_self _⟩, ⟨⟨_, rfl, rfl⟩, ?_, ?_⟩⟩, ?_⟩
  · intro i hi
    cases hi
  · intro before x s is hsplit
    cases before <;> cases hsplit
  · intro r hr x hx
    obtain ⟨p, hp, rfl⟩ := List.mem_map.1 hr
    cases hx
    refine ⟨(hbelow p hp).2, fun before s is hsplit => ?_⟩
    cases before <;> cases hsplit

theorem Ended.finishRoutine (h : b.Ended H) : Ensures finishRoutine b fun _ b' => b'.Rests := by
  obtain ⟨r, hclose, hne, hclosed, hentry⟩ := h.closeBlock
  show b.closeRoutine.Rests
  rw [closeRoutine, hclose]
  refine ⟨rfl, rfl, List.forall_mem_append.2 ⟨h.routines, ?_⟩⟩
  rw [List.forall_mem_singleton]
  refine ⟨H.sure, ?_⟩
  obtain ⟨k, ks, hblocks⟩ := List.exists_cons_of_ne_nil hne
  rw [hblocks] at hclosed hentry
  obtain ⟨hfirst, hrest⟩ := List.forall_mem_cons.1 hclosed
  unfold withPrologue
  rw [hblocks]
  refine ⟨fun k' hk' => ?_, List.forall_mem_cons.2 ⟨hfirst.1.prepend h.prologue, fun k hk => (hrest k hk).1⟩⟩
  cases hk'
  exact hentry k.id rfl

end Builder
end QuillLang
