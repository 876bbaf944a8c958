import QuillLang.Proofs.Graph.Routines
/-!
# Labels and exits

The first block of a routine is labelled `entry` and every other one by a name and its number, and a call of `exit` is the
last instruction of its block.  Each act of lowering keeps this of the routine in the making (`Builder.Framed.act`), so it
holds of every routine that lowering makes (`Program.framed_of_lower`).
-/
namespace QuillLang

/-- Labels and exits of the blocks of a routine. -/
structure Block.Framed (ks : List Block) : Prop where
  entry : ∀ k ∈ ks.head?, k.label = "entry"
  rest : ∀ k ∈ ks.tail, Block.Labels k.id k.label
  exits : ∀ k ∈ ks, ∀ i ∈ k.instrs.dropLast, i.callee? ≠ some "exit"

namespace Block.Framed
variable {ks : List Block} {k k' : Block}

theorem nil : Framed [] := ⟨by simp, by simp, by simp⟩

theorem replace (h : Framed (ks ++ [k])) (hid : k'.id = k.id) (hlabel : k'.label = k.label)
    (hexits : ∀ i ∈ k'.instrs.dropLast, i.callee? ≠ some "exit") : Framed (ks ++ [k']) := by
  obtain ⟨hks, -⟩ := List.forall_mem_append.1 h.exits
  have hall : ∀ k ∈ ks ++ [k'], ∀ i ∈ k.instrs.dropLast, i.callee? ≠ some "exit" :=
    List.forall_mem_append.2 ⟨hks, by simpa using hexits⟩
  cases ks with
  | nil => exact ⟨by simpa [hlabel] using h.entry, by simp, hall⟩
  | cons first rest =>
    refine ⟨h.entry, ?_, hall⟩
    obtain ⟨hrest, hlast⟩ := List.forall_mem_append.1 h.rest
    exact List.forall_mem_append.2 ⟨hrest, by simpa [hid, hlabel] using hlast⟩

theorem snoc (h : Framed (ks ++ [k])) (hlabels : Block.Labels k'.id k'.label)
    (hexits : ∀ i ∈ k'.instrs.dropLast, i.callee? ≠ some "exit") : Framed (ks ++ [k] ++ [k']) := by
  have hall : ∀ k₀ ∈ ks ++ [k] ++ [k'], ∀ i ∈ k₀.instrs.dropLast, i.callee? ≠ some "exit" :=
    List.forall_mem_append.2 ⟨h.exits, List.forall_mem_singleton.2 hexits⟩
  have hne : ks ++ [k] ≠ [] := by simp
  refine ⟨?_, ?_, hall⟩
  · rw [List.head?_append_of_ne_nil _ hne]
    exact h.entry
  · rw [List.tail_append_of_ne_nil hne]
    exact List.forall_mem_append.2 ⟨h.rest, by simpa using hlabels⟩

end Block.Framed

/-- A call of `exit` stays the last one when other code is put before it. -/
theorem exits_append {is js : List Instr} (his : ∀ i ∈ is, i.callee? = none)
    (hjs : ∀ i ∈ js.dropLast, i.callee? ≠ some "exit") : ∀ i ∈ (is ++ js).dropLast, i.callee? ≠ some "exit" := by
  have hplain : ∀ i ∈ is, i.callee? ≠ some "exit" := fun i hi => Instr.callee_ne_exit (his i hi)
  intro i hi
  cases js with
  | nil =>
    rw [List.append_nil] at hi
    exact hplain i (List.dropLast_subset _ hi)
  | cons j js =>
    rw [List.dropLast_append_of_ne_nil (List.cons_ne_nil j js)] at hi
    rcases List.mem_append.1 hi with hi | hi
    · exact hplain i hi
    · exact hjs i hi

theorem Builder.framed_withPrologue {r : Routine} {prologue : List Instr} (h : Block.Framed r.blocks)
    (hp : ∀ i ∈ prologue, i.callee? = none) : Block.Framed (withPrologue r prologue).blocks := by
  unfold withPrologue
  split
  · exact h
  · rename_i entry rest hblocks
    rw [hblocks] at h
    obtain ⟨hentry, hrest⟩ := List.forall_mem_cons.1 h.exits
    refine ⟨by simpa using h.entry, h.rest, List.forall_mem_cons.2 ⟨?_, hrest⟩⟩
    exact exits_append hp hentry

/-! ## Building -/

structure Builder.Framed (b : Builder) : Prop where
  routines : ∀ r ∈ b.assembly.routines, Block.Framed r.blocks
  begun : ∃ r k, b.routine = some r ∧ b.block = some k ∧ Block.Framed (r.blocks ++ [k]) ∧
    ∀ i ∈ k.instrs, i.callee? ≠ some "exit"
  prologue : ∀ i ∈ b.prologue, i.callee? = none

namespace Builder.Framed
variable {frees : Bool} {b b' : Builder}

theorem init_of_all {k : Block} (h : ∀ i ∈ k.instrs, i.callee? ≠ some "exit") :
    ∀ i ∈ k.instrs.dropLast, i.callee? ≠ some "exit" := fun i hi => h i (List.dropLast_subset _ hi)

/-- **Each act keeps labels and exits as they should be.** -/
theorem act (h : b.Framed) (ha : b.Act frees b') : b'.Framed := by
  obtain ⟨r, k, hr, hk, hframed, hplain⟩ := h.begun
  cases ha with
  | aside hb =>
    refine ⟨by rw [hb.assembly]; exact h.routines, ⟨r, k, hb.routine.trans hr, hb.block.trans hk, hframed, hplain⟩, ?_⟩
    rw [hb.prologue]
    exact h.prologue
  | @write i other =>
    have hplain' : ∀ j ∈ k.instrs ++ [i], j.callee? ≠ some "exit" :=
      List.forall_mem_append.2 ⟨hplain, by simpa using other⟩
    refine ⟨h.routines, ⟨r, { k with instrs := k.instrs ++ [i] }, hr, by simp [wrote, hk], ?_, hplain'⟩, h.prologue⟩
    exact hframed.replace rfl rfl (init_of_all (k := { k with instrs := k.instrs ++ [i] }) hplain')
  | slot other =>
    exact ⟨h.routines, ⟨r, k, hr, hk, hframed, hplain⟩, List.forall_mem_append.2 ⟨h.prologue, by simpa using other⟩⟩
  | close t =>
    refine ⟨h.routines, ⟨r, { k with terminator := k.terminator.or (some t) }, hr, ?_, ?_, hplain⟩, h.prologue⟩
    · show b.block.map _ = _
      rw [hk]
      rfl
    · exact hframed.replace rfl rfl (init_of_all hplain)
  | @start id label labels =>
    rw [startBlock_eq, hr, hk]
    exact ⟨h.routines, ⟨_, ⟨id, label, [], none⟩, rfl, rfl, hframed.snoc labels (by simp), by simp⟩, h.prologue⟩
  | @quit i _ _ t id label labels =>
    -- what was written is closed with the block, so it is the last instruction
    let last : Block := { k with instrs := k.instrs ++ [i], terminator := k.terminator.or (some t) }
    have hlast : Block.Framed (r.blocks ++ [last]) :=
      hframed.replace rfl rfl (by simpa [last] using hplain)
    have hblock : ((terminate t).run (b.wrote i)).2.block = some last := by
      show (b.block.map _).map _ = _
      rw [hk]
      rfl
    rw [startBlock_eq, hblock, show ((terminate t).run (b.wrote i)).2.routine = some r from hr]
    exact ⟨h.routines, ⟨_, ⟨id, label, [], none⟩, rfl, rfl, hlast.snoc labels (by simp), by simp⟩, h.prologue⟩

end Builder.Framed

structure Builder.Closed (b : Builder) : Prop where
  routines : ∀ r ∈ b.assembly.routines, Block.Framed r.blocks
  routine : b.routine = none
  block : b.block = none

namespace Builder
variable {b : Builder}

theorem Framed.closeRoutine (h : b.Framed) : b.closeRoutine.Closed := by
  obtain ⟨r, k, hr, hk, hframed, -⟩ := h.begun
  have hlast := framed_withPrologue (r := { r with blocks := r.blocks ++ [k] }) hframed h.prologue
  rw [closeRoutine_eq, closing, hr, hk]
  exact ⟨List.forall_mem_append.2 ⟨h.routines, List.forall_mem_singleton.2 hlast⟩, rfl, rfl⟩

theorem Closed.startRoutine (h : b.Closed) (name : String) (params : List MachineType) (ret : MachineType) :
    ((Builder.startRoutine name params ret).run b).2.Framed := by
  obtain ⟨ps, hrun, -⟩ := run_startRoutine name params ret b
  rw [hrun, closeRoutine_of_none h.routine h.block]
  exact ⟨h.routines, ⟨_, _, rfl, rfl, ⟨by simp, by simp, by simp⟩, by simp⟩, by simp⟩

theorem name_startRoutine (name : String) (params : List MachineType) (ret : MachineType) (b : Builder) :
    ((startRoutine name params ret).run b).2.assembly.name = b.assembly.name := by
  obtain ⟨ps, hrun, -⟩ := run_startRoutine name params ret b
  rw [hrun]
  exact name_closeRoutine b

theorem Opening.closed {title : String} (h : b.Opening title) : b.Closed :=
  ⟨fun r hr => h.routines r hr ▸ .nil, h.routine, h.block⟩

end Builder

/-! ## Lowering -/

namespace Program
variable {p : Program} {sigs : Signatures} {options : LowerOptions} {a : Assembly}

theorem exists_closed_of_lower (h : p.lower sigs options = .ok a) :
    ∃ b : Builder, (b.assembly.name = options.moduleName ∧ b.Closed) ∧ a = b.assembly := by
  refine exists_of_lower (I := fun b => b.assembly.name = options.moduleName ∧ b.Framed) h
    (fun b hb => ⟨hb.name, hb.closed⟩) ?_ ?_ ?_
  · exact fun b name params ret hb => ⟨(b.name_startRoutine name params ret).trans hb.1, hb.2.startRoutine name params ret⟩
  · exact fun b b' hb ha => ⟨ha.continues.name.trans hb.1, hb.2.act ha⟩
  · exact fun b hb => ⟨b.name_closeRoutine.trans hb.1, hb.2.closeRoutine⟩

/-- **Labels and exits of every routine that lowering makes are as they should be.** -/
theorem framed_of_lower (h : p.lower sigs options = .ok a) : ∀ r ∈ a.routines, Block.Framed r.blocks := by
  obtain ⟨b, ⟨-, hclosed⟩, rfl⟩ := exists_closed_of_lower h
  exact hclosed.routines

theorem name_of_lower (h : p.lower sigs options = .ok a) : a.name = options.moduleName := by
  obtain ⟨b, ⟨hname, -⟩, rfl⟩ := exists_closed_of_lower h
  exact hname

end Program
end QuillLang
