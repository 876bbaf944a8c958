import QuillLang.Proofs.Filled.Paths
import QuillLang.Proofs.Leaks
/-!
# Texts are not null

A variable may be read as soon as a declaration stands before it, in whatever branch, and the run may not come through that
branch.  It then reads a text through null.  Without `free` there is no other way to that: a program that assigns its text
variables on all ways before it reads them never reads through null, and neither does any run that fills the variables
which it reads.
-/
namespace QuillLang

namespace Machine

def IsText (a : Assembly) (m : Machine) (p : Pointer) : Prop :=
  (∃ g, p = .global g ∧ g ∈ a.globals.map Global.name) ∨ ∃ b, p = .heap b 0 ∧ m.IsLive b

def PassesTexts (a : Assembly) (m : Machine) : Prop :=
  ∀ i is, m.running.rest = i :: is → ∀ callee ret args variadic, i.operation = .call callee ret args variadic →
    callee ≠ "free" → ∀ x ∈ args, x.1 = .ptr → ∃ p, m.pointer a x.2 = .ok p ∧ m.IsText a p

def HoldsText (m : Machine) (s : Register) : Prop :=
  ∃ b, m.slots m.running.id s = some (.ptr (.heap b 0)) ∧ m.IsLive b

end Machine

/-- Pointers that are passed to a routine, `free` apart, are read as texts. -/
theorem Setting.Step.readable_of_call {S : Setting} {t t' : Known} {i : Instr} (h : S.Step t i t') {callee : String}
    {ret : MachineType} {args : List (MachineType × Operand)} {variadic : Option (List MachineType)}
    (hop : i.operation = .call callee ret args variadic) (hfree : callee ≠ "free") :
    ∀ x ∈ args, x.1 = .ptr → t.Readable x.2 := by
  cases h with
  | external _ _ _ _ hreadable | function _ _ _ _ hreadable =>
    cases hop
    exact hreadable
  | malloc | exit =>
    cases hop
    simp
  | freeOwned | freeView =>
    cases hop
    exact absurd rfl hfree
  | alloca | storeNumber | storeNull | storeOwned | loadNumber | loadPointer | element | loadCell | storeCell | arith
  | compare | cast => cases hop

namespace Scene
variable {X : Scene} {m : Machine} {filled : Nat → Register → Prop}

theorem Sound.passesTexts (hX : X.Runnable) (h : X.Sound m) (hfirm : m.Firm filled) : m.PassesTexts X.assembly := by
  intro i is hrest callee ret args variadic hop hfree
  obtain ⟨P, t, hstands, hahead⟩ := h.running
  rw [hrest] at hahead
  obtain ⟨t', hstep, -⟩ := hahead.next
  rintro ⟨ty, v⟩ hx rfl
  have hreadable := hstep.readable_of_call hop hfree _ hx rfl
  have hl : X.assembly.Links v := by
    refine hstands.links hX hrest v ?_
    rw [hop]
    exact List.mem_map_of_mem hx
  obtain ⟨x, heval, -⟩ := hstands.agrees.eval_ok hreadable.hasType hl
  obtain ⟨p, rfl, hlent⟩ := hstands.agrees.lent_of_readable hreadable hl heval
  refine ⟨p, by simp only [Machine.pointer, heval]; rfl, ?_⟩
  rcases hlent with rfl | hglobal | ⟨b, owner, rfl, hb, -⟩
  · -- null would be in a register that is handed on
    exfalso
    cases v with
    | register r =>
      refine hfirm.running.handed r ?_ (Machine.register_of_eval heval)
      rw [hrest, Block.handsOn]
      simp [Instr.handsOn, hop, hfree, hx]
    | null => exact hreadable
    | global g =>
      simp only [Machine.eval] at heval
      split at heval <;> cases heval
    | int | float => exact hreadable.elim
  · exact .inl hglobal
  · exact .inr ⟨b, rfl, Machine.isLive_of_owns hb⟩

/-- What is read from a slot is a live block if the slot was filled, and null if not. -/
theorem Sound.reads_live (h : X.Sound m) (hfirm : m.Firm filled) {s : Register} (hs : m.reads? = some s) :
    (filled m.running.id s → m.HoldsText s) ∧
      (¬ filled m.running.id s → m.slots m.running.id s = some (.ptr .null)) := by
  obtain ⟨P, t, hstands, hahead⟩ := h.running
  unfold Machine.reads? at hs
  split at hs
  · rename_i r s' is hrest
    split at hs
    · obtain rfl := Option.some.inj hs
      rw [hrest] at hahead
      obtain ⟨t', hstep, -⟩ := hahead.next
      cases hstep with
      | @loadPointer slot _ hmem hheap hready hfresh =>
        obtain ⟨p, hslot, hown⟩ :=
          hstands.agrees.ledger.owned (.slot slot.register) ⟨⟨slot, hmem, rfl, hheap⟩, hready⟩
        have hslot : m.slots m.running.id slot.register = some (.ptr p) := hslot
        constructor
        · intro hfilled
          rcases hown with rfl | ⟨b, rfl, hb⟩
          · exact absurd hslot (hfirm.running.slots _ hfilled)
          · exact ⟨b, hslot, Machine.isLive_of_owns hb⟩
        · intro hfilled
          rw [hslot, hfirm.empty _ _ p hfilled hslot]
    · cases hs
  · cases hs

end Scene

/-! ## Runs with one answer -/

/-- Does every read among the first `n` steps come after a store by the same activation? -/
def Assembly.fillsFirst (a : Assembly) (w : Answer) (n : Nat) : Bool :=
  (List.range n).all fun i => (a.run (List.replicate i w)).toOption.all fun m => m.reads?.all fun s =>
    (List.range i).any fun j => (a.run (List.replicate j w)).toOption.any fun m' =>
      m'.running.id == m.running.id && m'.fills? == some s

theorem Assembly.fillsFirst_sound {a : Assembly} {w : Answer} {n : Nat} (h : a.fillsFirst w n = true) :
    a.FillsFirst (List.replicate n w) := by
  intro us m s hus hne hm hs
  obtain ⟨hle, hus⟩ := List.prefix_replicate_iff.1 hus
  have hlt : us.length < n := by
    refine Nat.lt_of_le_of_ne hle fun he => hne ?_
    rw [hus, he]
  generalize us.length = i at hus hlt
  subst hus
  have hm' : (a.run (List.replicate i w)).toOption = some m := by
    rw [hm]
    rfl
  have hi := List.all_eq_true.1 h i (List.mem_range.2 hlt)
  rw [hm', Option.all_some, hs, Option.all_some] at hi
  obtain ⟨j, hj, hany⟩ := List.any_eq_true.1 hi
  obtain ⟨m', hm', hany⟩ := Program.exists_of_any hany
  simp only [Bool.and_eq_true, beq_iff_eq] at hany
  have hj := List.mem_range.1 hj
  refine ⟨List.replicate j w, m', ?_, fun he => ?_, hm', hany.1, hany.2⟩
  · exact List.prefix_replicate_iff.2 ⟨by simpa using Nat.le_of_lt hj, by simp⟩
  · exact Nat.ne_of_lt hj (by simpa using congrArg List.length he)

namespace Program

/-- A variable that is declared in a branch alone, and then read. -/
def branching (test : Int64) : Program :=
  let here : Span := ⟨⟨1, 1, 0⟩, ⟨1, 1, 0⟩⟩
  ⟨[.when (.number test here) [.make ⟨"s", here⟩ (.string "a" here) here] here, .print (.var "s" here) here], here⟩

/-- **Texts are not null** in a program without `free` that assigns its text variables before it reads them.  No run stops
at null, what is passed to a routine is a constant or a live block, and a variable that is read holds a live block.  So it is
in each run of any other program that fills before it reads, and a variable that the run has not filled holds null. -/
theorem lower_texts_not_null {p : Program} {sigs : Signatures} {options : LowerOptions} {a : Assembly}
    (h : p.lower sigs options = .ok a) (hfrees : p.frees = false) :
    (p.assignsFirst sigs = true → ∀ ws, a.run ws ≠ .error (.fault .nullText) ∧ ∀ m, a.run ws = .ok m →
      m.PassesTexts a ∧ ∀ s, m.reads? = some s → m.HoldsText s) ∧
    ∀ ws, a.FillsFirst ws → a.run ws ≠ .error (.fault .nullText) ∧ ∀ m, a.run ws = .ok m →
      m.PassesTexts a ∧ ∀ s, m.reads? = some s → (a.Filled ws m.running.id s → m.HoldsText s) ∧
        (¬ a.Filled ws m.running.id s → m.slots m.running.id s = some (.ptr .null)) := by
  obtain ⟨signature, hX⟩ := runnable_of_lower h
  have hruns : ∀ ws, a.FillsFirst ws → a.run ws ≠ .error (.fault .nullText) ∧ ∀ m, a.run ws = .ok m →
      m.PassesTexts a ∧ ∀ s, m.reads? = some s → (a.Filled ws m.running.id s → m.HoldsText s) ∧
        (¬ a.Filled ws m.running.id s → m.slots m.running.id s = some (.ptr .null)) := by
    intro ws hfills
    have hsound := hX.run_safe ws
    have hfirm := hX.run_firm (emptiesFirst_of_lower h hfrees) ws hfills
    rw [show Scene.assembly _ = a from rfl] at hsound hfirm
    refine ⟨fun he => ?_, fun m hm => ?_⟩
    · rw [he] at hfirm
      exact hfirm rfl
    · rw [hm] at hsound hfirm
      exact ⟨Scene.Sound.passesTexts hX hsound hfirm, fun s hs => Scene.Sound.reads_live hsound hfirm hs⟩
  refine ⟨fun hassigns ws => ?_, hruns⟩
  have hfills := fillsFirst_of_lower h hfrees hassigns
  obtain ⟨hclear, hmachines⟩ := hruns ws (hfills ws)
  refine ⟨hclear, fun m hm => ⟨(hmachines m hm).1, fun s hs => ?_⟩⟩
  exact ((hmachines m hm).2 s hs).1 ((hfills (ws ++ [.quiet])).last hm hs)

/-- `echo` is about to return a text, and a branch that was taken has filled the variable that is about to be printed. -/
theorem echo_texts_not_null :
    (echo.frees = false ∧ echo.assignsFirst (Signatures.infer echo) = true ∧
      ∃ a m s, echo.lower (Signatures.infer echo) .standard = .ok a ∧ a.run (List.replicate 19 .quiet) = .ok m ∧
        m.reads? = some s ∧ m.HoldsText s) ∧
    (branching 1).frees = false ∧ (branching 1).assignsFirst (Signatures.infer (branching 1)) = false ∧
      ∃ a m s, (branching 1).lower (Signatures.infer (branching 1)) .standard = .ok a ∧
        a.FillsFirst (List.replicate 11 .quiet) ∧ a.run (List.replicate 11 .quiet) = .ok m ∧ m.reads? = some s ∧
        m.HoldsText s := by
  constructor
  · have hany : ((echo.lower (Signatures.infer echo) .standard).toOption.any fun a =>
        (a.run (List.replicate 19 .quiet)).toOption.any fun m => m.reads?.isSome) = true := by
      decide +kernel
    obtain ⟨a, ha, hany⟩ := exists_of_any hany
    obtain ⟨m, hm, hsome⟩ := exists_of_any hany
    obtain ⟨s, hs⟩ := Option.isSome_iff_exists.1 hsome
    have hassigns : echo.assignsFirst (Signatures.infer echo) = true := by decide +kernel
    exact ⟨rfl, hassigns, a, m, s, ha, hm, hs, (((lower_texts_not_null ha rfl).1 hassigns _).2 m hm).2 s hs⟩
  · have hany : (((branching 1).lower (Signatures.infer (branching 1)) .standard).toOption.any fun a =>
        a.fillsFirst .quiet 12 && (a.run (List.replicate 11 .quiet)).toOption.any fun m => m.reads?.isSome) = true := by
      decide +kernel
    obtain ⟨a, ha, hany⟩ := exists_of_any hany
    obtain ⟨hfills, hany⟩ := Bool.and_eq_true_iff.1 hany
    obtain ⟨m, hm, hsome⟩ := exists_of_any hany
    obtain ⟨s, hs⟩ := Option.isSome_iff_exists.1 hsome
    have hfills : a.FillsFirst (List.replicate 11 .quiet ++ [.quiet]) := Assembly.fillsFirst_sound hfills
    refine ⟨rfl, by decide +kernel, a, m, s, ha, hfills.init, hm, hs, ?_⟩
    exact ((((lower_texts_not_null ha rfl).2 _ hfills.init).2 m hm).2 s hs).1 (hfills.last hm hs)

/-- **A text may be read through null**: there is no `free` in the program, and its run stops there. -/
theorem unmade_reads_null : (branching 0).frees = false ∧
    ∃ a, (branching 0).lower (Signatures.infer (branching 0)) .standard = .ok a ∧
      a.run (List.replicate 7 .quiet) = .error (.fault .nullText) := by
  have hany : (((branching 0).lower (Signatures.infer (branching 0)) .standard).toOption.any fun a =>
      match a.run (List.replicate 7 .quiet) with
      | .error e => e == .fault .nullText
      | .ok _ => false) = true := by
    decide +kernel
  obtain ⟨a, ha, hrun⟩ := exists_of_any hany
  refine ⟨rfl, a, ha, ?_⟩
  split at hrun
  · rename_i e he
    rw [he, beq_iff_eq.1 hrun]
  · cases hrun

end Program
end QuillLang
