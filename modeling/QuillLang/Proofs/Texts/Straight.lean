import QuillLang.Proofs.Points.Walk
import QuillLang.Proofs.Texts.Routines
/-!
# Straight code

An expression is lowered to straight code, which is added to the open block.  `Builder.Carries` says that the code between
two builders takes every machine with `P` to one with `Q`: it runs to its end without a fault, whatever the world answers,
and texts stay inside their blocks on the way.  `Build.Brings` says so of the code that a step of building emits, and steps
in sequence are rules about it, as in Hoare's logic.  What holds of a machine may depend on the number from which on
registers are fresh.  That a step emits nothing but straight code is seen from its calls (`View.straight`).
-/
namespace QuillLang

/-! ## Steps that stay inside blocks -/

def Operation.target? : Operation → Option Operand
  | .call callee _ ((_, v) :: _) _ => if callee ∈ ["strcpy", "strcat", "sprintf"] then some v else none
  | _ => none

namespace Machine
variable {a : Assembly} {m : Machine} {P Q : Machine → Prop} {n k : Nat}

/-- A text that the next instruction writes is inside a live block, with its closing zero. -/
def StaysInside (a : Assembly) (m m' : Machine) : Prop :=
  ∀ i rest v, m.running.rest = i :: rest → i.operation.target? = some v →
    ∃ b k, m.eval a .ptr v = .ok (.ptr (.heap b 0)) ∧ m'.heap[b]? = some k ∧ k.live = true ∧ k.text.length < k.size

/-- So many steps run without a fault, whatever the world answers; texts stay inside their blocks, and `Q` holds at the
end. -/
def Proceeds (a : Assembly) : Nat → Machine → (Machine → Prop) → Prop
  | 0, m, Q => Q m
  | n + 1, m, Q => ∀ w, ∃ m', m.step a w = .ok m' ∧ m.StaysInside a m' ∧ Proceeds a n m' Q

theorem Proceeds.trans : ∀ {n : Nat} {m : Machine}, Proceeds a n m P → (∀ m', P m' → Proceeds a k m' Q) →
    Proceeds a (n + k) m Q
  | 0, m, h, hQ => by
    rw [Nat.zero_add]
    exact hQ m h
  | n + 1, m, h, hQ => by
    rw [Nat.succ_add]
    intro w
    obtain ⟨m', hstep, hinside, hrest⟩ := h w
    exact ⟨m', hstep, hinside, hrest.trans hQ⟩

theorem Proceeds.imp (h : Proceeds a n m P) (hQ : ∀ m', P m' → Q m') : Proceeds a n m Q := h.trans (k := 0) hQ

end Machine

/-! ## Builders -/

namespace Builder

/-- `b'` comes from `b` by straight code and new constants. -/
structure Extends (b b' : Builder) : Prop where
  code : b.code <+: b'.code
  isOpen : b.block.isSome = true → b'.block.isSome = true
  nextRegister : b.nextRegister ≤ b'.nextRegister
  globals : ∀ g ∈ b.assembly.globals, g ∈ b'.assembly.globals
  signatures : b'.signatures = b.signatures

def codeTo (b b' : Builder) : List Instr := b'.code.drop b.code.length

/-- Code is not lost, and the library can be called. -/
structure Primed (b : Builder) : Prop where
  isOpen : b.block.isSome = true
  core : ∀ e ∈ External.core, b.signatures.get? e.name = some e.signature

variable {b b' b'' : Builder}

theorem Extends.refl (b : Builder) : b.Extends b :=
  ⟨List.prefix_refl _, fun h => h, Nat.le_refl _, fun _ h => h, rfl⟩

theorem Extends.trans (h : b.Extends b') (h' : b'.Extends b'') : b.Extends b'' where
  code := h.code.trans h'.code
  isOpen hb := h'.isOpen (h.isOpen hb)
  nextRegister := Nat.le_trans h.nextRegister h'.nextRegister
  globals g hg := h'.globals g (h.globals g hg)
  signatures := h'.signatures.trans h.signatures

theorem Extends.primed (h : b.Extends b') (hb : b.Primed) : b'.Primed :=
  ⟨h.isOpen hb.isOpen, fun e he => by rw [h.signatures]; exact hb.core e he⟩

theorem codeTo_self (b : Builder) : b.codeTo b = [] := List.drop_length

theorem codeTo_of_append {is : List Instr} (h : b'.code = b.code ++ is) : b.codeTo b' = is := by
  unfold codeTo
  rw [h, List.drop_left]

theorem Extends.codeTo_append (h : b.Extends b') (h' : b'.Extends b'') : b.codeTo b'' = b.codeTo b' ++ b'.codeTo b'' := by
  obtain ⟨is, his⟩ := h.code
  obtain ⟨js, hjs⟩ := h'.code
  rw [codeTo_of_append his.symm, codeTo_of_append hjs.symm]
  refine codeTo_of_append ?_
  rw [← hjs, ← his, List.append_assoc]

/-- The code from one builder to another takes machines with `P` to machines with `Q`. -/
def Carries (a : Assembly) (b b' : Builder) (P Q : Nat → Machine → Prop) : Prop :=
  (∀ g ∈ b'.assembly.globals, g ∈ a.globals) → ∀ m rest, m.running.rest = b.codeTo b' ++ rest → P b.nextRegister m →
    m.Proceeds a (b.codeTo b').length fun m' => m'.running.rest = rest ∧ Q b'.nextRegister m'

variable {a : Assembly} {P Q R : Nat → Machine → Prop}

theorem Carries.refl (h : ∀ m, P b.nextRegister m → Q b.nextRegister m) : b.Carries a b P Q := by
  intro _ m rest hrest hP
  rw [codeTo_self] at hrest ⊢
  exact ⟨hrest, h m hP⟩

theorem Carries.trans (h : b.Extends b') (h' : b'.Extends b'') (hPR : b.Carries a b' P R) (hRQ : b'.Carries a b'' R Q) :
    b.Carries a b'' P Q := by
  intro hglobals m rest hrest hP
  rw [h.codeTo_append h', List.append_assoc] at hrest
  rw [h.codeTo_append h', List.length_append]
  refine (hPR (fun g hg => hglobals g (h'.globals g hg)) m _ hrest hP).trans ?_
  rintro m' ⟨hrest', hR⟩
  exact hRQ hglobals m' rest hrest' hR

end Builder

/-! ## Steps of building -/

namespace Build
variable {α β : Type} {a : Assembly} {x : Build Nat α} {f : α → Build Nat β} {P P' : Nat → Machine → Prop}
  {Q R : α → Nat → Machine → Prop} {S : β → Nat → Machine → Prop}

def Emits (x : Build Nat α) : Prop := ∀ b : Builder, b.Extends (x.run b).2

@[grind ←] theorem Emits.pure (v : α) : Emits (Pure.pure v) := fun b => .refl b

@[grind ←] theorem Emits.bind (hx : Emits x) (hf : ∀ v, Emits (f v)) : Emits (x >>= f) :=
  fun b => (hx b).trans (hf (x.run b).1 (x.run b).2)

/-- The step emits straight code that brings a machine with `P` to `Q`. -/
structure Brings (a : Assembly) (P : Nat → Machine → Prop) (x : Build Nat α) (Q : α → Nat → Machine → Prop) : Prop where
  emits : Emits x
  carries : ∀ b : Builder, b.Primed → b.Carries a (x.run b).2 P (Q (x.run b).1)

namespace Brings

theorem pure {v : α} (h : ∀ n m, P n m → Q v n m) : Brings a P (Pure.pure v) Q :=
  ⟨.pure v, fun b _ => .refl fun m => h b.nextRegister m⟩

theorem bind (hx : Brings a P x R) (hf : ∀ v, Brings a (R v) (f v) S) : Brings a P (x >>= f) S where
  emits := hx.emits.bind fun v => (hf v).emits
  carries b hb := by
    have hext := hx.emits b
    refine .trans hext ((hf (x.run b).1).emits (x.run b).2) (hx.carries b hb) ?_
    exact (hf (x.run b).1).carries _ (hext.primed hb)

theorem imp (hx : Brings a P x R) (h : ∀ v n m, R v n m → Q v n m) : Brings a P x Q :=
  ⟨hx.emits, fun b hb hglobals m rest hrest hP => (hx.carries b hb hglobals m rest hrest hP).imp fun _ hm =>
    ⟨hm.1, h _ _ _ hm.2⟩⟩

theorem under (hx : Brings a P x Q) (h : ∀ n m, P' n m → P n m) : Brings a P' x Q :=
  ⟨hx.emits, fun b hb hglobals m rest hrest hP => hx.carries b hb hglobals m rest hrest (h _ m hP)⟩

/-- What does not depend on the machine is taken out of the condition. -/
theorem of_exists {ι : Type} {φ : ι → Prop} {P : ι → Nat → Machine → Prop} (hx : Emits x)
    (h : ∀ i, φ i → Brings a (P i) x Q) : Brings a (fun n m => ∃ i, φ i ∧ P i n m) x Q :=
  ⟨hx, fun b hb hglobals m rest hrest hP => by
    obtain ⟨i, hi, hP⟩ := hP
    exact (h i hi).carries b hb hglobals m rest hrest hP⟩

end Brings
end Build

/-! ## Instructions -/

namespace Builder
open Build
variable {a : Assembly} {P : Nat → Machine → Prop} {Q : Operand → Nat → Machine → Prop}

/-- A machine that stands at an instruction runs it, whatever the world answers, and then `Q` holds. -/
def Performs (a : Assembly) (P : Nat → Machine → Prop) (i : Instr) (n k : Nat) (Q : Nat → Machine → Prop) : Prop :=
  ∀ m rest w, m.running.rest = i :: rest → P n m →
    ∃ m', m.perform a w i = .ok m' ∧ m.StaysInside a m' ∧ m'.running.rest = rest ∧ Q k m'

theorem code_wrote {b : Builder} (h : b.block.isSome = true) (i : Instr) (n : Nat) :
    (b.emitted [i] n).code = b.code ++ [i] := by
  obtain ⟨k, hk⟩ := Option.isSome_iff_exists.1 h
  simp [emitted, code, hk]

theorem extends_emitted (b : Builder) (is : List Instr) {n : Nat} (hn : b.nextRegister ≤ n) :
    b.Extends (b.emitted is n) where
  code := by
    unfold emitted code
    cases b.block with
    | none => exact List.prefix_refl _
    | some k => exact List.prefix_append _ _
  isOpen h := by
    unfold emitted
    rw [Option.isSome_map]
    exact h
  nextRegister := hn
  globals _ hg := hg
  signatures := rfl

theorem Performs.carries {b : Builder} (hb : b.block.isSome = true) {i : Instr} {n : Nat} {Q : Nat → Machine → Prop}
    (h : Performs a P i b.nextRegister n Q) : b.Carries a (b.emitted [i] n) P Q := by
  intro _ m rest hrest hP
  rw [codeTo_of_append (code_wrote hb i n)] at hrest ⊢
  intro w
  obtain ⟨m', hperform, hinside, hrest', hQ⟩ := h m rest w hrest hP
  exact ⟨m', (m.step_eq_perform hrest w).trans hperform, hinside, hrest', hQ⟩

theorem emits_emitResult (operation : Operation) : Emits (emitResult operation) :=
  fun b => b.extends_emitted _ (Nat.le_succ _)

theorem brings_emitResult {operation : Operation}
    (h : ∀ n, Performs a P ⟨some ⟨n⟩, operation⟩ n (n + 1) (Q (.register ⟨n⟩))) : Brings a P (emitResult operation) Q :=
  ⟨emits_emitResult operation, fun b hb => (h b.nextRegister).carries hb.isOpen⟩

theorem emits_callVariadic (callee : String) (fixed : List Operand) (extra : List (MachineType × Operand)) :
    Emits (callVariadic callee fixed extra) := by
  intro b
  unfold callVariadic
  rw [run_bind]
  dsimp only
  split
  · exact b.extends_emitted _ (Nat.le_refl _)
  · exact emits_emitResult _ b

theorem brings_callVariadic {e : External} (he : e ∈ External.core) (hret : e.signature.ret ≠ .void) {fixed : List Operand}
    {extra : List (MachineType × Operand)}
    (h : ∀ n, Performs a P ⟨some ⟨n⟩, .call e.name e.signature.ret (typeArgs e.signature.params fixed ++ extra)
      (if e.signature.isVariadic then some e.signature.params else none)⟩ n (n + 1) (Q (.register ⟨n⟩))) :
    Brings a P (callVariadic e.name fixed extra) Q :=
  ⟨emits_callVariadic e.name fixed extra, fun b hb => by
    rw [run_callVariadic (hb.core e he) hret]
    exact (h b.nextRegister).carries hb.isOpen⟩

@[grind ←] theorem emits_stringConstant (content : String) : Emits (stringConstant content) := by
  intro b
  obtain ⟨name, -, hrun⟩ | ⟨hnone, hrun⟩ := b.stringConstant_cases content <;> rw [hrun]
  · exact .refl b
  · exact ⟨List.prefix_refl _, fun h => h, Nat.le_refl _, fun g hg => List.mem_append_left _ hg, rfl⟩

/-- **A call in a block emits straight code.** -/
theorem Call.emits {α : Type} {m : Permit} (c : Call α) (h : c.Permitted m) (hbranches : ¬ m.Branches)
    (hdeclares : ¬ m.Declares) (hbodies : ¬ m.Bodies) : Emits c.run := by
  cases c with
  | store => exact fun b => b.extends_emitted _ (Nat.le_refl _)
  | load | compute => exact emits_emitResult _
  | invoke => exact emits_callVariadic _ _ _
  | stringConstant => exact emits_stringConstant _
  | terminate | createBlock | startBlock | quit => exact absurd h hbranches
  | alloca | initSlot => exact absurd h hdeclares
  | register | startRoutine | finishRoutine => exact absurd h hbodies
  | declareExternal => exact h.elim

end Builder

/-- Steps that emit straight code. -/
def View.straight : View :=
  .ofStates { Builder.Permit.all with Branches := False, Declares := False, Bodies := False } (fun _ => True)
    (fun σ σ' => σ'.frames = σ.frames ∧ σ.builder.Extends σ'.builder) (fun _ => True) trivial (fun _ => ⟨rfl, .refl _⟩)
    (fun h h' => ⟨h'.1.trans h.1, h.2.trans h'.2⟩) (fun _ _ => trivial) (fun _ => trivial) (fun _ _ => trivial)
    (fun h hb => ⟨h.frames, hb ▸ .refl _⟩) (fun _ _ h => h.elim) (fun h => h.elim)
    fun c σ _ hmay => ⟨rfl, c.emits hmay id id id σ.builder⟩

namespace View
variable {α : Type} {σ : LowerState}

@[grind ←] theorem straight_refuses : straight.may.Refuses := trivial

@[grind ←] theorem straight_holds (g : Grade) (v : Operand) : straight.Holds g σ v := trivial

@[grind ←] theorem straight_has [Graded α] (a : α) : straight.Has σ a := fun _ _ => trivial

@[grind ←] theorem straight_supplies (xs : List String) : straight.Supplies σ xs := fun _ _ _ _ _ => trivial

end View

@[grind ←] theorem Build.Emits.of_tidy {α : Type} [Graded α] {x : Build Nat α}
    (h : ∀ σ, Lower.Tidy View.straight σ (Lower.build x)) : Emits x :=
  fun b => ((h { Lower.initial .standard with builder := b }).gives trivial _ _ rfl).1.2

end QuillLang
