import QuillLang.Proofs.Frames
import QuillLang.Lowering.Program
/-!
# What a step ensures

A step of building always gives a result; a step of lowering gives a result or refuses the program.  `Ensures` says what
holds of the result, and that a refusal names a fault of the program, never one of the assembly.  `Gives` says the first
alone.
-/
namespace QuillLang

namespace Build
variable {α β : Type} {x : Build Nat α} {f : α → Build Nat β} {b : Builder}

def Ensures (x : Build Nat α) (b : Builder) (Q : α → Builder → Prop) : Prop := Q (x.run b).1 (x.run b).2

theorem Ensures.any (x : Build Nat α) : Ensures x b fun _ _ => True := trivial

theorem Ensures.pure {Q : α → Builder → Prop} {a : α} (h : Q a b) : Ensures (Pure.pure a) b Q := h

theorem Ensures.bind {P : α → Builder → Prop} {Q : β → Builder → Prop} (hx : Ensures x b P)
    (hf : ∀ a b', P a b' → Ensures (f a) b' Q) : Ensures (x >>= f) b Q :=
  hf _ _ hx

theorem Ensures.mono {P Q : α → Builder → Prop} (h : Ensures x b P) (hQ : ∀ a b', P a b' → Q a b') : Ensures x b Q :=
  hQ _ _ h

end Build

def LowerError.OfProgram (e : LowerError) : Prop := ∀ fault, e ≠ .malformed fault

namespace Lower
variable {α β : Type} {x : Lower α} {f : α → Lower β} {s : LowerState}

def Ensures (x : Lower α) (s : LowerState) (Q : α → LowerState → Prop) : Prop :=
  match x.run s with
  | .ok (a, s') => Q a s'
  | .error e => e.OfProgram

theorem Ensures.of_ok {Q : α → LowerState → Prop} (h : Ensures x s Q) {a : α} {s' : LowerState}
    (hx : x.run s = .ok (a, s')) : Q a s' := by
  unfold Ensures at h
  rw [hx] at h
  exact h

theorem Ensures.of_error {Q : α → LowerState → Prop} (h : Ensures x s Q) {e : LowerError}
    (hx : x.run s = .error e) : e.OfProgram := by
  unfold Ensures at h
  rw [hx] at h
  exact h

theorem Ensures.pure {Q : α → LowerState → Prop} {a : α} (h : Q a s) : Ensures (Pure.pure a) s Q := h

theorem Ensures.bind {P : α → LowerState → Prop} {Q : β → LowerState → Prop} (hx : Ensures x s P)
    (hf : ∀ a s', P a s' → Ensures (f a) s' Q) : Ensures (x >>= f) s Q := by
  unfold Ensures at hx ⊢
  rw [run_bind]
  cases hr : x.run s with
  | error e => rw [hr] at hx; exact hx
  | ok p =>
    rw [hr] at hx
    exact hf p.1 p.2 hx

theorem Ensures.mono {P Q : α → LowerState → Prop} (h : Ensures x s P) (hQ : ∀ a s', P a s' → Q a s') :
    Ensures x s Q := by
  unfold Ensures at h ⊢
  cases hr : x.run s with
  | error e => rw [hr] at h; exact h
  | ok p => rw [hr] at h; exact hQ _ _ h

theorem Ensures.throw {Q : α → LowerState → Prop} {e : LowerError} (h : e.OfProgram) :
    Ensures (throw e : Lower α) s Q := h

theorem Ensures.build {x : Build Nat α} {P : α → Builder → Prop} (h : Build.Ensures x s.builder P) :
    Ensures (build x) s fun a s' => ∃ b, s' = { s with builder := b } ∧ P a b := ⟨_, rfl, h⟩

theorem Ensures.get {Q : LowerState → LowerState → Prop} (h : Q s s) : Ensures (get : Lower LowerState) s Q := h

theorem Ensures.modify {g : LowerState → LowerState} {Q : Unit → LowerState → Prop} (h : Q () (g s)) :
    Ensures (modify g : Lower Unit) s Q := h

theorem Ensures.modifyGet {g : LowerState → α × LowerState} {Q : α → LowerState → Prop} (h : Q (g s).1 (g s).2) :
    Ensures (modifyGet g : Lower α) s Q := h

end Lower

/-! ## Results alone -/

namespace Lower
variable {α β : Type} {x : Lower α} {f : α → Lower β} {σ : LowerState}

theorem exists_of_run_bind {w : β} {σ' : LowerState} (h : (x >>= f).run σ = .ok (w, σ')) :
    ∃ v σ₁, x.run σ = .ok (v, σ₁) ∧ (f v).run σ₁ = .ok (w, σ') := by
  rw [run_bind] at h
  cases hx : x.run σ with
  | error e =>
    rw [hx] at h
    cases h
  | ok p =>
    rw [hx] at h
    exact ⟨p.1, p.2, rfl, h⟩

def Gives (x : Lower α) (σ : LowerState) (Q : α → LowerState → Prop) : Prop :=
  ∀ v σ', x.run σ = .ok (v, σ') → Q v σ'

theorem Ensures.gives {Q : α → LowerState → Prop} (h : Ensures x σ Q) : Gives x σ Q := fun _ _ hrun => h.of_ok hrun

namespace Gives
variable {Q P : α → LowerState → Prop} {R : β → LowerState → Prop}

theorem any (x : Lower α) : Gives x σ fun _ _ => True := fun _ _ _ => trivial

theorem pure {v : α} (h : Q v σ) : Gives (Pure.pure v) σ Q := by
  intro v' σ' hrun
  cases hrun
  exact h

theorem bind (hx : Gives x σ P) (hf : ∀ v σ', P v σ' → Gives (f v) σ' R) : Gives (x >>= f) σ R := by
  intro v σ' hrun
  obtain ⟨u, σ₁, hstep, hrest⟩ := exists_of_run_bind hrun
  exact hf u σ₁ (hx u σ₁ hstep) v σ' hrest

theorem imp (h : Gives x σ P) (hQ : ∀ v σ', P v σ' → Q v σ') : Gives x σ Q :=
  fun v σ' hrun => hQ v σ' (h v σ' hrun)

theorem and (hP : Gives x σ P) (hQ : Gives x σ Q) : Gives x σ fun v σ' => P v σ' ∧ Q v σ' :=
  fun v σ' hrun => ⟨hP v σ' hrun, hQ v σ' hrun⟩

theorem throw (e : LowerError) : Gives (throw e : Lower α) σ Q := by
  intro v σ' hrun
  cases hrun

theorem build {step : Build Nat α} (h : Q (step.run σ.builder).1 { σ with builder := (step.run σ.builder).2 }) :
    Gives (build step) σ Q := by
  intro v σ' hrun
  cases hrun
  exact h

theorem of_ensures {step : Build Nat α} {P : α → Builder → Prop} (h : Build.Ensures step σ.builder P) :
    Gives (Lower.build step) σ fun v σ' => P v σ'.builder := .build h

theorem get_bind {f : LowerState → Lower β} (h : Gives (f σ) σ R) : Gives (get >>= f) σ R := h

theorem modify {g : LowerState → LowerState} {Q : Unit → LowerState → Prop} (h : Q () (g σ)) :
    Gives (modify g : Lower Unit) σ Q := by
  intro v σ' hrun
  cases hrun
  exact h

end Gives
end Lower

/-! ## Look-ups -/

namespace Lower
variable {σ : LowerState}

theorem gives_slotOf_lookup (x : Ident) :
    Gives (slotOf x) σ fun slot σ' => σ' = σ ∧ σ.frames.lookup x.name = some slot := by
  refine .get_bind ?_
  split
  · rename_i slot hslot
    exact .pure ⟨rfl, hslot⟩
  · exact .throw _

theorem gives_slotOf (x : Ident) :
    Gives (slotOf x) σ fun slot σ' => σ' = σ ∧ slot ∈ σ.frames.current ∧ slot.name = x.name :=
  (gives_slotOf_lookup x).imp fun _ _ h => ⟨h.1, SlotTable.mem_of_lookup h.2, SlotTable.name_of_lookup h.2⟩

theorem gives_functionInfo (callee : Ident) : Gives (functionInfo callee) σ fun info σ' =>
    σ' = σ ∧ σ.functions.get? callee.name = some info := by
  refine .get_bind ?_
  split
  · rename_i info hinfo
    exact .pure ⟨rfl, hinfo⟩
  · exact .throw _

theorem gives_resultSlot_lookup (x : Ident) :
    Gives (resultSlot x) σ fun slot σ' => σ' = σ ∧ σ.frames.lookup x.name = some slot := by
  refine .get_bind ?_
  split
  · rename_i slot hslot
    exact .pure ⟨rfl, hslot⟩
  · exact .throw _

theorem gives_resultSlot (x : Ident) :
    Gives (resultSlot x) σ fun slot σ' => σ' = σ ∧ slot ∈ σ.frames.current ∧ slot.name = x.name :=
  (gives_resultSlot_lookup x).imp fun _ _ h => ⟨h.1, SlotTable.mem_of_lookup h.2, SlotTable.name_of_lookup h.2⟩

/-! ## External routines -/

def externals (withGraphics : Bool) : Lower Unit := do
  build (External.declareAll External.core)
  if withGraphics then build (External.declareAll External.graphics)

theorem program_eq_externals (p : Program) (sigs : Signatures) (withGraphics : Bool) : program p sigs withGraphics = (do
    externals withGraphics
    declareFunctions sigs p.functions
    functions sigs p.functions
    topLevel p) := by
  cases withGraphics <;> simp [program, externals]

section
variable {I : Builder → Prop}
  (h : ∀ (name : String) (sig : CallSignature) (b : Builder), I b → I ((Builder.declareExternal name sig).run b).2)
include h

theorem declareAll_keeps : ∀ (es : List External) {b : Builder}, I b → I ((External.declareAll es).run b).2
  | [], _, hb => hb
  | e :: es, b, hb => declareAll_keeps es (h e.name e.signature b hb)

theorem gives_externals (withGraphics : Bool) (hσ : I σ.builder) :
    Gives (externals withGraphics) σ fun _ σ' => I σ'.builder := by
  have hall (es : List External) {σ : LowerState} (hσ : I σ.builder) :
      Gives (build (External.declareAll es)) σ fun _ σ' => I σ'.builder := .build (declareAll_keeps h es hσ)
  refine (hall External.core hσ).bind fun _ σ₁ h₁ => ?_
  split
  · exact hall External.graphics h₁
  · exact .pure h₁

end

end Lower
end QuillLang
