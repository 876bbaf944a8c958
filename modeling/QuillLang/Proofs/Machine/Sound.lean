import QuillLang.Proofs.Machine.Agrees
import QuillLang.Proofs.Machine.Calls
import QuillLang.Proofs.Constants
/-!
# Machines that keep to their plans

Between two steps the running activation stands somewhere in a block of its plan, and the rest of the block keeps to the
discipline from what is known there.  Every caller stands at its call and goes on from what it will know once the call is
done.  What the running activation does to its own registers, slots and buffers does not touch its callers
(`Scene.Nested.finish`).
-/
namespace QuillLang

/-! ## Programs that can be run -/

/-- A program, its assembly and the signatures that its code relies on. -/
structure Scene where
  program : Program
  signatures : Signatures
  assembly : Assembly
  signature : String → Option CallSignature

namespace Scene

/-- A plan of a routine.  That of a function says whether the function may return early, and a function returns a number
or a text. -/
structure Plans (X : Scene) (P : Plan) (r : Routine) : Prop where
  fits : P.Fits X.signature r
  function : ∀ f ∈ X.program.functions, r.name = "fn." ++ f.name.name →
    P.early = f.returnsEarly X.signatures ∧ r.ret ≠ .i32

structure Runnable (X : Scene) : Prop where
  plan : ∀ r ∈ X.assembly.routines, r.isExternal = false → ∃ P : Plan, X.Plans P r
  callee : ∀ name sig, X.signature name = some sig →
    ∃ r ∈ X.assembly.routines, X.assembly.routine? name = some r ∧ r.Takes sig ∧
      (r.isExternal = true ↔ name ∈ External.names)
  main : ∃ r ∈ X.assembly.routines, X.assembly.routine? "main" = some r ∧ r.isExternal = false ∧ r.params = [] ∧
    r.ret = .i32
  linked : X.assembly.Linked

end Scene

/-- **An assembled program can be run.** -/
theorem Assembled.runnable {p : Program} {sigs : Signatures} {a : Assembly} {es : List External} {fs : List Routine}
    {main : Routine} {signature : String → Option CallSignature} (h : Assembled p sigs a es fs main signature)
    (hl : a.Linked) : Scene.Runnable ⟨p, sigs, a, signature⟩ := by
  have hmain := h.internal_iff.2 (.inr rfl)
  refine ⟨fun r hr hi => ?_, fun name sig hs => ?_, ?_, hl⟩
  · rcases h.internal_iff.1 ⟨hr, hi⟩ with hr | rfl
    · obtain ⟨f, hf, hb⟩ := h.function_of_mem hr
      obtain ⟨P, hP, hearly⟩ := hb.plan
      refine ⟨P, hP, fun g hg hname => ?_⟩
      have hfg : f.name.name = g.name.name := Lower.function_symbol_inj (hb.name.symm.trans hname)
      obtain rfl := List.inj_on_of_nodup_map h.names hf hg hfg
      refine ⟨hearly, ?_⟩
      rw [hb.ret]
      show (sigs.returnType f.name.name).machineType ≠ .i32
      cases sigs.returnType f.name.name <;> decide
    · obtain ⟨P, hP⟩ := h.main_plan
      refine ⟨P, hP, fun g _ hname => ?_⟩
      exact absurd (hname.symm.trans h.main_name) (Lower.function_symbol_ne_main _)
  · obtain ⟨r, hr, rfl, ht⟩ := h.known name sig hs
    refine ⟨r, hr, h.routine?_of_mem hr, ht, fun hext => ?_, fun hn => ?_⟩
    · have hr := hr
      rw [show (Scene.mk p sigs a signature).assembly.routines = _ from h.routines] at hr
      rcases List.mem_append.1 hr with hr | hr
      · obtain ⟨e, he, rfl⟩ := List.mem_map.1 hr
        exact h.external_mem_names he
      · have hint := (h.internal_iff.2 (by simpa using hr)).2
        rw [hext] at hint
        cases hint
    · cases hext : r.isExternal with
      | true => rfl
      | false =>
        rcases h.internal_iff.1 ⟨hr, hext⟩ with hr | rfl
        · obtain ⟨f, -, hb⟩ := h.function_of_mem hr
          rw [hb.name] at hn
          exact absurd hn (External.function_not_mem _)
        · rw [h.main_name] at hn
          exact absurd hn External.main_not_mem
  · exact ⟨main, hmain.1, h.main_name ▸ h.routine?_of_mem hmain.1, hmain.2, h.main_params, h.main_ret⟩

/-! ## Activations -/

/-- The instructions `is` and the end of a block keep to the discipline. -/
def Setting.Ahead (S : Setting) (k : Block) (t : Known) (is : List Instr) : Prop :=
  ∃ u e n, k.terminator = some e ∧ S.Steps t is u ∧
    (∀ i ∈ k.instrs, i.slot? = none → ∀ x, i.result = some x → x.index < n) ∧ S.Ends n u e

theorem Setting.Ahead.next {S : Setting} {k : Block} {t : Known} {i : Instr} {is : List Instr}
    (h : S.Ahead k t (i :: is)) : ∃ t', S.Step t i t' ∧ S.Ahead k t' is := by
  obtain ⟨u, e, n, he, ⟨t', hstep, hsteps⟩, hbound, hends⟩ := h
  exact ⟨t', hstep, u, e, n, he, hsteps, hbound, hends⟩

theorem Setting.Ahead.ends {S : Setting} {k : Block} {t : Known} (h : S.Ahead k t []) : ∃ e n, k.terminator = some e ∧
    (∀ i ∈ k.instrs, i.slot? = none → ∀ x, i.result = some x → x.index < n) ∧ S.Ends n t e := by
  obtain ⟨u, e, n, he, rfl, hbound, hends⟩ := h
  exact ⟨e, n, he, hbound, hends⟩

def Content.returned (ret : MachineType) : Content := if ret = .ptr then .owned else .plain ret

namespace Scene

def setting (X : Scene) (P : Plan) (f : Activation) : Setting := P.setting X.signature f.routine.ret

/-- An activation is somewhere in a block of its routine, and what is known there is true. -/
structure Stands (X : Scene) (P : Plan) (t : Known) (f : Activation) (slots : Nat → Register → Option Value)
    (heap : List Buffer) : Prop where
  routine : f.routine ∈ X.assembly.routines
  plan : X.Plans P f.routine
  block : f.block ∈ f.routine.blocks
  rest : f.rest <:+ f.block.instrs
  alive : t.dead = false
  agrees : Agrees X.assembly P.frame P.birth t f.id f.registers (slots f.id) heap

def Waits (X : Scene) (callee : Routine) (f : Activation) (slots : Nat → Register → Option Value) (heap : List Buffer) :
    Prop :=
  ∃ P t i is r, X.Stands P t f slots heap ∧ f.rest = i :: is ∧ i.result = some r ∧ (X.setting P f).Fresh t r ∧
    (callee.ret = .i64 ∨ callee.ret = .ptr) ∧
    (X.setting P f).Ahead f.block (t.define r (.returned callee.ret)) is

/-- Each activation was called by the next, and the last is that of the top level. -/
def Stacked (X : Scene) (slots : Nat → Register → Option Value) (heap : List Buffer) :
    Activation → List Activation → Prop
  | f, [] => f.routine.ret = .i32
  | f, g :: gs => g.id < f.id ∧ X.Waits f.routine g slots heap ∧ X.Stacked slots heap g gs

/-- Everything around the running activation is in order. -/
structure Nested (X : Scene) (m : Machine) : Prop where
  stacked : X.Stacked m.slots m.heap m.running m.callers
  fresh : m.running.id < m.fresh
  owners : ∀ o b, Owns m.heap o b → o < m.fresh

structure Sound (X : Scene) (m : Machine) : Prop extends X.Nested m where
  running : ∃ P t, X.Stands P t m.running m.slots m.heap ∧ (X.setting P m.running).Ahead m.running.block t m.running.rest

/-! ## Callers are left alone -/

variable {X : Scene} {slots slots' : Nat → Register → Option Value} {heap heap' : List Buffer}

theorem Stands.frame {P : Plan} {t : Known} {f : Activation} (h : X.Stands P t f slots heap)
    (hslots : slots' f.id = slots f.id) (howns : ∀ o b, o ≤ f.id → (Owns heap' o b ↔ Owns heap o b)) :
    X.Stands P t f slots' heap' := by
  refine ⟨h.routine, h.plan, h.block, h.rest, h.alive, ?_⟩
  rw [hslots]
  exact h.agrees.heap_changes (fun b => howns f.id b (Nat.le_refl _)) fun b o ho hb => (howns o b (by omega)).2 hb

theorem Stacked.frame : ∀ {gs : List Activation} {f f' : Activation}, X.Stacked slots heap f gs → f'.id = f.id →
    f'.routine = f.routine → (∀ i, i < f.id → slots' i = slots i) →
    (∀ o b, o < f.id → (Owns heap' o b ↔ Owns heap o b)) → X.Stacked slots' heap' f' gs
  | [], f, f', h, _, hroutine, _, _ => by
    show f'.routine.ret = .i32
    rw [hroutine]
    exact h
  | g :: gs, f, f', ⟨hlt, hwaits, hstacked⟩, hid, hroutine, hslots, howns => by
    obtain ⟨P, t, i, is, r, hstands, hmore⟩ := hwaits
    refine ⟨hid ▸ hlt, ?_, ?_⟩
    · rw [hroutine]
      exact ⟨P, t, i, is, r, hstands.frame (hslots g.id hlt) fun o b ho => howns o b (by omega), hmore⟩
    · exact hstacked.frame rfl rfl (fun i hi => hslots i (by omega)) fun o b ho => howns o b (by omega)

end Scene

/-! ## The running activation -/

/-- The machines differ in the slots and the buffers of the running activation only.  A later activation, which is no
more, may have lost a buffer to it. -/
structure Machine.Beside (m m' : Machine) : Prop where
  running : m'.running = m.running
  callers : m'.callers = m.callers
  fresh : m'.fresh = m.fresh
  slots : ∀ i, i ≠ m.running.id → m'.slots i = m.slots i
  owns_below : ∀ o b, o < m.running.id → (Owns m'.heap o b ↔ Owns m.heap o b)
  owns : ∀ o b, o ≠ m.running.id → Owns m'.heap o b → Owns m.heap o b

theorem Machine.Beside.of_iff {m m' : Machine} (hrunning : m'.running = m.running) (hcallers : m'.callers = m.callers)
    (hfresh : m'.fresh = m.fresh) (hslots : ∀ i, i ≠ m.running.id → m'.slots i = m.slots i)
    (howns : ∀ o b, o ≠ m.running.id → (Owns m'.heap o b ↔ Owns m.heap o b)) : m.Beside m' :=
  ⟨hrunning, hcallers, hfresh, hslots, fun o b ho => howns o b (by omega), fun o b ho => (howns o b ho).1⟩

theorem Machine.SameLives.beside {m m' : Machine} (h : m.SameLives m') : m.Beside m' :=
  .of_iff h.running h.callers h.fresh (fun _ _ => by rw [h.slots]) fun o b _ => h.owns o b

namespace Scene
variable {X : Scene} {m m' : Machine} {P : Plan} {t t' : Known} {i : Instr} {is : List Instr}

theorem Nested.owners_lt (h : X.Nested m) (hm : m.Beside m') : ∀ o b, Owns m'.heap o b → o < m.fresh := by
  intro o b hb
  by_cases ho : o = m.running.id
  · rw [ho]
    exact h.fresh
  · exact h.owners o b (hm.owns o b ho hb)

/-- **An instruction is done**: it is enough that what is known after it is true of the running activation. -/
theorem Nested.finish (h : X.Nested m) (hstands : X.Stands P t m.running m.slots m.heap) (hrest : m.running.rest = i :: is)
    (hm : m.Beside m') (result : Option Register) (v : Value) (hahead : (X.setting P m.running).Ahead m.running.block t' is)
    (halive : t'.dead = false)
    (hagrees : Agrees X.assembly P.frame P.birth t' m.running.id
      (result.elim m.running.registers fun r => override m.running.registers r v) (m'.slots m.running.id) m'.heap) :
    X.Sound (m'.finish result v) := by
  have hrunning : (m'.finish result v).running = { m.running with
      rest := is
      registers := result.elim m.running.registers fun r => override m.running.registers r v } := by
    rw [Machine.finish, hm.running, hrest]
    rfl
  refine ⟨⟨?_, ?_, ?_⟩, P, t', ?_, ?_⟩
  · rw [hrunning]
    show X.Stacked m'.slots m'.heap _ m'.callers
    rw [hm.callers]
    exact h.stacked.frame rfl rfl (fun j hj => hm.slots j (by omega)) fun o b ho => hm.owns_below o b ho
  · rw [hrunning]
    show m.running.id < m'.fresh
    rw [hm.fresh]
    exact h.fresh
  · show ∀ o b, Owns m'.heap o b → o < m'.fresh
    rw [hm.fresh]
    exact h.owners_lt hm
  · rw [hrunning]
    refine ⟨hstands.routine, hstands.plan, hstands.block, ?_, halive, hagrees⟩
    have hsuffix := hstands.rest
    rw [hrest] at hsuffix
    exact (List.suffix_cons i is).trans hsuffix
  · rw [hrunning]
    exact hahead

end Scene
end QuillLang
