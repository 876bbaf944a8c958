import Mathlib.Data.List.Nodup
import QuillLang.Proofs.Meaning.Expr
/-!
# Bodies on the machine

A statement becomes code that begins at one point of a routine and ends at another, with jumps in between.  Here is what
such code may be relied on to do (`Stage.Runs`): from its first point the machine follows the statement, and it is at the
last point when the statement goes on, or about to leave the routine when the statement returns.  The values of the
variables are in the slots throughout, and the slots of other activations are not touched.
-/
namespace QuillLang

/-- A point in a routine: what is still to be run of a block, and how the block ends. -/
structure Point where
  rest : List Instr
  terminator : Option Terminator

/-- A routine that runs.  Its blocks are without the code that makes the slots of its variables. -/
structure Stage where
  assembly : Assembly
  routine : Routine
  blocks : List Block
  frame : Frame
  /-- A number that the routine returns, as the machine has it. -/
  result : Int64 → Value

/-- The format of a printed number, which is the only text in programs of numbers. -/
def numberFormat : Global := ⟨".str.0", "%lld\n"⟩

/-- What other activations see of the run from one machine to another: nothing. -/
structure Machine.Spares (m m' : Machine) : Prop where
  id : m'.running.id = m.running.id
  callers : m'.callers = m.callers
  slots : ∀ i < m.fresh, i ≠ m.running.id → m'.slots i = m.slots i
  fresh : m.fresh ≤ m'.fresh

namespace Machine.Spares
variable {m m' m'' : Machine}

theorem refl (m : Machine) : m.Spares m := ⟨rfl, rfl, fun _ _ _ => rfl, Nat.le_refl _⟩

theorem trans (h : m.Spares m') (h' : m'.Spares m'') : m.Spares m'' where
  id := h'.id.trans h.id
  callers := h'.callers.trans h.callers
  slots i hi hne := (h'.slots i (Nat.lt_of_lt_of_le hi h.fresh) (by rw [h.id]; exact hne)).trans (h.slots i hi hne)
  fresh := Nat.le_trans h.fresh h'.fresh

end Machine.Spares

def Machine.Leaving (a : Assembly) (v : Value) (m : Machine) : Prop :=
  m.running.rest = [] ∧ ∃ ty o, m.running.block.terminator = some (.ret (some (ty, o))) ∧ m.eval a ty o = .ok v

namespace Stage

structure Sound (S : Stage) : Prop where
  tail : S.routine.blocks.tail = S.blocks.tail
  ids : (S.routine.blocks.map Block.id).Nodup
  names : (S.frame.map Slot.name).Nodup
  registers : (S.frame.map Slot.register).Nodup
  globals : ∀ g ∈ S.assembly.globals, g = numberFormat
  printf : ∃ f, S.assembly.routine? "printf" = some f ∧ f.isExternal = true

structure At (S : Stage) (P : Point) (vars : Vars) (m : Machine) : Prop where
  routine : m.running.routine = S.routine
  rest : m.running.rest = P.rest
  terminator : m.running.block.terminator = P.terminator
  holds : S.frame.Holds vars m
  fresh : m.running.id < m.fresh

def Target (S : Stage) (id : BlockId) (P : Point) : Prop :=
  ∃ label, (⟨id, label, P.rest, P.terminator⟩ : Block) ∈ S.blocks.tail

def Arrives (S : Stage) (P : Point) : Flow → Machine → Prop
  | .goes vars, m => S.At P vars m
  | .returns v, m => m.Leaving S.assembly (S.result v)

/-- The code between two points computes an effect and leaves the variables as they are. -/
def Evaluates {α : Type} (S : Stage) (n : Nat) (x : Vars → Effect α) (post : Registers → α → Prop) (P P' : Point) : Prop :=
  ∀ m vars, S.At P vars m → m.Follows S.assembly n (x vars) fun v m' =>
    m.Spares m' ∧ S.At P' vars m' ∧ post m'.running.registers v

/-- The code between two points does what a statement means. -/
def Runs (S : Stage) (n : Nat) (x : Vars → Effect Flow) (P P' : Point) : Prop :=
  ∀ m vars, S.At P vars m → m.Follows S.assembly n (x vars) fun flow m' => m.Spares m' ∧ S.Arrives P' flow m'

/-- One step that prints nothing leads to a point. -/
def StepsTo (S : Stage) (m : Machine) (P : Point) (vars : Vars) : Prop :=
  ∃ m', (∀ w, m.step S.assembly w = .ok m') ∧ m'.output = m.output ∧ m'.running.registers = m.running.registers ∧
    m.Spares m' ∧ S.At P vars m'

variable {S : Stage} {n : Nat} {P P' P'' : Point} {vars : Vars} {m : Machine} {α β : Type}

theorem StepsTo.follows {x : Effect α} {Q : α → Machine → Prop} (h : S.StepsTo m P vars)
    (hrest : ∀ m', S.At P vars m' → m'.running.registers = m.running.registers →
      m'.Follows S.assembly n x fun v m'' => m'.Spares m'' ∧ Q v m'') :
    m.Follows S.assembly (n + 1) x fun v m' => m.Spares m' ∧ Q v m' := by
  obtain ⟨m', hstep, hout, hregs, hspares, hat⟩ := h
  refine .step hstep hout ((hrest m' hat hregs).imp ?_)
  rintro v m'' ⟨hspares', hq⟩
  exact ⟨hspares.trans hspares', hq⟩

/-! ## Straight code -/

def Clear (S : Stage) (lo hi : Nat) : Prop := ∀ x ∈ S.frame, x.register.index < lo ∨ hi ≤ x.register.index

theorem At.resume (h : S.At P vars m) {lo hi : Nat} {regs : Registers}
    (hregs : Registers.SameBut lo hi m.running.registers regs) (hclear : S.Clear lo hi) (rest : List Instr) :
    S.At ⟨rest, P.terminator⟩ vars (m.resume rest regs) := by
  refine ⟨h.routine, rfl, h.terminator, fun x hx => ?_, h.fresh⟩
  obtain ⟨hreg, hslot⟩ := h.holds x hx
  exact ⟨(hregs x.register (hclear x hx)).trans hreg, hslot⟩

theorem At.code {F : Frame} {lo hi : Nat} {pre : Registers → Prop} {is : List Instr} {x : Vars → Effect α}
    {post : Registers → α → Prop} (hcode : Code F lo hi pre is x post) (hF : ∀ s ∈ F, s ∈ S.frame) (hclear : S.Clear lo hi)
    (h : S.At ⟨is ++ P.rest, P.terminator⟩ vars m) (hpre : pre m.running.registers) :
    m.Follows S.assembly n (x vars) fun v m' => m.Spares m' ∧ S.At P vars m' ∧ post m'.running.registers v := by
  refine (hcode S.assembly n m vars P.rest h.rest (fun s hs => h.holds s (hF s hs)) hpre).imp ?_
  rintro v m' ⟨regs, rfl, hsame, hpost⟩
  exact ⟨⟨rfl, rfl, fun _ _ _ => rfl, Nat.le_refl _⟩, h.resume hsame hclear P.rest, hpost⟩

theorem Evaluates.code {F : Frame} {lo hi : Nat} {is : List Instr} {x : Vars → Effect α} {y : α → Vars → Effect β}
    {post : Registers → α → Prop} {R : Registers → β → Prop}
    (hx : S.Evaluates n x post P ⟨is ++ P'.rest, P'.terminator⟩)
    (hcode : ∀ v, Code F lo hi (fun regs => post regs v) is (y v) R) (hF : ∀ s ∈ F, s ∈ S.frame) (hclear : S.Clear lo hi) :
    S.Evaluates n (fun vars => x vars >>= fun v => y v vars) R P P' := by
  intro m vars hat
  refine (hx m vars hat).bind ?_
  rintro v m' ⟨hspares, hat', hpost⟩
  refine (hat'.code (hcode v) hF hclear hpost).imp ?_
  rintro u m'' ⟨hspares', hat'', hr⟩
  exact ⟨hspares.trans hspares', hat'', hr⟩

/-! ## Single steps -/

theorem At.store (hS : S.Sound) {slot : Slot} {o : Operand} {rest : List Instr} {t : Option Terminator} {v : Int64}
    (h : S.At ⟨⟨none, .store .i64 o (.register slot.register)⟩ :: rest, t⟩ vars m) (hslot : slot ∈ S.frame)
    (ho : o.Number m.running.registers v) : S.StepsTo m ⟨rest, t⟩ (vars.set slot.name v) := by
  have hvalue : m.eval S.assembly .i64 o = .ok (.i64 v) := Operand.Denotes.eval ho
  obtain ⟨hreg, -⟩ := h.holds slot hslot
  have hperform : ∀ w, m.step S.assembly w =
      .ok ((m.setSlot m.running.id slot.register (.i64 v)).finish none (.i64 v)) := by
    intro w
    have haddress : m.pointer S.assembly (.register slot.register) = .ok (.slot m.running.id slot.register) := by
      simp [Machine.pointer, Machine.eval, hreg, Value.type, bind, Except.bind]
    rw [Machine.step_eq_perform h.rest]
    simp [Machine.perform, hvalue, haddress, Machine.write, bind, Except.bind]
  refine ⟨_, hperform, rfl, rfl, ⟨rfl, rfl, fun i _ hne => ?_, Nat.le_refl _⟩, ⟨h.routine, ?_, h.terminator, ?_, h.fresh⟩⟩
  · simp [Machine.finish, Machine.setSlot, hne]
  · show m.running.rest.tail = rest
    rw [h.rest]
    rfl
  · intro x hx
    obtain ⟨hxreg, hxslot⟩ := h.holds x hx
    refine ⟨hxreg, ?_⟩
    simp only [Machine.finish, Machine.setSlot, if_true, override, Vars.set]
    by_cases hxs : x = slot
    · rw [hxs, if_pos rfl, if_pos rfl]
    · have hr : x.register ≠ slot.register := fun h => hxs (List.inj_on_of_nodup_map hS.registers hx hslot h)
      have hn : x.name ≠ slot.name := fun h => hxs (List.inj_on_of_nodup_map hS.names hx hslot h)
      rw [if_neg hr, if_neg hn]
      exact hxslot

theorem At.goto (hS : S.Sound) (h : S.At P vars m) {id : BlockId} (ht : S.Target id P') :
    ∃ m', m.goto id = .ok m' ∧ m'.output = m.output ∧ m'.running.registers = m.running.registers ∧ m.Spares m' ∧
      S.At P' vars m' := by
  obtain ⟨label, hmem⟩ := ht
  rw [← hS.tail] at hmem
  have hmem := List.mem_of_mem_tail hmem
  obtain ⟨k, hk⟩ : ∃ k, S.routine.blocks.find? (fun k => k.id == id) = some k :=
    Option.isSome_iff_exists.1 (List.find?_isSome.2 ⟨_, hmem, by simp⟩)
  have hid : k.id = id := by simpa using List.find?_some hk
  have hblock := List.inj_on_of_nodup_map hS.ids (List.mem_of_find?_eq_some hk) hmem hid
  have hinstrs : k.instrs = P'.rest := by rw [hblock]
  have hterminator : k.terminator = P'.terminator := by rw [hblock]
  refine ⟨{ m with running := { m.running with block := k, rest := k.instrs } }, ?_, rfl, rfl,
    ⟨rfl, rfl, fun _ _ _ => rfl, Nat.le_refl _⟩, ⟨h.routine, hinstrs, hterminator, h.holds, h.fresh⟩⟩
  unfold Machine.goto
  rw [h.routine, hk]

theorem At.step_eq_conclude {t : Option Terminator} (h : S.At ⟨[], t⟩ vars m) (w : Answer) :
    m.step S.assembly w = m.conclude S.assembly := by
  unfold Machine.step
  rw [h.rest]

theorem At.jump (hS : S.Sound) {id : BlockId} (h : S.At ⟨[], some (.br id)⟩ vars m) (ht : S.Target id P) :
    S.StepsTo m P vars := by
  obtain ⟨m', hgoto, hmoved⟩ := h.goto hS ht
  refine ⟨m', fun w => ?_, hmoved⟩
  rw [h.step_eq_conclude, Machine.conclude, h.terminator]
  exact hgoto

theorem At.branch (hS : S.Sound) {o : Operand} {yes no : BlockId} {c : Bool}
    (h : S.At ⟨[], some (.condBr o yes no)⟩ vars m) (ho : o.Denotes m.running.registers (.i1 c))
    (ht : S.Target (if c then yes else no) P) : S.StepsTo m P vars := by
  obtain ⟨m', hgoto, hmoved⟩ := h.goto hS ht
  refine ⟨m', fun w => ?_, hmoved⟩
  have hcond : m.eval S.assembly .i1 o = .ok (.i1 c) := ho.eval
  rw [h.step_eq_conclude, Machine.conclude, h.terminator]
  simp only [hcond, bind, Except.bind]
  exact hgoto

/-! ## Statements -/

theorem Runs.skip : S.Runs n (fun vars => pure (.goes vars)) P P := fun m _ hat => .pure ⟨.refl m, hat⟩

theorem Runs.seq {x y : Vars → Effect Flow} (hx : S.Runs n x P P') (hy : S.Runs n y P' P'') :
    S.Runs n (fun vars => do
      match ← x vars with
      | .goes vars => y vars
      | .returns v => pure (.returns v)) P P'' := by
  intro m vars hat
  refine (hx m vars hat).bind ?_
  rintro flow m' ⟨hspares, harrives⟩
  cases flow with
  | goes vars' =>
    refine (hy m' vars' harrives).imp ?_
    rintro flow m'' ⟨hspares', harrives'⟩
    exact ⟨hspares.trans hspares', harrives'⟩
  | returns v => exact .pure ⟨hspares, harrives⟩

theorem Evaluates.run {x : Vars → Effect α} {post : Registers → α → Prop} {y : α → Vars → Effect Flow}
    (hx : S.Evaluates n x post P P')
    (hy : ∀ v m vars, S.At P' vars m → post m.running.registers v →
      m.Follows S.assembly n (y v vars) fun flow m' => m.Spares m' ∧ S.Arrives P'' flow m') :
    S.Runs n (fun vars => x vars >>= fun v => y v vars) P P'' := by
  intro m vars hat
  refine (hx m vars hat).bind ?_
  rintro v m' ⟨hspares, hat', hpost⟩
  refine (hy v m' vars hat' hpost).imp ?_
  rintro flow m'' ⟨hspares', harrives⟩
  exact ⟨hspares.trans hspares', harrives⟩

theorem Runs.jump (hS : S.Sound) {x : Vars → Effect Flow} {id : BlockId} (hx : S.Runs n x P ⟨[], some (.br id)⟩)
    (ht : S.Target id P') : S.Runs n x P P' := by
  have hskip : S.Runs n (fun vars => pure (.goes vars)) ⟨[], some (.br id)⟩ P' := by
    intro m vars hat
    exact ((hat.jump hS ht).follows fun m' hat' _ => .pure ⟨.refl m', hat'⟩).le (Nat.le_succ n)
  have hseq := hx.seq hskip
  have heq : (fun vars => do
      match ← x vars with
      | .goes vars => pure (.goes vars)
      | .returns v => pure (.returns v)) = x := by
    funext vars
    refine Eq.trans ?_ (bind_pure (x vars))
    congr 1
    funext flow
    cases flow <;> rfl
  rw [heq] at hseq
  exact hseq

theorem test_bind (x : Effect Int64) (yes no : Effect β) : (x >>= fun v => if v = 0 then no else yes) =
    (x >>= fun v => pure (decide (v ≠ 0))) >>= fun c => if c then yes else no := by
  rw [bind_assoc]
  congr 1
  funext v
  rw [pure_bind]
  by_cases hv : v = 0
  · simp [hv]
  · simp [hv]

section Tests
variable {test : Vars → Effect Int64} {body : Vars → Effect Flow} {o : Operand} {cond yes no : BlockId}
  {Pcond Pbody Pend : Point}

theorem Evaluates.branch (hS : S.Sound)
    (htest : S.Evaluates n (fun vars => test vars >>= fun v => pure (decide (v ≠ 0)))
      (fun regs c => o.Denotes regs (.i1 c)) Pcond ⟨[], some (.condBr o yes no)⟩)
    (hyes : S.Target yes Pbody) (hno : S.Target no Pend) {x y : Vars → Effect Flow} (hx : S.Runs n x Pbody P)
    (hy : S.Runs n y Pend P) :
    S.Runs n (fun vars => test vars >>= fun v => if v = 0 then y vars else x vars) Pcond P := by
  simp only [test_bind]
  refine Evaluates.run (y := fun c vars => if c = true then x vars else y vars) htest fun c m vars hat ho => ?_
  cases c with
  | true => exact ((hat.branch hS ho hyes).follows fun m' hat' _ => hx m' vars hat').le (Nat.le_succ n)
  | false => exact ((hat.branch hS ho hno).follows fun m' hat' _ => hy m' vars hat').le (Nat.le_succ n)

theorem Runs.when (hS : S.Sound)
    (htest : S.Evaluates n (fun vars => test vars >>= fun v => pure (decide (v ≠ 0)))
      (fun regs c => o.Denotes regs (.i1 c)) Pcond ⟨[], some (.condBr o yes no)⟩)
    (hbody : S.Runs n body Pbody ⟨[], some (.br no)⟩) (hcond : S.Target cond Pcond) (hyes : S.Target yes Pbody)
    (hno : S.Target no Pend) :
    S.Runs n (fun vars => test vars >>= fun v => if v = 0 then pure (.goes vars) else body vars)
      ⟨[], some (.br cond)⟩ Pend := by
  intro m vars hat
  have hbranch := htest.branch hS hyes hno (hbody.jump hS hno) .skip
  exact ((hat.jump hS hcond).follows fun m' hat' _ => hbranch m' vars hat').le (Nat.le_succ n)

theorem Evaluates.mono {x : Vars → Effect α} {post : Registers → α → Prop} (h : S.Evaluates n x post P P') {k : Nat}
    (hk : k ≤ n) : S.Evaluates k x post P P' := fun m vars hat => (h m vars hat).le hk

theorem Runs.mono {x : Vars → Effect Flow} (h : S.Runs n x P P') {k : Nat} (hk : k ≤ n) : S.Runs k x P P' :=
  fun m vars hat => (h m vars hat).le hk

/-- **A loop does its rounds.**  Each takes a step at least, the jump to the test, so rounds without end are steps without
end. -/
theorem Runs.rounds (hS : S.Sound)
    (htest : S.Evaluates n (fun vars => test vars >>= fun v => pure (decide (v ≠ 0)))
      (fun regs c => o.Denotes regs (.i1 c)) Pcond ⟨[], some (.condBr o yes no)⟩)
    (hbody : S.Runs n body Pbody ⟨[], some (.br cond)⟩) (hcond : S.Target cond Pcond) (hyes : S.Target yes Pbody)
    (hno : S.Target no Pend) : ∀ k ≤ n, S.Runs k (rounds test body k) ⟨[], some (.br cond)⟩ Pend
  | 0, _ => fun m _ _ => ⟨0, m, Nat.le_refl 0, .refl m, (List.append_nil _).symm⟩
  | k + 1, hk => by
    intro m vars hat
    have hk := Nat.le_of_succ_le hk
    have hrounds := (hbody.mono hk).seq (Runs.rounds hS htest hbody hcond hyes hno k hk)
    have hbranch := (htest.mono hk).branch hS hyes hno hrounds .skip
    exact (hat.jump hS hcond).follows fun m' hat' _ => hbranch m' vars hat'

end Tests

theorem Runs.store (hS : S.Sound) {x : Vars → Effect Int64} {o : Operand} {slot : Slot} (hslot : slot ∈ S.frame)
    (hx : S.Evaluates n x (fun regs v => o.Number regs v) P
      ⟨⟨none, .store .i64 o (.register slot.register)⟩ :: P'.rest, P'.terminator⟩) :
    S.Runs n (fun vars => x vars >>= fun v => pure (.goes (vars.set slot.name v))) P P' := by
  refine hx.run (y := fun v vars => pure (.goes (vars.set slot.name v))) fun v m vars hat ho => ?_
  exact ((hat.store hS hslot ho).follows fun m' hat' _ => .pure ⟨.refl m', hat'⟩).le (Nat.le_succ n)

theorem Runs.ret {x : Vars → Effect Int64} {ty : MachineType} {o : Operand} (hty : ∀ v, (S.result v).type = ty)
    (hx : S.Evaluates n x (fun regs v => o.Denotes regs (S.result v)) P ⟨[], some (.ret (some (ty, o)))⟩) :
    S.Runs n (fun vars => x vars >>= fun v => pure (.returns v)) P P' := by
  refine hx.run (y := fun v vars => pure (.returns v)) fun v m vars hat ho => .pure ⟨.refl m, hat.rest, ty, o, ?_, ?_⟩
  · exact hat.terminator
  · rw [← hty v]
    exact ho.eval

/-! ## Printing -/

theorem Library.format_number (v : Int64) :
    Library.format ((Utf8.bytes numberFormat.content).takeWhile (· ≠ 0)) [.other (.i64 v)] = printed [v] := by
  have hbytes : (Utf8.bytes numberFormat.content).takeWhile (· ≠ 0) = [37, 108, 108, 100, 10] := by decide
  rw [hbytes]
  simp [Library.format, printed]

theorem Sound.text_format (hS : S.Sound) (hformat : numberFormat ∈ S.assembly.globals) (m : Machine) :
    m.text S.assembly (.global numberFormat.name) = .ok ((Utf8.bytes numberFormat.content).takeWhile (· ≠ 0)) := by
  obtain ⟨g, hg⟩ : ∃ g, S.assembly.globals.find? (fun g => g.name == numberFormat.name) = some g :=
    Option.isSome_iff_exists.1 (List.find?_isSome.2 ⟨_, hformat, by simp⟩)
  obtain rfl := hS.globals g (List.mem_of_find?_eq_some hg)
  unfold Machine.text
  dsimp only
  rw [hg]

theorem Sound.callLibrary_printf (hS : S.Sound) (hformat : numberFormat ∈ S.assembly.globals) (m : Machine) (w : Answer)
    (v : Int64) :
    m.callLibrary S.assembly w "printf" .i32 [.ptr (.global numberFormat.name), .i64 v] =
      .ok ({ m with output := m.output ++ printed [v] }, .i32 (Int32.ofNat (printed [v]).length)) := by
  have hname : numberFormat.name ∈ S.assembly.globals.map Global.name := List.mem_map_of_mem hformat
  have hdangles : m.dangles S.assembly (.global numberFormat.name) = false := by
    simp only [Machine.dangles, hname, not_true_eq_false, decide_false]
  have hargs : [Value.ptr (.global numberFormat.name), .i64 v].mapM (m.argument S.assembly) = .ok
      [.text (.global numberFormat.name) ((Utf8.bytes numberFormat.content).takeWhile (· ≠ 0)), .other (.i64 v)] := by
    simp [Machine.argument, hS.text_format hformat m, bind, Except.bind, pure, Except.pure]
  have heffect : ∀ args, Library.effect w "printf" .i32 (.text (.global numberFormat.name)
      ((Utf8.bytes numberFormat.content).takeWhile (· ≠ 0)) :: args) = some ⟨none,
        Library.format ((Utf8.bytes numberFormat.content).takeWhile (· ≠ 0)) args, _⟩ := fun _ => rfl
  unfold Machine.callLibrary
  rw [hargs]
  simp only [List.any_cons, Machine.badArgument, hdangles, bind, Except.bind, heffect, Library.format_number]
  rfl

theorem At.print (hS : S.Sound) (hformat : numberFormat ∈ S.assembly.globals) {r : Register} {o : Operand}
    {c : Option (List MachineType)} {v : Int64}
    (h : S.At ⟨⟨some r, .call "printf" .i32 [(.ptr, .global numberFormat.name), (.i64, o)] c⟩ :: P.rest, P.terminator⟩
      vars m)
    (ho : o.Number m.running.registers v) (hr : S.Clear r.index (r.index + 1)) :
    m.Follows S.assembly n (Effect.print v) fun _ m' => m.Spares m' ∧ S.At P vars m' := by
  have hvalue : m.eval S.assembly .i64 o = .ok (.i64 v) := Operand.Denotes.eval ho
  have haddress : m.eval S.assembly .ptr (.global numberFormat.name) = .ok (.ptr (.global numberFormat.name)) := by
    have hname : numberFormat.name ∈ S.assembly.globals.map Global.name := List.mem_map_of_mem hformat
    unfold Machine.eval
    exact if_pos ⟨rfl, hname⟩
  obtain ⟨f, hf, hexternal⟩ := hS.printf
  have hstep : ∀ w, m.step S.assembly w =
      .ok ({ m with output := m.output ++ printed [v] }.finish (some r) (.i32 (Int32.ofNat (printed [v]).length))) := by
    intro w
    rw [Machine.step_eq_perform h.rest]
    simp [Machine.perform, Machine.call, hvalue, haddress, hf, hexternal, Machine.callExternal,
      hS.callLibrary_printf hformat, bind, Except.bind, pure, Except.pure]
  refine ⟨1, _, .one hstep, rfl, ⟨rfl, rfl, fun _ _ _ => rfl, Nat.le_refl _⟩, ?_⟩
  have hat : S.At _ vars { m with output := m.output ++ printed [v] } :=
    ⟨h.routine, h.rest, h.terminator, h.holds, h.fresh⟩
  rw [Machine.finish_some (by exact h.rest)]
  exact hat.resume (.override r.index _ _) hr P.rest

theorem Runs.print (hS : S.Sound) (hformat : numberFormat ∈ S.assembly.globals) {x : Vars → Effect Int64} {r : Register}
    {o : Operand} {c : Option (List MachineType)} (hr : S.Clear r.index (r.index + 1))
    (hx : S.Evaluates n x (fun regs v => o.Number regs v) P
      ⟨⟨some r, .call "printf" .i32 [(.ptr, .global numberFormat.name), (.i64, o)] c⟩ :: P'.rest, P'.terminator⟩) :
    S.Runs n (fun vars => do let v ← x vars; Effect.print v; pure (.goes vars)) P P' := by
  refine hx.run (y := fun v vars => do Effect.print v; pure (.goes vars)) fun v m vars hat ho => ?_
  refine (hat.print hS hformat ho hr).bind ?_
  rintro _ m' ⟨hspares, hat'⟩
  exact .pure ⟨hspares, hat'⟩

/-! ## Calls -/

end Stage

structure Machine.Resumed (m : Machine) (rest : List Instr) (r : Register) (v : Int64) (m' : Machine) : Prop where
  running : m'.running =
    { m.running with rest := rest, registers := override m.running.registers r (.i64 v) }
  callers : m'.callers = m.callers
  slots : ∀ i < m.fresh, m'.slots i = m.slots i
  fresh : m.fresh ≤ m'.fresh

def Assembly.Answers (a : Assembly) (functions : Table FuncInfo) (call : String → List Int64 → Effect Int64) (n : Nat) :
    Prop :=
  ∀ name info, functions.get? name = some info → ∀ (vs : List Int64) (m : Machine) (r : Register) (rest : List Instr)
    (args : List (MachineType × Operand)) (c : Option (List MachineType)), vs.length = info.params.length →
    m.running.rest = ⟨some r, .call info.symbol .i64 args c⟩ :: rest →
    (args.mapM fun x => m.eval a x.1 x.2) = .ok (vs.map .i64) →
    m.Follows a n (call name vs) fun v m' => m.Resumed rest r v m'

namespace Stage
variable {S : Stage} {n : Nat} {P P' P'' : Point} {vars : Vars} {m : Machine}

theorem At.resumed {rest : List Instr} {r : Register} {v : Int64} {m' : Machine} (h : S.At P vars m)
    (hr : S.Clear r.index (r.index + 1)) (hm : m.Resumed rest r v m') :
    m.Spares m' ∧ S.At ⟨rest, P.terminator⟩ vars m' := by
  have hid : m'.running.id = m.running.id := by rw [hm.running]
  refine ⟨⟨hid, hm.callers, fun i hi _ => hm.slots i hi, hm.fresh⟩, ?_, ?_, ?_, fun x hx => ?_, ?_⟩
  · rw [hm.running]
    exact h.routine
  · rw [hm.running]
  · rw [hm.running]
    exact h.terminator
  · obtain ⟨hreg, hslot⟩ := h.holds x hx
    have hsame : override m.running.registers r (.i64 v) x.register = m.running.registers x.register :=
      Registers.SameBut.override r.index _ _ x.register (hr x hx)
    rw [hid, hm.slots _ h.fresh, hm.running]
    exact ⟨hsame.trans hreg, hslot⟩
  · rw [hid]
    exact Nat.lt_of_lt_of_le h.fresh hm.fresh

theorem Evaluates.call {functions : Table FuncInfo} {call : String → List Int64 → Effect Int64}
    (hcall : S.assembly.Answers functions call n) {name : String} {info : FuncInfo} (hinfo : functions.get? name = some info)
    {x : Vars → Effect (List Int64)} {os : List Operand} {tys : List MachineType} {r : Register}
    {c : Option (List MachineType)} (hos : os.length = info.params.length) (htys : ∀ ty ∈ tys, ty = .i64)
    (hr : S.Clear r.index (r.index + 1))
    (hx : S.Evaluates n x (fun regs vs => Lower.Numbers os regs vs) P
      ⟨⟨some r, .call info.symbol .i64 (Builder.typeArgs tys os) c⟩ :: P'.rest, P'.terminator⟩) :
    S.Evaluates n (fun vars => x vars >>= fun vs => call name vs) (fun regs v => (Operand.register r).Number regs v) P
      P' := by
  intro m vars hat
  refine (hx m vars hat).bind ?_
  rintro vs m' ⟨hspares, hat', hvs⟩
  refine (hcall name info hinfo vs m' r P'.rest _ c (hvs.length_eq.symm.trans hos) hat'.rest (hvs.eval htys)).imp ?_
  intro v m'' hm
  obtain ⟨hspares', hat''⟩ := hat'.resumed hr hm
  refine ⟨hspares.trans hspares', hat'', ?_⟩
  show m''.running.registers r = some (.i64 v)
  rw [hm.running]
  simp [override]

end Stage
end QuillLang
