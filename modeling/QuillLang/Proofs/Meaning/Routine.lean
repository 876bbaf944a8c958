import QuillLang.Proofs.Meaning.Stmt
/-!
# Bodies of numbers

A routine begins by making its slots and, if it is a function, by storing its arguments in them; then its body runs, and at
its end it is left with zero.  So a routine that is entered follows the body it was lowered from (`Routine.Follows`).
-/
namespace QuillLang

/-! ## Making the slots -/

/-- The slots of a frame are made, and nothing else is touched. -/
structure Machine.Prepared (F : Frame) (rest : List Instr) (m m' : Machine) : Prop where
  running : m'.running = { m.running with rest := rest, registers := m'.running.registers }
  callers : m'.callers = m.callers
  fresh : m'.fresh = m.fresh
  output : m'.output = m.output
  registers : ∀ r, r ∉ F.map Slot.register → m'.running.registers r = m.running.registers r
  own : ∀ r, r ∉ F.map Slot.register → m'.slots m.running.id r = m.slots m.running.id r
  others : ∀ i, i ≠ m.running.id → m'.slots i = m.slots i
  holds : F.Holds Vars.zero m'

def Machine.withSlot (m : Machine) (slot : Slot) (rest : List Instr) : Machine :=
  (m.setSlot m.running.id slot.register (.i64 0)).resume rest
    (override m.running.registers slot.register (.ptr (.slot m.running.id slot.register)))

theorem Machine.reaches_withSlot {a : Assembly} {m : Machine} {slot : Slot} (hkind : slot.kind = .int) {rest : List Instr}
    (hrest : m.running.rest = slot.prologue ++ rest) :
    m.Reaches a 2 (m.withSlot slot rest) := by
  unfold Slot.prologue at hrest
  rw [hkind] at hrest
  have hstep : ∀ w, m.step a w = .ok (m.resume (⟨none, .store .i64 (.int 0) (.register slot.register)⟩ :: rest)
      (override m.running.registers slot.register (.ptr (.slot m.running.id slot.register)))) := by
    intro w
    rw [Machine.step_eq_perform hrest]
    exact congrArg Except.ok (Machine.finish_some hrest _ _)
  refine (Machine.Reaches.one hstep).trans (.one fun w => ?_)
  rw [Machine.step_eq_perform rfl]
  simp [perform, eval, pointer, resume, override, Value.type, write, setSlot, finish, withSlot, bind, Except.bind]

theorem Machine.exists_prepared {a : Assembly} : ∀ (F : Frame), (∀ x ∈ F, x.kind = .int) → (F.map Slot.register).Nodup →
    ∀ (m : Machine) (rest : List Instr), m.running.rest = F.flatMap Slot.prologue ++ rest →
      ∃ k m', m.Reaches a k m' ∧ Prepared F rest m m'
  | [], _, _, m, rest, hrest => by
    refine ⟨0, m, .refl m, ?_, rfl, rfl, rfl, fun _ _ => rfl, fun _ _ => rfl, fun _ _ => rfl, by simp [Frame.Holds]⟩
    have hrest : rest = m.running.rest := hrest.symm
    rw [hrest]
  | slot :: F, hkinds, hnodup, m, rest, hrest => by
    rw [List.flatMap_cons, List.append_assoc] at hrest
    have hmade := reaches_withSlot (a := a) (hkinds slot List.mem_cons_self) hrest
    rw [List.map_cons, List.nodup_cons] at hnodup
    obtain ⟨k, m', hreach, h⟩ := exists_prepared (a := a) F (fun x hx => hkinds x (List.mem_cons_of_mem _ hx)) hnodup.2
      (m.withSlot slot (F.flatMap Slot.prologue ++ rest)) rest rfl
    refine ⟨2 + k, m', hmade.trans hreach, h.running, h.callers, h.fresh, h.output, fun r hr => ?_, fun r hr => ?_,
      fun i hi => ?_, fun x hx => ?_⟩
    · rw [List.map_cons, List.mem_cons, not_or] at hr
      rw [h.registers r hr.2]
      exact if_neg hr.1
    · rw [List.map_cons, List.mem_cons, not_or] at hr
      refine (h.own r hr.2).trans ?_
      simp [withSlot, resume, setSlot, override, hr.1]
    · refine (h.others i hi).trans ?_
      simp [withSlot, resume, setSlot, hi]
    · rcases List.mem_cons.1 hx with rfl | hx
      · have hid : m'.running.id = m.running.id := by rw [h.running]; rfl
        rw [hid]
        refine ⟨(h.registers _ hnodup.1).trans ?_, (h.own _ hnodup.1).trans ?_⟩
        · simp [withSlot, resume, override]
        · simp [withSlot, resume, setSlot, override, Vars.zero]
      · exact h.holds x hx

/-! ## Arguments -/

theorem Lower.Numbers.congr {regs regs' : Registers} : ∀ {os : List Operand} {vs : List Int64}, Lower.Numbers os regs vs →
    (∀ r, .register r ∈ os → regs' r = regs r) → Lower.Numbers os regs' vs
  | [], [], _, _ => trivial
  | o :: os, v :: vs, h, hregs => by
    refine ⟨?_, Lower.Numbers.congr h.2 fun r hr => hregs r (List.mem_cons_of_mem _ hr)⟩
    cases o with
    | register r => exact (hregs r List.mem_cons_self).trans h.1
    | int n => exact h.1
    | float _ => cases h.1
    | null => cases h.1
    | global _ => cases h.1

theorem Machine.numbers_arguments : ∀ {params : List (Register × MachineType)} {vs : List Int64},
    (params.map Prod.fst).Nodup → vs.length = params.length →
      Lower.Numbers ((params.map Prod.fst).map .register) (arguments params (vs.map .i64)) vs
  | [], [], _, _ => trivial
  | p :: params, v :: vs, hnodup, hlen => by
    rw [List.map_cons, List.nodup_cons] at hnodup
    have hrest := numbers_arguments hnodup.2 (Nat.succ.inj hlen)
    refine ⟨?_, hrest.congr fun r hr => ?_⟩
    · show arguments _ _ p.1 = _
      simp [arguments]
    · obtain ⟨s, hs, hsr⟩ := List.mem_map.1 hr
      cases hsr
      have hne : p.1 ≠ r := by
        rintro rfl
        exact hnodup.1 hs
      simp [arguments, hne]

def LowerState.Binds (σ : LowerState) (ps : List Ident) (rs : List Register) (σ' : LowerState) : Prop :=
  σ.Leads σ' fun S P P' => S.Sound → ∀ (n : Nat) (m : Machine) (vars : Vars) (vs : List Int64), S.At P vars m →
    Lower.Numbers (rs.map .register) m.running.registers vs →
    m.Follows S.assembly n (pure (Vars.ofArguments ps vs vars)) fun vars' m' => m.Spares m' ∧ S.At P' vars' m'

namespace Lower

theorem gives_bindParams : ∀ (ps : List Ident) (tys : List Ty) (rs : List Register) {σ : LowerState},
    (∀ ty ∈ tys, ty = .int) → ps.length = tys.length → ps.length = rs.length → σ.Ready →
    Gives (bindParams ps tys rs) σ fun _ σ' => σ'.Ready ∧ σ.Keeps σ' ∧ σ'.afterReturn = σ.afterReturn ∧ σ.Binds ps rs σ'
  | [], [], [], σ, _, _, _, hσ => by
    unfold bindParams
    exact .pure ⟨hσ, .refl σ, rfl, fun S P hP => ⟨P, hP, fun _ n m vars vs hat _ => .pure ⟨.refl m, hat⟩⟩⟩
  | p :: ps, ty :: tys, r :: rs, σ, htys, htlen, hrlen, hσ => by
    obtain rfl : ty = .int := htys ty List.mem_cons_self
    unfold bindParams
    refine (gives_declareSlot hσ p).bind ?_
    rintro ⟨slot, redeclared⟩ σ₁ ⟨hsilent, hslot, hname⟩
    refine Gives.bind (P := fun _ σ' =>
      σ' = σ₁.emitted [⟨none, .store .i64 (.register r) (.register slot.register)⟩] σ₁.builder.nextRegister) ?_ ?_
    · unfold storeSlot
      rw [hsilent.ready.kinds slot hslot]
      refine Gives.bind (.build (Q := fun o σ' => o = .register r ∧ σ' = σ₁) ⟨rfl, rfl⟩) ?_
      rintro _ _ ⟨rfl, rfl⟩
      exact .build rfl
    rintro _ _ rfl
    have hready := hsilent.ready.emitted (Nat.le_refl _) [⟨none, .store .i64 (.register r) (.register slot.register)⟩]
    refine (gives_bindParams ps tys rs (fun ty hty => htys ty (List.mem_cons_of_mem _ hty)) (Nat.succ.inj htlen)
      (Nat.succ.inj hrlen) hready).imp ?_
    rintro _ σ' ⟨hready', hkeeps, hdead, hbinds⟩
    refine ⟨hready', hsilent.keeps.trans ((LowerState.Keeps.emitted σ₁ _ _).trans hkeeps), hdead.trans hsilent.dead,
      fun S P' hP' => ?_⟩
    obtain ⟨P, hP, hfollows⟩ := hbinds S P' hP'
    have hstands := hP.of_emitted (Nat.le_refl _)
    refine ⟨_, hsilent.stands S _ hstands, fun hS n m vars vs hat hvs => ?_⟩
    cases vs with
    | nil => cases hvs
    | cons v vs =>
      have hstore := hat.store hS (hstands.mem_frame slot hslot) hvs.1
      rw [hname] at hstore
      refine (hstore.follows fun m' hat' hregs => hfollows hS n m' _ vs hat' ?_).le (Nat.le_succ n)
      rw [hregs]
      exact hvs.2
  | [], [], _ :: _, _, _, _, h, _ | [], _ :: _, _, _, _, h, _, _ | _ :: _, [], _, _, _, h, _, _
  | _ :: _, _ :: _, [], _, _, _, h, _ => by cases h

end Lower

/-! ## Running a body -/

structure Machine.Entered (r : Routine) (vs : List Int64) (m : Machine) : Prop where
  routine : m.running.routine = r
  block : r.blocks.head? = some m.running.block
  rest : m.running.rest = m.running.block.instrs
  registers : m.running.registers = arguments r.params (vs.map .i64)
  fresh : m.running.id < m.fresh

/-- A routine that is entered follows an effect, and is left with its value. -/
def Routine.Follows (r : Routine) (a : Assembly) (n : Nat) (x : List Int64 → Effect Int64) (out : Int64 → Value) : Prop :=
  ∀ m vs, Machine.Entered r vs m → vs.length = r.params.length →
    m.Follows a n (x vs) fun v m' => m.Spares m' ∧ m'.Leaving a (out v)

structure Assembly.Serves (a : Assembly) : Prop where
  globals : ∀ g ∈ a.globals, g = numberFormat
  printf : ∃ f, a.routine? "printf" = some f ∧ f.isExternal = true

/-- A routine does what a body means, wherever its calls do what they mean. -/
def Routine.Does (r : Routine) (functions : Table FuncInfo) (ret : Option Ty) (ps : List Ident) (body : List Stmt)
    (globals : List Global) : Prop :=
  ∀ a : Assembly, a.Serves → (∀ g ∈ globals, g ∈ a.globals) → (r.blocks.map Block.id).Nodup →
    ∀ (call : Calls) (n : Nat), a.Answers functions call n →
      r.Follows a n (fun vs => Stmt.runBody call n body (Vars.ofArguments ps vs Vars.zero)) (resultValue ret)

namespace Builder

theorem tail_withPrologue (r : Routine) (is : List Instr) : (withPrologue r is).blocks.tail = r.blocks.tail := by
  unfold withPrologue
  split
  · rfl
  · rename_i hblocks
    rw [hblocks]
    rfl

theorem head?_withPrologue {r : Routine} {entry : Block} {rest : List Block} (h : r.blocks = entry :: rest)
    (is : List Instr) : (withPrologue r is).blocks.head? = some { entry with instrs := is ++ entry.instrs } := by
  unfold withPrologue
  rw [h]
  rfl

theorem head_withPrologue (r : Routine) (is : List Instr) :
    { withPrologue r is with blocks := [] } = { r with blocks := [] } := by
  unfold withPrologue
  split
  · rfl
  · rfl

end Builder

/-- Once the slots are made, the routine is at its first point, all variables are zero, and the arguments are at hand. -/
theorem Machine.Entered.exists_at {S : Stage} {P : Point} {m : Machine} {vs : List Int64} {r : Routine} {entry : Block}
    {rest : List Block} (h : m.Entered S.routine vs) (hlen : vs.length = S.routine.params.length) (hS : S.Sound)
    (hr : S.routine = Builder.withPrologue r (S.frame.flatMap Slot.prologue)) (hblocks : r.blocks = entry :: rest)
    (hinstrs : entry.instrs = P.rest) (hterm : entry.terminator = P.terminator) (hkinds : ∀ x ∈ S.frame, x.kind = .int)
    (hparams : ∀ p ∈ S.routine.params, p.1 ∉ S.frame.map Slot.register) (hnodup : (S.routine.params.map Prod.fst).Nodup) :
    ∃ k m', m.Reaches S.assembly k m' ∧ m'.output = m.output ∧ m.Spares m' ∧ S.At P Vars.zero m' ∧
      Lower.Numbers ((S.routine.params.map Prod.fst).map .register) m'.running.registers vs := by
  have hblock := h.block
  rw [hr, Builder.head?_withPrologue hblocks, Option.some.injEq] at hblock
  have hrest : m.running.rest = S.frame.flatMap Slot.prologue ++ P.rest := by
    rw [h.rest, ← hblock, ← hinstrs]
  obtain ⟨k, m', hreach, hm'⟩ := Machine.exists_prepared (a := S.assembly) S.frame hkinds hS.registers m P.rest hrest
  have hid : m'.running.id = m.running.id := by rw [hm'.running]
  refine ⟨k, m', hreach, hm'.output, ⟨hid, hm'.callers, fun i _ hi => hm'.others i hi, Nat.le_of_eq hm'.fresh.symm⟩,
    ⟨?_, ?_, ?_, hm'.holds, ?_⟩, ?_⟩
  · rw [hm'.running]
    exact h.routine
  · rw [hm'.running]
  · rw [hm'.running, ← hterm]
    show m.running.block.terminator = entry.terminator
    rw [← hblock]
  · rw [hid, hm'.fresh]
    exact h.fresh
  · refine (Machine.numbers_arguments hnodup hlen).congr fun x hx => ?_
    obtain ⟨y, hy, hyx⟩ := List.mem_map.1 hx
    cases hyx
    obtain ⟨p, hp, rfl⟩ := List.mem_map.1 hy
    rw [hm'.registers _ (hparams p hp), h.registers]

namespace LowerState

structure Starts (σ : LowerState) (r : Routine) : Prop where
  routine : σ.builder.routine = some r
  blocks : r.blocks = []
  block : ∃ id label, σ.builder.block = some ⟨id, label, [], none⟩
  frame : σ.frames.current = []
  params : ∀ p ∈ r.params, p.1.index < σ.builder.nextRegister
  nodup : (r.params.map Prod.fst).Nodup

def closing (σ : LowerState) (r : Routine) (k : Block) (t : Terminator) : Routine :=
  Builder.withPrologue { r with blocks := r.blocks ++ [{ k with terminator := some t }] }
    (σ.frames.current.flatMap Slot.prologue)

theorem Starts.head {σ₁ σ₃ : LowerState} {r₀ r : Routine} (hstart : σ₁.Starts r₀) (hkeeps : σ₁.Keeps σ₃)
    (hr : σ₃.builder.routine = some r) (k : Block) (t : Terminator) : (σ₃.closing r k t).name = r₀.name ∧
      (σ₃.closing r k t).params = r₀.params ∧ (σ₃.closing r k t).isExternal = r₀.isExternal := by
  have hhead := hkeeps.head
  rw [hr, hstart.routine] at hhead
  have hsame : { σ₃.closing r k t with blocks := [] } = { r₀ with blocks := [] } :=
    (Builder.head_withPrologue _ _).trans (Option.some.inj hhead)
  rw [Routine.mk.injEq] at hsame
  exact ⟨hsame.1, hsame.2.1, hsame.2.2.2.2.1⟩

/-- The body of a routine was lowered, and its last block ends with `t`: a body that may run off its end gives zero. -/
def Ends (σ : LowerState) (t : Terminator) : Prop :=
  σ.afterReturn = true ∨ ∃ ty, t = .ret (some (ty, .int 0)) ∧
    ∀ (a : Assembly) (m : Machine), m.eval a ty (.int 0) = .ok (resultValue σ.ret 0)

theorem Starts.exists_entry {σ : LowerState} {r₀ : Routine} {S : Stage} {P : Point} (hstart : σ.Starts r₀)
    (h : σ.Stands S P) : ∃ id label later, S.blocks = ⟨id, label, P.rest, P.terminator⟩ :: later := by
  obtain ⟨id, label, hblock⟩ := hstart.block
  obtain ⟨r, k, later, hr, hk, -, hblocks⟩ := h.code
  rw [hstart.routine] at hr
  rw [hblock] at hk
  cases hr
  cases hk
  rw [hstart.blocks] at hblocks
  exact ⟨id, label, later, hblocks⟩

theorem Starts.params_apart {σ : LowerState} {r₀ : Routine} {S : Stage} {P : Point} (hstart : σ.Starts r₀)
    (h : σ.Stands S P) : ∀ p ∈ r₀.params, p.1 ∉ S.frame.map Slot.register := by
  intro p hp hmem
  obtain ⟨x, hx, hxp⟩ := List.mem_map.1 hmem
  obtain ⟨slots, hframe, hslots⟩ := h.frame
  rw [hframe, hstart.frame, List.nil_append] at hx
  have hge := hslots x hx
  have hlt := hstart.params p hp
  rw [hxp] at hge
  omega

theorem Made.follows_runBody {σ σ' : LowerState} {S : Stage} {P : Point} {t : Terminator} {body : List Stmt}
    (hmade : σ.Made (fun call n => Stmt.runAll call n body) σ') (hlive : σ.afterReturn = false) (hend : σ'.Ends t)
    (hresult : S.result = resultValue σ'.ret) {call : Calls} {n : Nat}
    (hruns : S.Runs n (Stmt.runAll call n body) P ⟨[], some t⟩) {m : Machine} {vars : Vars} (hat : S.At P vars m) :
    m.Follows S.assembly n (Stmt.runBody call n body vars) fun v m' =>
      m.Spares m' ∧ m'.Leaving S.assembly (S.result v) := by
  refine (hruns m vars hat).ended.bind ?_
  rintro flow m' ⟨hflow, hspares, harrives⟩
  cases flow with
  | returns v => exact .pure ⟨hspares, harrives⟩
  | goes vars' =>
    rcases hend with hdead | ⟨ty, rfl, heval⟩
    · rcases hmade.dead hdead with hdead | hnever
      · rw [hlive] at hdead
        cases hdead
      · exact absurd hflow (hnever call n vars vars')
    · refine .pure ⟨hspares, harrives.rest, ty, .int 0, harrives.terminator, ?_⟩
      rw [hresult]
      exact heval S.assembly m'

/-- **A routine does what the body means that it was lowered from.** -/
theorem Starts.does {σ₁ σ₂ σ₃ : LowerState} {r₀ r : Routine} {k : Block} {t : Terminator} {ps : List Ident}
    {body : List Stmt} (hstart : σ₁.Starts r₀) (hkeeps : σ₁.Keeps σ₂) (hbinds : σ₁.Binds ps (r₀.params.map Prod.fst) σ₂)
    (hlive : σ₂.afterReturn = false) (hmade : σ₂.Made (fun call n => Stmt.runAll call n body) σ₃)
    (hr : σ₃.builder.routine = some r) (hk : σ₃.builder.block = some k) (hterm : k.terminator = none)
    (hend : σ₃.Ends t) : (σ₃.closing r k t).Does σ₃.functions σ₃.ret ps body σ₃.builder.assembly.globals := by
  intro a ha hglobals hids call n hcall m vs hentered hlen
  let S : Stage := ⟨a, σ₃.closing r k t, r.blocks ++ [{ k with terminator := some t }], σ₃.frames.current,
    resultValue σ₃.ret⟩
  have hS : S.Sound :=
    ⟨Builder.tail_withPrologue _ _, hids, SlotTable.names_nodup _, hmade.ready.registers, ha.globals, ha.printf⟩
  -- the body is read from its end, where lowering stands when the routine is closed
  have hstands : σ₃.Stands S ⟨[], some t⟩ :=
    ⟨⟨r, k, [], hr, hk, hterm, by simp [S]⟩, ⟨[], by simp [S], by simp⟩, hglobals⟩
  obtain ⟨P₂, h₂, hruns⟩ := hmade.leads S _ hstands
  obtain ⟨P₁, h₁, hbind⟩ := hbinds S P₂ h₂
  have hruns := hruns call n ⟨hS, by rw [← hmade.keeps.ret], by rw [← hmade.keeps.functions]; exact hcall⟩
  obtain ⟨id, label, later, hblocks⟩ := hstart.exists_entry h₁
  have hparams : S.routine.params = r₀.params := (hstart.head (hkeeps.trans hmade.keeps) hr k t).2.1
  obtain ⟨j, m₁, hreach, hout, hspares, hat, hnumbers⟩ := hentered.exists_at (S := S) hlen hS rfl hblocks rfl rfl
    hmade.ready.kinds (by rw [hparams]; exact hstart.params_apart h₁) (by rw [hparams]; exact hstart.nodup)
  rw [hparams] at hnumbers
  refine (Machine.Follows.after hreach hout ?_).le (Nat.le_add_left n j)
  have hbody := (hbind hS n m₁ Vars.zero vs hat hnumbers).bind (f := fun vars => Stmt.runBody call n body vars)
    (R := fun v m' => m.Spares m' ∧ m'.Leaving a (resultValue σ₃.ret v)) fun vars m₂ h₂ =>
      (hmade.follows_runBody hlive hend rfl hruns h₂.2).imp fun v m₃ h₃ => ⟨hspares.trans (h₂.1.trans h₃.1), h₃.2⟩
  exact hbody

end LowerState
end QuillLang
