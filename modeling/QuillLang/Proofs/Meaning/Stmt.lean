import QuillLang.Proofs.Meaning.Place
/-!
# Statements of numbers

Each statement of numbers is lowered to code that does what the statement means (`Lower.makes_block`): from the point where
lowering stood before the statement the machine follows it to the point where lowering stands after it.  There is a lemma for
each kind of statement, and the blocks follow by induction.
-/
namespace QuillLang

abbrev Calls := String → List Int64 → Effect Int64

theorem Effect.exists_of_bind_done {α β : Type} {x : Effect α} {f : α → Effect β} {v : β}
    (h : (x >>= f).ending = .done v) : ∃ u, x.ending = .done u ∧ (f u).ending = .done v := by
  have h : (x.bind f).ending = .done v := h
  unfold Effect.bind at h
  split at h
  · exact ⟨_, ‹_›, h⟩
  · cases h
  · cases h

def Flow.Never (x : Vars → Effect Flow) : Prop := ∀ vars vars', (x vars).ending ≠ .done (.goes vars')

theorem Flow.Never.seq {x y : Vars → Effect Flow} (h : Flow.Never x ∨ Flow.Never y) :
    Flow.Never (fun vars => do
      match ← x vars with
      | .goes vars => y vars
      | .returns v => pure (.returns v)) := by
  intro vars vars' hgoes
  obtain ⟨flow, hx, hrest⟩ := Effect.exists_of_bind_done hgoes
  cases flow with
  | goes vars₁ => exact h.elim (fun hnever => hnever vars vars₁ hx) (fun hnever => hnever vars₁ vars' hrest)
  | returns v => cases hrest

/-- A returned number as the machine has it: the top level returns an exit status. -/
def resultValue : Option Ty → Int64 → Value
  | none, v => .i32 v.toInt32
  | some _, v => .i64 v

/-- The routine is that of the body which is lowered, and its calls do what they mean. -/
structure Stage.Hosts (S : Stage) (σ : LowerState) (call : Calls) (n : Nat) : Prop where
  sound : S.Sound
  result : S.result = resultValue σ.ret
  answers : S.assembly.Answers σ.functions call n

theorem Stage.Hosts.congr {S : Stage} {σ σ' : LowerState} {call : Calls} {n : Nat} (h : S.Hosts σ call n)
    (hkeeps : σ.Keeps σ') : S.Hosts σ' call n :=
  ⟨h.sound, by rw [hkeeps.ret]; exact h.result, by rw [hkeeps.functions]; exact h.answers⟩

namespace LowerState

/-- Between two states the code of a statement was emitted. -/
structure Made (σ : LowerState) (run : Calls → Nat → Vars → Effect Flow) (σ' : LowerState) : Prop where
  ready : σ'.Ready
  keeps : σ.Keeps σ'
  dead : σ'.afterReturn = true → σ.afterReturn = true ∨ ∀ call n, Flow.Never (run call n)
  leads : σ.Leads σ' fun S P P' => ∀ call n, S.Hosts σ call n → S.Runs n (run call n) P P'

variable {σ σ' σ'' : LowerState} {α : Type}

theorem Made.skip (h : σ.Ready) : σ.Made (fun _ _ vars => pure (.goes vars)) σ :=
  ⟨h, .refl σ, .inl, fun _ P hP => ⟨P, hP, fun _ _ _ => .skip⟩⟩

theorem Made.seq {x y : Calls → Nat → Vars → Effect Flow} (hx : σ.Made x σ') (hy : σ'.Made y σ'') :
    σ.Made (fun call n vars => do
      match ← x call n vars with
      | .goes vars => y call n vars
      | .returns v => pure (.returns v)) σ'' where
  ready := hy.ready
  keeps := hx.keeps.trans hy.keeps
  dead hdead := by
    rcases hy.dead hdead with hdead | hnever
    · rcases hx.dead hdead with hdead | hnever
      · exact .inl hdead
      · exact .inr fun call n => .seq (.inl (hnever call n))
    · exact .inr fun call n => .seq (.inr (hnever call n))
  leads S P'' hP'' := by
    obtain ⟨P', hP', hruns'⟩ := hy.leads S P'' hP''
    obtain ⟨P, hP, hruns⟩ := hx.leads S P' hP'
    exact ⟨P, hP, fun call n hS => (hruns call n hS).seq (hruns' call n (hS.congr hx.keeps))⟩

structure Valued (σ : LowerState) (x : Calls → Nat → Vars → Effect α) (post : Registers → α → Prop) (σ' : LowerState) :
    Prop where
  ready : σ'.Ready
  keeps : σ.Keeps σ'
  dead : σ'.afterReturn = σ.afterReturn
  leads : σ.Leads σ' fun S P P' => ∀ call n, S.Hosts σ call n → S.Evaluates n (x call n) post P P'

theorem Ready.leads_code (hσ : σ.Ready) {is : List Instr} {k : Nat} (hk : σ.builder.nextRegister ≤ k)
    {x : Vars → Effect α} {post : Registers → α → Prop}
    (hcode : Code σ.frames.current σ.builder.nextRegister k (fun _ => True) is x post) :
    σ.Leads (σ.emitted is k) fun S P P' => ∀ n, S.Evaluates n x post P P' := by
  intro S P hP
  have hclear : S.Clear σ.builder.nextRegister k := hP.clear hσ.toPlain rfl
  exact ⟨_, hP.of_emitted hk, fun n m vars hat => hat.code hcode (hP.of_emitted hk).mem_frame hclear trivial⟩

theorem Ready.valued (hσ : σ.Ready) {is : List Instr} {k : Nat} (hk : σ.builder.nextRegister ≤ k)
    {x : Vars → Effect α} {post : Registers → α → Prop}
    (hcode : Code σ.frames.current σ.builder.nextRegister k (fun _ => True) is x post) :
    σ.Valued (fun _ _ => x) post (σ.emitted is k) where
  ready := hσ.emitted hk is
  keeps := .emitted σ is k
  dead := rfl
  leads S P' hP' := by
    obtain ⟨P, hP, heval⟩ := hσ.leads_code hk hcode S P' hP'
    exact ⟨P, hP, fun _ n _ => heval n⟩

section
variable {x : Calls → Nat → Vars → Effect α} {post : Registers → α → Prop}

theorem Valued.silent (h : σ.Valued x post σ') (h' : σ'.Silent σ'') : σ.Valued x post σ'' where
  ready := h'.ready
  keeps := h.keeps.trans h'.keeps
  dead := h'.dead.trans h.dead
  leads S P hP := h.leads S P (h'.stands S P hP)

theorem Valued.code {β : Type} (h : σ.Valued x post σ') {is : List Instr} {k : Nat} (hk : σ'.builder.nextRegister ≤ k)
    {y : α → Vars → Effect β} {R : Registers → β → Prop}
    (hcode : ∀ v, Code σ'.frames.current σ'.builder.nextRegister k (fun regs => post regs v) is (y v) R) :
    σ.Valued (fun call n vars => x call n vars >>= fun v => y v vars) R (σ'.emitted is k) where
  ready := h.ready.emitted hk is
  keeps := h.keeps.trans (.emitted σ' is k)
  dead := h.dead
  leads S P' hP' := by
    have hstands := hP'.of_emitted hk
    obtain ⟨P, hP, heval⟩ := h.leads S _ hstands
    exact ⟨P, hP, fun call n hS =>
      (heval call n hS).code hcode hstands.mem_frame (hP'.clear h.ready.toPlain rfl)⟩

theorem Valued.ignored (h : σ.Valued x post σ') :
    σ.Made (fun call n vars => x call n vars >>= fun _ => pure (.goes vars)) σ' where
  ready := h.ready
  keeps := h.keeps
  dead hdead := .inl (h.dead.symm.trans hdead)
  leads S P' hP' := by
    obtain ⟨P, hP, heval⟩ := h.leads S P' hP'
    refine ⟨P, hP, fun call n hS => ?_⟩
    exact (heval call n hS).run (y := fun _ vars => pure (.goes vars)) fun _ m vars hat _ => .pure ⟨.refl m, hat⟩

theorem Valued.made (h : σ.Valued x post σ') {i : Instr} {k : Nat} (hk : σ'.builder.nextRegister ≤ k)
    {y : α → Vars → Effect Flow}
    (hlast : ∀ S P P', (σ'.emitted [i] k).Stands S P' → S.Sound → ∀ (n : Nat) (z : Vars → Effect α),
      S.Evaluates n z post P ⟨i :: P'.rest, P'.terminator⟩ → S.Runs n (fun vars => z vars >>= fun v => y v vars) P P') :
    σ.Made (fun call n vars => x call n vars >>= fun v => y v vars) (σ'.emitted [i] k) where
  ready := h.ready.emitted hk [i]
  keeps := h.keeps.trans (.emitted σ' [i] k)
  dead hdead := .inl (h.dead.symm.trans hdead)
  leads S P' hP' := by
    obtain ⟨P, hP, heval⟩ := h.leads S _ (hP'.of_emitted hk)
    exact ⟨P, hP, fun call n hS => hlast S P P' hP' hS.sound n _ (heval call n hS)⟩

end

/-- A test was lowered, and its body begins: the block `cond` makes the test and leads to the body or to the block `no`. -/
structure Tests (σ : LowerState) (test : Expr) (cond no : BlockId) (σ' : LowerState) : Prop where
  ready : σ'.Ready
  keeps : σ.Keeps σ'
  stands : ∀ S P, σ'.Stands S P → σ.Stands S ⟨[], some (.br cond)⟩ ∧ ∃ Ptest o yes, S.Target cond Ptest ∧ S.Target yes P ∧
    ∀ n, S.Evaluates n (fun vars => test.value vars >>= fun v => pure (decide (v ≠ 0)))
      (fun regs c => o.Denotes regs (.i1 c)) Ptest ⟨[], some (.condBr o yes no)⟩

end LowerState

namespace Lower
variable {σ : LowerState} {α : Type}

def Makes (x : Lower Unit) (σ : LowerState) (run : Calls → Nat → Vars → Effect Flow) : Prop :=
  Gives x σ fun _ σ' => σ.Made run σ'

/-! ## Blocks -/

theorem gives_createBlock (hσ : σ.Ready) {name : String} {f : BlockId × String → Lower α} {R : α → LowerState → Prop}
    (h : ∀ id label σ', σ.Silent σ' → Gives (f (id, label)) σ' R) : Gives (build (Builder.createBlock name) >>= f) σ R :=
  h _ _ _ (hσ.silent_numbered (σ.builder.nextBlock + 1) σ.loopDepth)

theorem gives_opens (hσ : σ.Ready) (t : Terminator) (id : BlockId) (label : String) :
    Gives (do build (Builder.terminate t); startBlock id label) σ fun _ σ' => σ.Opens t id σ' ∧ σ'.afterReturn = false := by
  intro _ σ' hrun
  cases hrun
  exact ⟨hσ.opens t id label false, rfl⟩

theorem gives_opens_bind (hσ : σ.Ready) {t : Terminator} {id : BlockId} {label : String} {x : Lower α}
    {R : α → LowerState → Prop} (h : ∀ σ', σ.Opens t id σ' → Gives x σ' R) :
    Gives (do build (Builder.terminate t); startBlock id label; x) σ R := by
  have hbind := (gives_opens hσ t id label).bind (f := fun _ => x) fun _ σ' hopens => h σ' hopens.1
  rw [bind_assoc] at hbind
  exact hbind

/-! ## Values -/

theorem gives_value (hσ : σ.Ready) {e : Expr} (he : e.isNumeric = true) :
    Gives (expr e) σ fun l σ' => l.Below σ'.builder.nextRegister ∧
      σ.Valued (fun _ _ vars => e.value vars) (fun regs v => l.Denotes regs v) σ' := by
  refine (computes_expr e he hσ.toPlain).imp ?_
  rintro l _ ⟨is, k, rfl, hk, hl, hcode⟩
  exact ⟨hl, hσ.valued hk hcode⟩

section
variable {σ' : LowerState} {x : Calls → Nat → Vars → Effect Int64} {l : Lowered}

theorem gives_asInt (h : σ.Valued x (fun regs v => l.Denotes regs v) σ') (hl : l.Below σ'.builder.nextRegister) :
    Gives (build (Builder.asInt l)) σ' fun o σ'' => σ'.Keeps σ'' ∧ σ.Valued x (fun regs v => o.Number regs v) σ'' := by
  obtain ⟨o, is, k, hrun, hk, -, hcode⟩ := Builder.turns_asInt (F := σ'.frames.current) hl
  refine .build ?_
  rw [hrun]
  have hvalued := h.code hk hcode
  simp only [bind_pure] at hvalued
  exact ⟨.emitted σ' is k, hvalued⟩

theorem gives_storeSlot (h : σ.Valued x (fun regs v => l.Denotes regs v) σ') (hl : l.Below σ'.builder.nextRegister)
    {slot : Slot} (hslot : slot ∈ σ'.frames.current) {name : Ident} (hname : slot.name = name.name) (frees : Bool) :
    Gives (storeSlot slot l frees name) σ' fun _ σ'' =>
      σ.Made (fun call n vars => x call n vars >>= fun v => pure (.goes (vars.set name.name v))) σ'' := by
  unfold storeSlot
  rw [h.ready.kinds slot hslot]
  refine (gives_asInt h hl).bind ?_
  rintro o σ₁ ⟨hkeeps, hvalued⟩
  refine .build (hvalued.made (Nat.le_refl _) fun S P P' hP' hS n z heval => ?_)
  rw [← hname]
  exact .store hS (hP'.mem_frame slot (hkeeps.slots slot hslot)) heval

end

theorem gives_declareSlot (hσ : σ.Ready) (x : Ident) :
    Gives (declareSlot x .int) σ fun p σ' => σ.Silent σ' ∧ p.1 ∈ σ'.frames.current ∧ p.1.name = x.name := by
  refine .get_bind ?_
  split
  · rename_i slot hslot
    split
    · exact .pure ⟨.refl hσ, SlotTable.mem_of_lookup hslot, SlotTable.name_of_lookup hslot⟩
    · exact .throw _
  · rename_i hnone
    obtain ⟨hslot, hcurrent⟩ := Frames.register_of_none hnone ⟨σ.builder.nextRegister⟩ .int
    refine Gives.bind (.build (Q := fun r σ' => r = ⟨σ.builder.nextRegister⟩ ∧ σ' = _) ⟨rfl, rfl⟩) ?_
    rintro _ _ ⟨rfl, rfl⟩
    refine Gives.bind (.build (Q := fun _ σ' => σ' = { σ.declared x.name with frames := σ.frames }) ?_) ?_
    · show { σ with builder := { σ.builder with
        nextRegister := σ.builder.nextRegister + 1, prologue := (σ.builder.prologue ++ [_]) ++ [_] } } = _
      rw [List.append_assoc]
      rfl
    rintro _ _ rfl
    intro p σ' hrun
    cases hrun
    refine ⟨hσ.silent_declared hnone, ?_, congrArg Slot.name hslot⟩
    show (σ.frames.register x.name ⟨σ.builder.nextRegister⟩ .int).1 ∈ Frames.current (σ.frames.register _ _ _).2
    rw [hslot, hcurrent]
    exact List.mem_append_right _ List.mem_cons_self

theorem makes_assign (hσ : σ.Ready) (x : Ident) {value : Expr} (hvalue : value.isNumeric = true) (span : Span) :
    Makes (stmt (.assign x value span)) σ fun call n => (Stmt.assign x value span).run call n := by
  unfold stmt
  refine (gives_slotOf x).bind ?_
  rintro slot σ ⟨rfl, hslot, hname⟩
  refine (gives_value hσ hvalue).bind ?_
  rintro l σ' ⟨hl, hvalued⟩
  exact gives_storeSlot hvalued hl (hvalued.keeps.slots slot hslot) hname true

theorem makes_make (hσ : σ.Ready) (x : Ident) {value : Expr} (hvalue : value.isNumeric = true) (span : Span) :
    Makes (stmt (.make x value span)) σ fun call n => (Stmt.make x value span).run call n := by
  unfold stmt make
  refine .get_bind ?_
  have hint : (σ.scopes.lookup x.name).getD (value.infer σ.scopes.current) = .int := by
    cases hx : σ.scopes.lookup x.name with
    | none => exact Expr.infer_of_isNumeric hσ.scopes value hvalue
    | some ty => exact hσ.scopes x.name ty hx
  rw [hint]
  refine (gives_value hσ hvalue).bind ?_
  rintro l σ₁ ⟨hl, hvalued⟩
  refine (gives_declareSlot hvalued.ready x).bind ?_
  rintro ⟨slot, redeclared⟩ σ₂ ⟨hsilent, hslot, hname⟩
  refine .get_bind ?_
  exact gives_storeSlot (hvalued.silent hsilent) (hl.mono hsilent.registers) hslot hname _

/-! ## Printing -/

theorem gives_format (hσ : σ.Ready) : Gives (build (Builder.stringConstant "%lld\n")) σ fun g σ' =>
    g = numberFormat.name ∧ σ.Silent σ' ∧ numberFormat ∈ σ'.builder.assembly.globals := by
  refine .build ?_
  obtain ⟨name, hmem, hrun⟩ | ⟨hnone, hrun⟩ := σ.builder.stringConstant_cases "%lld\n" <;> rw [hrun]
  · rcases hσ.globals with hglobals | hglobals <;> rw [hglobals] at hmem
    · cases hmem
    · have hname := List.mem_singleton.1 hmem
      exact ⟨congrArg Global.name hname, .refl hσ, hglobals ▸ List.mem_cons_self⟩
  · rcases hσ.globals with hglobals | hglobals
    · have hfirst : σ.builder.nextString = 0 := by rw [σ.builder.counted, hglobals]; rfl
      have hformat : (σ.builder.intern "%lld\n" hnone).assembly.globals = [numberFormat] := by
        simp only [Builder.intern, hglobals, hfirst]
        decide
      refine ⟨?_, hσ.silent_interned hformat, hformat ▸ List.mem_cons_self⟩
      show ".str." ++ Decimal.ofNat σ.builder.nextString = numberFormat.name
      rw [hfirst]
      decide
    · have hfound := (σ.builder.interned "%lld\n" numberFormat.name).2 (hglobals ▸ List.mem_cons_self)
      rw [hnone] at hfound
      cases hfound

theorem makes_print (hσ : σ.Ready) {value : Expr} (hvalue : value.isNumeric = true) (span : Span) :
    Makes (stmt (.print value span)) σ fun call n => (Stmt.print value span).run call n := by
  unfold stmt print
  refine (gives_value hσ hvalue).bind ?_
  rintro l σ₁ ⟨hl, hvalued⟩
  have hnumber : Gives (do
      let n ← build (Builder.asInt l)
      let format ← build (Builder.stringConstant "%lld\n")
      let _ ← build (Builder.callVariadic "printf" [.global format] [(.i64, n)])) σ₁ fun _ σ' =>
        σ.Made (fun call n => (Stmt.print value span).run call n) σ' := by
    refine (gives_asInt hvalued hl).bind ?_
    rintro o σ₂ ⟨-, hvalued₂⟩
    refine (gives_format hvalued₂.ready).bind ?_
    rintro _ σ₃ ⟨rfl, hsilent, hformat⟩
    have hvalued₃ := hvalued₂.silent hsilent
    refine Gives.bind (.build (Q := fun _ σ' => σ' = _) rfl) fun _ σ' hσ' => .pure ?_
    rw [hσ', Builder.run_callVariadic hvalued₃.ready.printf (by decide)]
    refine hvalued₃.made (Nat.le_succ _) fun S P P' hP' hS n z heval => ?_
    exact .print hS (hP'.globals _ hformat) (hP'.clear hvalued₃.ready.toPlain rfl) heval
  cases l with
  | int o => exact hnumber
  | bool o => exact hnumber
  | text t => cases hl

/-! ## Returning -/

theorem gives_loadSlot (hσ : σ.Ready) {slot : Slot} (hslot : slot ∈ σ.frames.current) (span : Span) :
    Gives (loadSlot slot span) σ fun l σ' => l.Below σ'.builder.nextRegister ∧
      σ.Valued (fun _ _ vars => pure (vars slot.name)) (fun regs v => l.Denotes regs v) σ' := by
  refine (computes_loadSlot hσ.toPlain hslot span).imp ?_
  rintro l _ ⟨is, k, rfl, hk, hl, hcode⟩
  exact ⟨hl, hσ.valued hk hcode⟩

theorem gives_dead (hσ : σ.Ready) (t : Terminator) :
    Gives (do
      build (Builder.terminate t)
      let (dead, label) ← build (Builder.createBlock "return.dead")
      build (Builder.startBlock dead label)
      modify fun s : LowerState => { s with afterReturn := true }) σ fun _ σ' =>
        ∃ σ₁ id, σ.Silent σ₁ ∧ σ₁.Opens t id σ' := by
  intro _ σ' hrun
  have hnumbered := hσ.silent_numbered (σ.builder.nextBlock + 1) σ.loopDepth
  cases hrun
  exact ⟨_, _, hnumbered, hnumbered.ready.opens t _ _ true⟩

/-- The routine is left with a value; what comes next is never reached. -/
theorem gives_return {σ' : LowerState} {x : Calls → Nat → Vars → Effect Int64} {ty : MachineType} {o : Operand}
    (h : σ.Valued x (fun regs v => o.Denotes regs (resultValue σ.ret v)) σ')
    (hty : ∀ v, (resultValue σ.ret v).type = ty) :
    Gives (do
      build (Builder.ret (some (ty, o)))
      let (dead, label) ← build (Builder.createBlock "return.dead")
      build (Builder.startBlock dead label)
      modify fun s : LowerState => { s with afterReturn := true }) σ' fun _ σ'' =>
        σ.Made (fun call n vars => x call n vars >>= fun v => pure (.returns v)) σ'' := by
  refine (gives_dead h.ready (.ret (some (ty, o)))).imp ?_
  rintro _ σ'' ⟨σ₁, id, hsilent, hopens⟩
  refine ⟨hopens.ready, h.keeps.trans (hsilent.keeps.trans hopens.keeps), fun _ => .inr ?_, fun S P' hP' => ?_⟩
  · intro call n vars vars' hgoes
    obtain ⟨v, -, hv⟩ := Effect.exists_of_bind_done hgoes
    cases hv
  · obtain ⟨hstands, -⟩ := hopens.stands S P' hP'
    obtain ⟨P, hP, heval⟩ := h.leads S _ (hsilent.stands S _ hstands)
    refine ⟨P, hP, fun call n hS => ?_⟩
    have heval := heval call n hS
    rw [← hS.result] at heval hty
    exact .ret hty heval

theorem gives_releaseLocals (hσ : σ.Ready) : Gives (releaseLocals none) σ fun _ σ' => σ' = σ := by
  have hnone : σ.frames.heapSlots none = [] := by
    refine List.filter_eq_nil_iff.2 fun x hx => ?_
    simp [hσ.kinds x (List.mem_reverse.1 hx), SlotKind.isHeap]
  refine .get_bind ?_
  rw [hnone]
  exact .build rfl

theorem makes_ret (hσ : σ.Ready) (x : Ident) (span : Span) :
    Makes (stmt (.ret x span)) σ fun call n => (Stmt.ret x span).run call n := by
  unfold stmt ret
  refine (gives_slotOf x).bind ?_
  rintro slot σ ⟨rfl, hslot, hname⟩
  refine .get_bind ?_
  have hrun : ∀ call n, (Stmt.ret x span).run call n = fun vars => pure (vars slot.name) >>= fun v => pure (.returns v) := by
    intro call n
    rw [hname]
    rfl
  simp only [hrun]
  split
  · rename_i hret
    refine (gives_loadSlot hσ hslot x.span).bind ?_
    rintro l σ₁ ⟨hl, hvalued₁⟩
    refine (gives_asInt hvalued₁ hl).bind ?_
    rintro n σ₂ ⟨-, hvalued₂⟩
    refine Gives.bind (.build (Q := fun o σ' => σ.Valued (fun _ _ vars => pure (vars slot.name))
      (fun regs v => o.Denotes regs (resultValue σ.ret v)) σ') ?_) ?_
    · have hnarrow := hvalued₂.code (Nat.le_succ _) fun v => Code.narrow n v
      simp only [bind_pure] at hnarrow
      rw [hret]
      exact hnarrow
    · intro o σ₃ hvalued₃
      refine gives_return hvalued₃ fun v => ?_
      rw [hret]
      rfl
  · rename_i ty hret
    obtain rfl := hσ.ret ty hret
    refine Gives.bind (P := fun p σ' => p.2 = none ∧ σ.Valued (fun _ _ vars => pure (vars slot.name))
      (fun regs v => p.1.Denotes regs (resultValue σ.ret v)) σ') ?_ ?_
    · refine (gives_loadSlot hσ hslot x.span).bind ?_
      rintro l σ₁ ⟨hl, hvalued₁⟩
      refine (gives_asInt hvalued₁ hl).bind ?_
      rintro n σ₂ ⟨-, hvalued₂⟩
      rw [hret]
      exact .pure ⟨rfl, hvalued₂⟩
    · rintro ⟨o, _⟩ σ₁ ⟨rfl, hvalued⟩
      refine (gives_releaseLocals hvalued.ready).bind ?_
      rintro _ σ₁ rfl
      refine gives_return hvalued fun v => ?_
      rw [hret]
      rfl

/-! ## Tests -/

theorem gives_test {test : Expr} (htest : test.isNumeric = true) (hσ : σ.Ready) {condName yesName noName : String}
    {f : BlockId → BlockId → String → Lower Unit} {R : Unit → LowerState → Prop}
    (h : ∀ cond no label σ', σ.Tests test cond no σ' → Gives (f cond no label) σ' R) :
    Gives (do
      let (cond, condLabel) ← build (Builder.createBlock condName)
      let (yes, yesLabel) ← build (Builder.createBlock yesName)
      let (no, noLabel) ← build (Builder.createBlock noName)
      build (Builder.br cond)
      startBlock cond condLabel
      let o ← condition test
      build (Builder.condBr o yes no)
      startBlock yes yesLabel
      f cond no noLabel) σ R := by
  refine gives_createBlock hσ fun cond condLabel σ₁ h₁ => ?_
  refine gives_createBlock h₁.ready fun yes yesLabel σ₂ h₂ => ?_
  refine gives_createBlock h₂.ready fun no noLabel σ₃ h₃ => ?_
  refine gives_opens_bind h₃.ready fun σ₄ hcond => ?_
  refine (computes_condition htest hcond.ready.toPlain).bind ?_
  rintro o _ ⟨is, k, rfl, hk, -, hcode⟩
  have h₅ := hcond.ready.emitted hk is
  refine gives_opens_bind h₅ fun σ₆ hyes => h cond no noLabel σ₆ ⟨hyes.ready, ?_, fun S P hP => ?_⟩
  · exact h₁.keeps.trans (h₂.keeps.trans (h₃.keeps.trans
      (hcond.keeps.trans ((LowerState.Keeps.emitted σ₄ is k).trans hyes.keeps))))
  -- read from the end: the body, the test, the jump to it
  obtain ⟨htestEnd, hthen⟩ := hyes.stands S P hP
  obtain ⟨Ptest, htestStart, heval⟩ := hcond.ready.leads_code hk hcode S _ htestEnd
  obtain ⟨hstart, htarget⟩ := hcond.stands S Ptest htestStart
  exact ⟨h₁.stands S _ (h₂.stands S _ (h₃.stands S _ hstart)), Ptest, o, yes, htarget, hthen, heval⟩

section
variable {test : Expr} {body : List Stmt} (htest : test.isNumeric = true) (span : Span)
  (hbody : ∀ σ : LowerState, σ.Ready → Makes (block body) σ fun call n => Stmt.runAll call n body) (hσ : σ.Ready)

include htest hbody hσ

theorem makes_when : Makes (stmt (.when test body span)) σ fun call n => (Stmt.when test body span).run call n := by
  unfold stmt
  refine gives_test htest hσ (f := fun _ no label => do block body; build (Builder.br no); startBlock no label)
    fun cond no label σ₁ h₁ => ?_
  refine (hbody σ₁ h₁.ready).bind ?_
  intro _ σ₂ hmade
  refine (gives_opens hmade.ready (.br no) no label).imp ?_
  rintro _ σ' ⟨hno, hreach⟩
  refine ⟨hno.ready, h₁.keeps.trans (hmade.keeps.trans hno.keeps), fun hdead => ?_, fun S P' hP' => ?_⟩
  · rw [hreach] at hdead
    cases hdead
  obtain ⟨hbodyEnd, hend⟩ := hno.stands S P' hP'
  obtain ⟨Pbody, hbodyStart, hruns⟩ := hmade.leads S _ hbodyEnd
  obtain ⟨hstart, Ptest, o, yes, hcond, hyes, heval⟩ := h₁.stands S Pbody hbodyStart
  exact ⟨_, hstart, fun call n hS =>
    .when hS.sound (heval n) (hruns call n (hS.congr h₁.keeps)) hcond hyes hend⟩

theorem makes_loop : Makes (stmt (.loop test body span)) σ fun call n => (Stmt.loop test body span).run call n := by
  unfold stmt
  refine gives_test htest hσ (f := fun cond no label => do
    modify fun s : LowerState => { s with loopDepth := s.loopDepth + 1 }
    block body
    modify fun s : LowerState => { s with loopDepth := s.loopDepth - 1 }
    build (Builder.br cond)
    startBlock no label) fun cond no label σ₁ h₁ => ?_
  refine Gives.bind (.modify rfl : Gives _ σ₁ fun _ σ' => σ' = { σ₁ with loopDepth := σ₁.loopDepth + 1 }) ?_
  rintro _ _ rfl
  have hdeep := h₁.ready.silent_numbered σ₁.builder.nextBlock (σ₁.loopDepth + 1)
  refine (hbody _ hdeep.ready).bind ?_
  intro _ σ₂ hmade
  refine Gives.bind (.modify rfl : Gives _ σ₂ fun _ σ' => σ' = { σ₂ with loopDepth := σ₂.loopDepth - 1 }) ?_
  rintro _ _ rfl
  have hback := hmade.ready.silent_numbered σ₂.builder.nextBlock (σ₂.loopDepth - 1)
  refine (gives_opens hback.ready (.br cond) no label).imp ?_
  rintro _ σ' ⟨hno, hreach⟩
  have hkeeps := h₁.keeps.trans hdeep.keeps
  refine ⟨hno.ready, hkeeps.trans (hmade.keeps.trans (hback.keeps.trans hno.keeps)), fun hdead => ?_, fun S P' hP' => ?_⟩
  · rw [hreach] at hdead
    cases hdead
  obtain ⟨hbodyEnd, hend⟩ := hno.stands S P' hP'
  obtain ⟨Pbody, hbodyStart, hruns⟩ := hmade.leads S _ (hback.stands S _ hbodyEnd)
  obtain ⟨hstart, Ptest, o, yes, hcond, hyes, heval⟩ := h₁.stands S Pbody (hdeep.stands S _ hbodyStart)
  exact ⟨_, hstart, fun call n hS =>
    .rounds hS.sound (heval n) (hruns call n (hS.congr hkeeps)) hcond hyes hend n (Nat.le_refl n)⟩

end

/-! ## Calls -/

section
variable {name : String} {info : FuncInfo} (hinfo : σ.functions.get? name = some info)

include hinfo

theorem gives_arguments (hσ : σ.Ready) {args : List Expr} (hargs : args.all Expr.isNumeric = true)
    (hlen : args.length = info.params.length) :
    Gives (arguments args info.params) σ fun p σ' => p.1.length = info.params.length ∧ p.2 = [] ∧
      σ.Valued (fun _ _ vars => Expr.values vars args) (fun regs vs => Numbers p.1 regs vs) σ' := by
  refine (computes_arguments args info.params hargs (hσ.functions name info hinfo).1 hlen hσ.toPlain).imp ?_
  rintro p _ ⟨is, k, rfl, hk, ⟨hlength, htemps⟩, hcode⟩
  exact ⟨hlength, htemps, hσ.valued hk hcode⟩

theorem gives_call {σ' : LowerState} {x : Calls → Nat → Vars → Effect (List Int64)} {os : List Operand}
    (h : σ.Valued x (fun regs vs => Numbers os regs vs) σ') (hos : os.length = info.params.length) :
    Gives (build (Builder.call info.symbol os)) σ' fun o σ'' => o.Below σ''.builder.nextRegister ∧
      σ.Valued (fun call n vars => x call n vars >>= fun vs => call name vs) (fun regs v => o.Number regs v) σ'' := by
  obtain ⟨hparams, -, hsig⟩ := h.ready.functions name info (by rw [h.keeps.functions]; exact hinfo)
  have htys : ∀ ty ∈ info.params.map Ty.machineType, ty = .i64 := by
    intro ty hty
    obtain ⟨t, ht, rfl⟩ := List.mem_map.1 hty
    rw [hparams t ht]
    rfl
  refine .build ?_
  unfold Builder.call
  rw [Builder.run_callVariadic hsig (by simp), List.append_nil]
  refine ⟨Nat.lt_succ_self _, h.ready.emitted (Nat.le_succ _) _, h.keeps.trans (.emitted σ' _ _), h.dead, fun S P' hP' => ?_⟩
  obtain ⟨P, hP, heval⟩ := h.leads S _ (LowerState.Stands.of_emitted hP' (Nat.le_succ _))
  refine ⟨P, hP, fun call n hS => ?_⟩
  have hclear := hP'.clear h.ready.toPlain rfl
  exact .call hS.answers hinfo hos htys hclear (heval call n hS)

end

theorem gives_check {c : Prop} [Decidable c] {e : LowerError} {x : PUnit → Lower Unit} {R : Unit → LowerState → Prop}
    (h : ¬ c → Gives (x ()) σ R) : Gives (if c then do let r ← throw e; x r else x ()) σ R := by
  split
  · exact (Gives.throw (Q := fun _ _ => False) e).bind fun _ _ hfalse => hfalse.elim
  · rename_i hc
    exact h hc

theorem makes_call (hσ : σ.Ready) (callee : Ident) {args : List Expr} (hargs : args.all Expr.isNumeric = true)
    (result : Option Ident) (span : Span) :
    Makes (stmt (.call callee args result span)) σ fun call n => (Stmt.call callee args result span).run call n := by
  unfold stmt call
  refine (gives_functionInfo callee).bind ?_
  rintro info σ ⟨rfl, hinfo⟩
  have hret : info.ret = .int := (hσ.functions _ info hinfo).2.1
  cases result with
  | some x =>
    refine gives_check fun hlen => ?_
    have hlen := Decidable.not_not.1 hlen
    refine (gives_resultSlot x).bind ?_
    rintro slot σ ⟨rfl, hslot, hname⟩
    refine (gives_arguments hinfo hσ hargs hlen).bind ?_
    rintro ⟨os, _⟩ σ₁ ⟨hos, rfl, hvalued₁⟩
    refine (gives_call hinfo hvalued₁ hos).bind ?_
    rintro o σ₂ ⟨ho, hvalued₂⟩
    refine Gives.bind (.build (Q := fun _ σ' => σ' = σ₂) rfl) ?_
    rintro _ σ₂ rfl
    rw [hret]
    have hmade := gives_storeSlot (l := .int o) hvalued₂ ho (hvalued₂.keeps.slots slot hslot) hname true
    simp only [bind_assoc] at hmade
    exact hmade
  | none =>
    refine gives_check fun hlen => ?_
    have hlen := Decidable.not_not.1 hlen
    refine (gives_arguments hinfo hσ hargs hlen).bind ?_
    rintro ⟨os, _⟩ σ₁ ⟨hos, rfl, hvalued₁⟩
    refine (gives_call hinfo hvalued₁ hos).bind ?_
    rintro o σ₂ ⟨ho, hvalued₂⟩
    refine Gives.bind (.build (Q := fun _ σ' => σ' = σ₂) rfl) ?_
    rintro _ σ₂ rfl
    rw [hret]
    have hmade := hvalued₂.ignored
    simp only [bind_assoc] at hmade
    exact .build hmade

/-! ## All statements -/

theorem makes_free (hσ : σ.Ready) (x : Ident) (span : Span) :
    Makes (stmt (.free x span)) σ fun call n => (Stmt.free x span).run call n := by
  unfold stmt free
  refine (gives_slotOf x).bind ?_
  rintro slot σ ⟨rfl, hslot, -⟩
  rw [hσ.kinds slot hslot]
  exact .throw _

mutual

theorem makes_stmt : ∀ (s : Stmt) {σ : LowerState}, s.isNumeric = true → σ.Ready →
    Makes (stmt s) σ fun call n => s.run call n
  | .make x _ span, _, hs, hσ => makes_make hσ x hs span
  | .assign x _ span, _, hs, hσ => makes_assign hσ x hs span
  | .when _ body span, _, hs, hσ =>
    have h := Bool.and_eq_true_iff.1 hs
    makes_when h.1 span (fun _ hσ => makes_block body h.2 hσ) hσ
  | .loop _ body span, _, hs, hσ =>
    have h := Bool.and_eq_true_iff.1 hs
    makes_loop h.1 span (fun _ hσ => makes_block body h.2 hσ) hσ
  | .print _ span, _, hs, hσ => makes_print hσ hs span
  | .free x span, _, _, hσ => makes_free hσ x span
  | .func _ _ _ _, _, _, hσ => by
    unfold stmt
    exact .pure (.skip hσ)
  | .ret x span, _, _, hσ => makes_ret hσ x span
  | .call callee _ result span, _, hs, hσ => makes_call hσ callee hs result span
  | .makeArray _ _ _, _, hs, _ | .assignArray _ _ _ _, _, hs, _ | .graphics _ _, _, hs, _ => by cases hs

/-- **Lowering the statements of a body emits code that does what they mean.** -/
theorem makes_block : ∀ (l : List Stmt) {σ : LowerState}, Stmt.areNumeric l = true → σ.Ready →
    Makes (block l) σ fun call n => Stmt.runAll call n l
  | [], _, _, hσ => by
    unfold block
    exact .pure (.skip hσ)
  | s :: rest, σ, hl, hσ => by
    have h := Bool.and_eq_true_iff.1 hl
    unfold block
    refine (makes_stmt s h.1 hσ).bind fun _ σ₁ hmade => ?_
    exact (makes_block rest h.2 hmade.ready).imp fun _ σ₂ hmade' => hmade.seq hmade'

end

end Lower
end QuillLang
