import QuillLang.Proofs.Meaning.Bounds
import QuillLang.Proofs.Meaning.Lowering
import QuillLang.Proofs.WellFormed
/-!
# Programs of numbers do what they mean

The routines of a lowered program of numbers call each other.  Where calls are nested at most `n` deep, every call does what
it means, by induction on `n` (`Program.Realized.answers`); so does the top level, and the value that it leaves with is the
exit status (`Program.Realized.doneBy`).
-/
namespace QuillLang

namespace Machine
variable {a : Assembly} {m : Machine} {f : Routine} {k : Block} {r : Register} {rest : List Instr}

/-! ## Calls -/

def begin (m : Machine) (f : Routine) (k : Block) (vs : List Value) : Machine :=
  { m with
    running := ⟨m.fresh, f, k, k.instrs, arguments f.params vs⟩
    callers := m.running :: m.callers
    fresh := m.fresh + 1 }

theorem step_call {callee : String} {ret : MachineType} {args : List (MachineType × Operand)}
    {c : Option (List MachineType)} {vs : List Value} (hrest : m.running.rest = ⟨some r, .call callee ret args c⟩ :: rest)
    (hargs : (args.mapM fun x => m.eval a x.1 x.2) = .ok vs) (hf : a.routine? callee = some f)
    (hinternal : f.isExternal = false) (hk : f.blocks.head? = some k) (hlen : vs.length = f.params.length) (w : Answer) :
    m.step a w = .ok (m.begin f k vs) := by
  obtain ⟨ks, hblocks⟩ := List.head?_eq_some_iff.1 hk
  have henter : m.enter f vs = .ok (m.begin f k vs) := by
    unfold enter
    rw [hblocks]
    exact if_pos hlen
  rw [step_eq_perform hrest]
  show m.call a w (some r) callee ret args = _
  unfold call
  rw [hargs]
  dsimp only [bind, Except.bind]
  rw [hf]
  dsimp only
  rw [hinternal, if_neg (by decide), henter]

theorem Leaving.step {v : Value} (h : m.Leaving a v) (w : Answer) : m.step a w = m.leave v := by
  obtain ⟨hrest, ty, o, hterminator, heval⟩ := h
  unfold Machine.step
  rw [hrest]
  unfold conclude
  rw [hterminator]
  show m.eval a ty o >>= m.leave = _
  rw [heval]
  rfl

theorem leave_number {g : Activation} {gs : List Activation} {o : Operation} (v : Int64) (hcallers : m.callers = g :: gs)
    (hrest : g.rest = ⟨some r, o⟩ :: rest) : m.leave (.i64 v) = .ok { m with
      running := { g with rest := rest, registers := override g.registers r (.i64 v) }
      callers := gs } := by
  unfold leave
  rw [hcallers]
  dsimp only
  rw [hrest]
  dsimp only
  unfold finish
  rw [hrest]
  rfl

/-- **A call does what the body of its routine means**, and brings the number back. -/
theorem follows_call {n : Nat} {x : List Int64 → Effect Int64} {vs : List Int64} {callee : String}
    {args : List (MachineType × Operand)} {c : Option (List MachineType)} (hf : a.routine? callee = some f)
    (hinternal : f.isExternal = false) (hk : f.blocks.head? = some k) (hlen : vs.length = f.params.length)
    (hbody : f.Follows a n x .i64) (hrest : m.running.rest = ⟨some r, .call callee .i64 args c⟩ :: rest)
    (hargs : (args.mapM fun x => m.eval a x.1 x.2) = .ok (vs.map .i64)) :
    m.Follows a (n + 1) (x vs) fun v m' => m.Resumed rest r v m' := by
  have hentered : (m.begin f k (vs.map .i64)).Entered f vs := ⟨rfl, hk, rfl, rfl, Nat.lt_succ_self _⟩
  refine .step (step_call hrest hargs hf hinternal hk (by simpa using hlen)) rfl ?_
  rw [← bind_pure (x vs)]
  refine (hbody _ vs hentered hlen).bind ?_
  rintro v m' ⟨hspares, hleaving⟩
  have hstep : ∀ w, m'.step a w = .ok _ := fun w => (hleaving.step w).trans (leave_number v hspares.callers hrest)
  refine (Follows.step hstep rfl (.pure ?_)).le (Nat.le_succ n)
  refine ⟨rfl, rfl, fun i hi => ?_, Nat.le_of_succ_le hspares.fresh⟩
  exact hspares.slots i (Nat.lt_succ_of_lt hi) (Nat.ne_of_lt hi)

end Machine

namespace Program
variable {p : Program} {sigs : Signatures} {options : LowerOptions} {a : Assembly} {functions : Table FuncInfo}

/-! ## Linking -/

theorem realized_of_lower (hp : p.isNumeric = true) (hsigs : sigs.AllInt) (h : p.lower sigs options = .ok a) :
    ∃ functions, p.Realized sigs functions a := by
  unfold Program.lower at h
  obtain ⟨g, -, h⟩ := exists_of_bind_ok h
  obtain ⟨⟨_, σ⟩, hrun, h⟩ := exists_of_bind_ok h
  dsimp only at h
  split at h
  · cases h
    exact Lower.gives_program hp hsigs options g _ _ hrun
  · cases h

/-- The machine of an assembly does what a program means from the start on, and stops with the exit status. -/
def DoneBy (p : Program) (a : Assembly) : Prop :=
  ∃ m, a.start = .ok m ∧ m.output = [] ∧
    ∀ n, m.Follows a n (p.run n) fun status m' => ∀ w, m'.step a w = .error (.exit status)

namespace Realized
variable {es : List External} {fs : List Routine} {main : Routine} {signature : String → Option CallSignature}

theorem serves (h : p.Realized sigs functions a) (ha : Assembled p sigs a es fs main signature) : a.Serves where
  globals := h.globals
  printf := by
    have hmem : External.mk "printf" ⟨[.ptr], .i32, true⟩ ∈ External.core := by decide
    exact ⟨_, ha.routine?_of_mem (h.externals _ hmem), rfl⟩

/-- **Calls of functions do what they mean**, to any depth. -/
theorem answers (h : p.Realized sigs functions a) (ha : Assembled p sigs a es fs main signature) :
    ∀ n, a.Answers functions (p.call n) n
  | 0 => fun _ _ _ _ m _ _ _ _ _ _ _ => ⟨0, m, Nat.le_refl 0, .refl m, (List.append_nil _).symm⟩
  | n + 1 => by
    intro name info hinfo vs m r rest args c hlen hrest hargs
    obtain ⟨f, hf, rfl, rfl⟩ := h.known name info hinfo
    obtain ⟨g, hg, hworks⟩ := h.routines f hf
    obtain ⟨P, hP⟩ := ha.plan hg hworks.internal
    have hcall : p.call (n + 1) f.name.name vs =
        Stmt.runBody (p.call n) n f.body (Vars.ofArguments f.params vs Vars.zero) := by
      rw [Program.call, Program.function?, find?_of_nodup (fun f : FuncDecl => f.name.name) ha.names hf]
    have hsymbol : a.routine? (f.info sigs).symbol = some g := by
      rw [← ha.routine?_of_mem hg, hworks.name]
      rfl
    have hhead : g.blocks.head? = some _ := congrArg List.head? hP.blocks
    have harity : vs.length = g.params.length := by
      rw [hworks.arity, hlen]
      simp [FuncDecl.info, Signatures.paramTypes]
    rw [hcall]
    exact Machine.follows_call hsymbol hworks.internal hhead harity
      (hworks.does a (h.serves ha) (fun _ hg => hg) hP.ids _ n (h.answers ha n)) hrest hargs

/-- **The top level does what it means.** -/
theorem doneBy (h : p.Realized sigs functions a) (ha : Assembled p sigs a es fs main signature) : p.DoneBy a := by
  obtain ⟨r, hr, hname, hinternal, hparams, hdoes⟩ := h.main
  obtain ⟨P, hP⟩ := ha.plan hr hinternal
  obtain ⟨k, ks, hblocks⟩ : ∃ k ks, r.blocks = k :: ks := ⟨_, _, hP.blocks⟩
  have hfound : a.routine? "main" = some r := hname ▸ ha.routine?_of_mem hr
  refine ⟨⟨⟨0, r, k, k.instrs, fun _ => none⟩, [], [], fun _ _ => none, 1, []⟩, ?_, rfl, fun n => ?_⟩
  · unfold Assembly.start
    rw [hfound]
    dsimp only
    rw [hblocks]
  have hentered : Machine.Entered r [] ⟨⟨0, r, k, k.instrs, fun _ => none⟩, [], [], fun _ _ => none, 1, []⟩ := by
    refine ⟨rfl, by rw [hblocks]; rfl, rfl, ?_, Nat.one_pos⟩
    rw [hparams]
    rfl
  have hbody := hdoes a (h.serves ha) (fun _ hg => hg) hP.ids _ n (h.answers ha n) _ [] hentered (by rw [hparams]; rfl)
  refine hbody.bind fun v m' h => .pure fun w => ?_
  rw [h.2.step w]
  unfold Machine.leave
  rw [h.1.callers]
  rfl

end Realized
end Program
end QuillLang
