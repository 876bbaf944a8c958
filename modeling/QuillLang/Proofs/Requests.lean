import QuillLang.Proofs.Points.Walk
import QuillLang.Proofs.Sketch.Routine
/-!
# What is asked of the builder

The builder takes whatever it is asked to add.  An instruction for which no block is open is lost, one that comes behind a
terminator is put before it, and a second terminator is dropped.  What a step does cannot tell these mistakes from code
without them, but the requests that it makes can, up to where the program is refused.  Lowering asks for code only where a
block is open that has no terminator (`Program.requests_in_open_blocks`), so all that it asks for is found in the assembly.
-/
namespace QuillLang

def Block.entries (k : Block) : List Entry := k.instrs.map .instr ++ k.terminator.toList.map .terminator

def Routine.entries (r : Routine) : List Entry := r.blocks.flatMap Block.entries

def Assembly.entries (a : Assembly) : List Entry := a.routines.flatMap Routine.entries

namespace Builder

structure IsOpen (b : Builder) : Prop where
  routine : b.routine.isSome = true
  block : ∃ k, b.block = some k ∧ k.terminator = none

def Phase.Of (b : Builder) : Phase → Prop
  | idle => b.routine = none ∧ b.block = none
  | isOpen => b.IsOpen
  | ended => b.routine.isSome = true ∧ b.block.isSome = true

def entries (b : Builder) : List Entry :=
  b.assembly.entries ++ b.routine.toList.flatMap Routine.entries ++ b.block.toList.flatMap Block.entries

end Builder

open Builder (Call Permit Phase)

namespace Lower
variable {α β : Type} {p q r : Phase} {x : Lower α} {f : α → Lower β}

theorem requests_bind_of_ok {s s' : LowerState} {a : α} (h : x.run s = .ok (a, s')) :
    (x >>= f).requests s = x.requests s ++ (f a).requests s' := by
  simp only [Bind.bind, Lower.bind, h]

theorem requests_bind_of_error {s : LowerState} {e : LowerError} (h : x.run s = .error e) :
    (x >>= f).requests s = x.requests s := by
  simp only [Bind.bind, Lower.bind, h, List.append_nil]

/-- Begun in the phase `p`, the step asks open blocks for code only; if it gets to its end, it is in the phase `q`, and the
code it asked for has come behind what was there. -/
def Asks (p : Phase) (x : Lower α) (q : Phase) (s : LowerState) : Prop :=
  p.Of s.builder → (∀ r ∈ x.requests s, r.builder.IsOpen) ∧ ∀ a s', x.run s = .ok (a, s') →
    q.Of s'.builder ∧ (s.builder.entries ++ (x.requests s).map Request.entry).Sublist s'.builder.entries

namespace Asks
variable {s : LowerState}

theorem bind (hx : Asks p x r s) (hf : ∀ a s', x.run s = .ok (a, s') → Asks r (f a) q s') : Asks p (x >>= f) q s := by
  intro hs
  obtain ⟨hopen, hends⟩ := hx hs
  cases hrun : x.run s with
  | error e =>
    rw [requests_bind_of_error hrun]
    refine ⟨hopen, fun c s' h => ?_⟩
    obtain ⟨_, _, hok, -⟩ := exists_of_run_bind h
    rw [hrun] at hok
    cases hok
  | ok pair =>
    obtain ⟨hphase, hcode⟩ := hends pair.1 pair.2 hrun
    obtain ⟨hopen', hends'⟩ := hf pair.1 pair.2 hrun hphase
    rw [requests_bind_of_ok hrun]
    refine ⟨List.forall_mem_append.2 ⟨hopen, hopen'⟩, fun c s' h => ?_⟩
    obtain ⟨_, _, hok, hrest⟩ := exists_of_run_bind h
    rw [hrun] at hok
    cases hok
    obtain ⟨hphase', hcode'⟩ := hends' c s' hrest
    rw [List.map_append, ← List.append_assoc]
    exact ⟨hphase', (hcode.append_right _).trans hcode'⟩

theorem build_bind {x : Build Nat α} {f : α → Build Nat β} (hx : Asks p (build x) r s)
    (hf : ∀ a s', Asks r (build (f a)) q s') : Asks p (build (x >>= f)) q s := hx.bind fun a s' _ => hf a s'

theorem of_still (hrequests : x.requests s = []) (h : ∀ a s', x.run s = .ok (a, s') → s'.builder = s.builder) :
    Asks p x p s := by
  intro hs
  rw [hrequests]
  refine ⟨by simp, fun a s' hrun => ?_⟩
  rw [h a s' hrun]
  exact ⟨hs, by simp⟩

theorem pure (a : α) : Asks p (pure a) p s := of_still rfl fun _ _ h => by cases h; rfl

theorem throw (e : LowerError) : Asks p (throw e : Lower α) q s :=
  fun _ => ⟨fun _ h => (by cases h), fun _ _ h => (by cases h)⟩

/-- A step that asks for no code and loses none. -/
theorem silent {step : Build Nat α} (hrequests : step.requests s.builder = [])
    (h : p.Of s.builder → q.Of (step.run s.builder).2 ∧ s.builder.entries.Sublist (step.run s.builder).2.entries) :
    Asks p (build step) q s := by
  intro hs
  rw [show (build step).requests s = [] from hrequests]
  refine ⟨by simp, fun a s' hrun => ?_⟩
  cases hrun
  simpa using h hs

theorem aside {step : Build Nat α} (hrequests : step.requests s.builder = [])
    (hroutine : (step.run s.builder).2.routine = s.builder.routine)
    (hblock : (step.run s.builder).2.block = s.builder.block)
    (hassembly : (step.run s.builder).2.assembly.entries = s.builder.assembly.entries) : Asks p (build step) p s := by
  refine silent hrequests fun hs => ⟨?_, by simp [Builder.entries, hroutine, hblock, hassembly]⟩
  cases p with
  | idle | ended => simpa [Phase.Of, hroutine, hblock] using hs
  | isOpen => exact ⟨hroutine ▸ hs.routine, hblock ▸ hs.block⟩

end Asks

/-! ## Calls -/

variable {s : LowerState}

theorem asks_emit (result : Option Register) (operation : Operation) :
    Asks .isOpen (build (Builder.emit result operation)) .isOpen s := by
  intro hs
  obtain ⟨k, hk, hterminator⟩ := hs.block
  refine ⟨fun r hr => List.mem_singleton.1 hr ▸ hs, fun a s' hrun => ?_⟩
  cases hrun
  refine ⟨⟨hs.routine, _, congrArg (Option.map _) hk, hterminator⟩, ?_⟩
  show (_ ++ [_]).Sublist (_ ++ s.builder.routine.toList.flatMap _ ++ (s.builder.block.map _).toList.flatMap _)
  simp [Builder.entries, Block.entries, hk, hterminator]

theorem asks_emitResult (operation : Operation) : Asks .isOpen (build (Builder.emitResult operation)) .isOpen s :=
  .build_bind (.aside rfl rfl rfl rfl) fun _ _ => .build_bind (asks_emit _ _) fun _ _ => .pure _

theorem asks_callVariadic (callee : String) (fixed : List Operand) (extra : List (MachineType × Operand)) :
    Asks .isOpen (build (Builder.callVariadic callee fixed extra)) .isOpen s := by
  have hlook : Asks .isOpen (build get) .isOpen s := .aside rfl rfl rfl rfl
  refine .build_bind hlook fun b _ => ?_
  dsimp only
  split
  · exact .build_bind (asks_emit _ _) fun _ _ => .pure _
  · exact asks_emitResult _

theorem asks_terminate (t : Terminator) : Asks .isOpen (build (Builder.terminate t)) .ended s := by
  intro hs
  obtain ⟨k, hk, hterminator⟩ := hs.block
  refine ⟨fun r hr => List.mem_singleton.1 hr ▸ hs, fun a s' hrun => ?_⟩
  cases hrun
  refine ⟨⟨hs.routine, Option.isSome_map.trans (by simp [hk])⟩, ?_⟩
  show (_ ++ [_]).Sublist (_ ++ s.builder.routine.toList.flatMap _ ++ (s.builder.block.map _).toList.flatMap _)
  simp [Builder.entries, Block.entries, hk, hterminator]

theorem asks_startBlock (id : BlockId) (label : String) : Asks .ended (build (Builder.startBlock id label)) .isOpen s := by
  refine .silent rfl fun hs => ?_
  obtain ⟨r, hr⟩ := Option.isSome_iff_exists.1 hs.1
  obtain ⟨k, hk⟩ := Option.isSome_iff_exists.1 hs.2
  have hbuilder : ((Builder.startBlock id label).run s.builder).2 = { s.builder with
      block := some ⟨id, label, [], none⟩, routine := some { r with blocks := r.blocks ++ [k] } } := by
    simp [Builder.startBlock_eq, hr, hk]
  rw [hbuilder]
  exact ⟨⟨rfl, _, rfl, rfl⟩, by simp [Builder.entries, Routine.entries, Block.entries, hr, hk]⟩

theorem sublist_withPrologue (r : Routine) (is : List Instr) : r.entries.Sublist (Builder.withPrologue r is).entries := by
  unfold Builder.withPrologue
  split
  · exact .refl _
  · rename_i entry rest hblocks
    simp [Routine.entries, Block.entries, hblocks]

theorem asks_finishRoutine : Asks .ended (build Builder.finishRoutine) .idle s := by
  refine .silent rfl fun hs => ?_
  obtain ⟨r, hr⟩ := Option.isSome_iff_exists.1 hs.1
  obtain ⟨k, hk⟩ := Option.isSome_iff_exists.1 hs.2
  have hbuilder : (Builder.finishRoutine.run s.builder).2 = { s.builder with
      block := none, routine := none, prologue := [],
      assembly := { s.builder.assembly with routines := s.builder.assembly.routines ++
        [Builder.withPrologue { r with blocks := r.blocks ++ [k] } s.builder.prologue] } } := by
    show s.builder.closeRoutine = _
    simp [Builder.closeRoutine_eq, Builder.closing, hr, hk]
  rw [hbuilder]
  refine ⟨⟨rfl, rfl⟩, ?_⟩
  have hcode := (sublist_withPrologue { r with blocks := r.blocks ++ [k] } s.builder.prologue).append_left
    s.builder.assembly.entries
  simpa [Builder.entries, Assembly.entries, Routine.entries, hr, hk] using hcode

theorem requests_freshParams : ∀ (tys : List MachineType) (b : Builder), (Builder.freshParams tys).requests b = []
  | [], _ => rfl
  | _ :: tys, _ => (List.append_nil _).trans (requests_freshParams tys _)

theorem asks_startRoutine (name : String) (params : List MachineType) (ret : MachineType) :
    Asks .idle (build (Builder.startRoutine name params ret)) .isOpen s := by
  refine .silent ((List.append_nil _).trans (requests_freshParams params _)) fun hs => ?_
  obtain ⟨ps, hbuilder, -⟩ := Builder.run_startRoutine name params ret s.builder
  rw [hbuilder, Builder.closeRoutine_of_none hs.1 hs.2]
  exact ⟨⟨rfl, _, rfl, rfl⟩, by simp [Builder.entries, Routine.entries, Block.entries, hs.1, hs.2]⟩

theorem asks_stringConstant (content : String) : Asks p (build (Builder.stringConstant content)) p s := by
  refine .aside rfl ?_ ?_ ?_ <;> (simp only [Builder.stringConstant, Build.run_modifyGet]; split <;> rfl)

/-- **A call in its place leads to the next phase**, and what it asks for comes behind all other code. -/
theorem asks_call (c : Call α) (hc : c.next? p = some q) : Asks p (build c.run) q s := by
  have hplace {r t : Phase} (h : (if p = r then some t else none) = some q) : p = r ∧ t = q := by simpa using h
  cases c with
  | store =>
    obtain ⟨rfl, rfl⟩ := hplace hc
    exact asks_emit _ _
  | load | compute =>
    obtain ⟨rfl, rfl⟩ := hplace hc
    exact asks_emitResult _
  | invoke =>
    obtain ⟨rfl, rfl⟩ := hplace hc
    exact asks_callVariadic _ _ _
  | quit =>
    obtain ⟨rfl, rfl⟩ := hplace hc
    exact .build_bind (asks_callVariadic _ _ _) fun _ _ => .build_bind (asks_terminate _) fun _ _ => asks_startBlock _ _
  | terminate =>
    obtain ⟨rfl, rfl⟩ := hplace hc
    exact asks_terminate _
  | startBlock =>
    obtain ⟨rfl, rfl⟩ := hplace hc
    exact asks_startBlock _ _
  | startRoutine =>
    obtain ⟨rfl, rfl⟩ := hplace hc
    exact asks_startRoutine _ _ _
  | finishRoutine =>
    obtain ⟨rfl, rfl⟩ := hplace hc
    exact asks_finishRoutine
  | createBlock | alloca | initSlot | register =>
    cases hc
    exact .aside rfl rfl rfl rfl
  | stringConstant =>
    cases hc
    exact asks_stringConstant _
  | declareExternal => cases hc

theorem asks_functionInfo (name : Ident) : Asks p (functionInfo name) p s := by
  refine .bind (.of_still rfl fun _ _ h => by cases h; rfl) fun _ _ _ => ?_
  split
  · exact .pure _
  · exact .throw _

theorem Orderly.asks {V : View} {P : α → LowerState → Prop} (h : Orderly V s p x P q) (hs : V.Fit s) : Asks p x q s := by
  induction h with
  | pure => exact .pure _
  | throw => exact .throw _
  | imp _ _ ih => exact ih hs
  | get_bind _ _ ih => exact ih hs
  | @modifyGet _ s _ g _ same =>
    refine .of_still rfl fun _ _ hrun => ?_
    obtain rfl := congrArg Prod.snd (Except.ok.inj hrun)
    exact congrArg (fun r => r.2.builder) (same s s.builder)
  | call c next => exact asks_call c next
  | bind first _ ihx ihf =>
    refine (ihx hs).bind fun a s' hrun => ?_
    obtain ⟨hle, hP⟩ := first.gives hs a s' hrun
    exact ihf a s' hle hP (V.fit hle hs)
  | functionInfo _ name _ ih =>
    refine (asks_functionInfo name).bind fun info s' hrun => ?_
    obtain ⟨rfl, hinfo⟩ := gives_functionInfo name _ _ hrun
    obtain ⟨hcalls, hanswers⟩ := V.linked hs hinfo
    exact ih info hcalls hanswers hs
  | isTerminated _ _ _ ih =>
    intro hopen
    obtain ⟨k, hk, hterminator⟩ := hopen.block
    exact ih (by simp [Builder.isTerminated, hk, hterminator]) hs hopen

theorem asks_declareAll : ∀ (es : List External) {s : LowerState}, Asks .idle (build (External.declareAll es)) .idle s
  | [], _ => .pure ()
  | e :: rest, s => by
    refine .build_bind (.aside rfl ?_ ?_ ?_) fun _ _ => asks_declareAll rest
    all_goals
      simp only [Builder.declareExternal, Build.run_modify]
      split
    all_goals simp [Assembly.entries, Routine.entries]

theorem asks_program (p : Program) (sigs : Signatures) (withGraphics : Bool) :
    Asks .idle (program p sigs withGraphics) .idle s := by
  have hV : (View.plain True).Total := ⟨⟨trivial, trivial, trivial⟩, trivial, trivial⟩
  have hrest (s : LowerState) :=
    (orderly_bodies hV p sigs (fun _ _ _ => trivial) fun _ => trivial).asks (s := s) (.inl trivial)
  refine (asks_declareAll _).bind fun _ s₁ _ => ?_
  split
  · exact (asks_declareAll _).bind fun _ s₂ _ => hrest s₂
  · exact hrest s₁

end Lower

namespace Program

/-- **Lowering asks only open blocks for code.**  Whether the program is refused or not, each instruction and each terminator
is asked for while a block of a routine is open that has no terminator.  If the program is not refused, all of them are in
the assembly, in the order in which they were asked for. -/
theorem requests_in_open_blocks (p : Program) (sigs : Signatures) (options : LowerOptions) (withGraphics : Bool) :
    let rs := (Lower.program p sigs withGraphics).requests (Lower.initial options)
    (∀ r ∈ rs, r.builder.IsOpen) ∧ ∀ s, (Lower.program p sigs withGraphics).run (Lower.initial options) = .ok ((), s) →
      (rs.map Request.entry).Sublist s.builder.finish.entries := by
  obtain ⟨hopen, hends⟩ := Lower.asks_program (s := Lower.initial options) p sigs withGraphics ⟨rfl, rfl⟩
  refine ⟨hopen, fun s hrun => ?_⟩
  obtain ⟨hidle, hcode⟩ := hends () s hrun
  rw [Builder.finish, Builder.closeRoutine_of_none hidle.1 hidle.2]
  rw [show (Lower.initial options).builder.entries = [] from rfl, List.nil_append] at hcode
  simpa [Builder.entries, hidle.1, hidle.2] using hcode

end Program
end QuillLang
