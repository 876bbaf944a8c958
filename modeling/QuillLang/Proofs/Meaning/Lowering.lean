import QuillLang.Proofs.Assembled
import QuillLang.Proofs.Meaning.Routine
/-!
# Programs of numbers, lowered

Every function of a program of numbers becomes a routine that does what its body means, and so does the top level
(`Lower.gives_program`).
-/
namespace QuillLang

theorem External.function_ne_printf (x : String) : "fn." ++ x ≠ "printf" := by
  intro h
  have hmem : "fn." ++ x ∈ External.names := by
    rw [h]
    decide
  exact External.function_not_mem x hmem

namespace LowerState

structure Between (σ : LowerState) : Prop where
  routine : σ.builder.routine = none
  block : σ.builder.block = none
  prologue : σ.builder.prologue = []
  frames : σ.frames = Frames.top
  globals : σ.builder.assembly.globals = [] ∨ σ.builder.assembly.globals = [numberFormat]
  functions : ∀ name info, σ.functions.get? name = some info → info.symbol = "fn." ++ name ∧
    (∀ ty ∈ info.params, ty = .int) ∧ info.ret = .int ∧
    σ.builder.signatures.get? info.symbol = some ⟨info.params.map Ty.machineType, .i64, false⟩
  printf : σ.builder.signatures.get? "printf" = some ⟨[.ptr], .i32, true⟩

variable {σ : LowerState}

def opened (σ : LowerState) (symbol : String) (params : List MachineType) (out : MachineType) (scopes : Scopes)
    (frames : Frames) (ret : Option Ty) : LowerState :=
  { σ with
    builder := ((Builder.startRoutine symbol params out).run σ.builder).2
    scopes, frames, ret
    loopDepth := 0
    afterReturn := false }

theorem Between.opened (h : σ.Between) (symbol : String) (params : List MachineType) (out : MachineType)
    (scopes : Scopes) (frames : Frames) (ret : Option Ty) (hframes : frames.current = []) (hscopes : scopes.current.AllInt)
    (hret : ∀ ty, ret = some ty → ty = .int) (hprintf : symbol ≠ "printf")
    (hsymbol : ∀ name info, σ.functions.get? name = some info → info.symbol = symbol →
      params = info.params.map Ty.machineType ∧ out = .i64) : ∃ ps : List (Register × MachineType),
    ((Builder.startRoutine symbol params out).run σ.builder).1 = ps.map Prod.fst ∧ ps.length = params.length ∧
      (σ.opened symbol params out scopes frames ret).builder.assembly = σ.builder.assembly ∧
      (σ.opened symbol params out scopes frames ret).Starts ⟨symbol, ps, out, [], false, false⟩ ∧
      (σ.opened symbol params out scopes frames ret).Ready := by
  unfold LowerState.opened
  obtain ⟨ps, hrun, htys, hnodup, hbelow⟩ := Builder.run_startRoutine symbol params out σ.builder
  rw [Builder.closeRoutine_of_none h.routine h.block] at hrun hbelow
  rw [hrun]
  refine ⟨ps, rfl, by rw [← htys, List.length_map], rfl,
    ⟨rfl, rfl, ⟨_, _, rfl⟩, hframes, fun p hp => (hbelow p hp).2, hnodup⟩, ?_⟩
  refine
    { below := ?_, kinds := ?_, isOpen := ⟨_, _, rfl, rfl, rfl⟩, registers := ?_, prologue := ?_
      globals := h.globals, scopes := hscopes, ret := hret, functions := fun name info hinfo => ?_, printf := ?_ }
  · simp [Frame.Below, hframes]
  · simp [hframes]
  · simp [hframes]
  · simp [hframes]
  · obtain ⟨-, hparams, hint, hsig⟩ := h.functions name info hinfo
    refine ⟨hparams, hint, ?_⟩
    show (σ.builder.signatures.insert symbol ⟨params, out, false⟩).get? info.symbol = _
    rw [Table.get?_insert]
    split
    · rename_i hsame
      obtain ⟨rfl, rfl⟩ := hsymbol name info hinfo hsame
      rfl
    · exact hsig
  · show (σ.builder.signatures.insert symbol ⟨params, out, false⟩).get? "printf" = _
    rw [Table.get?_insert, if_neg hprintf.symm]
    exact h.printf

theorem closeRoutine_eq {r : Routine} {k : Block} (hr : σ.builder.routine = some r) (hk : σ.builder.block = some k)
    (hterm : k.terminator = none) (hσ : σ.Ready) (t : Terminator) :
    ((Builder.terminate t).run σ.builder).2.closeRoutine =
      { σ.builder with
        routine := none
        block := none
        prologue := []
        assembly := { σ.builder.assembly with
          routines := σ.builder.assembly.routines ++ [σ.closing r k t] } } := by
  show Builder.closeRoutine { σ.builder with block := σ.builder.block.map _ } = _
  rw [hk]
  simp [Builder.closeRoutine_eq, Builder.closing, hr, hterm, closing, hσ.prologue]

structure Adds (σ : LowerState) (r : Routine) (σ' : LowerState) : Prop where
  routine : σ'.builder.routine = none
  block : σ'.builder.block = none
  prologue : σ'.builder.prologue = []
  functions : σ'.functions = σ.functions
  routines : σ'.builder.assembly.routines = σ.builder.assembly.routines ++ [r]
  formats : σ'.builder.assembly.globals = [] ∨ σ'.builder.assembly.globals = [numberFormat]
  globals : ∀ g ∈ σ.builder.assembly.globals, g ∈ σ'.builder.assembly.globals

theorem Starts.finish (σ : LowerState) {σ₁ σ₂ σ₃ σ' : LowerState} {r₀ : Routine} {t : Terminator} {ps : List Ident}
    {body : List Stmt} (hstart : σ₁.Starts r₀) (hassembly : σ₁.builder.assembly = σ.builder.assembly)
    (hfunctions : σ₁.functions = σ.functions) (hkeeps : σ₁.Keeps σ₂)
    (hbinds : σ₁.Binds ps (r₀.params.map Prod.fst) σ₂) (hlive : σ₂.afterReturn = false)
    (hmade : σ₂.Made (fun call n => Stmt.runAll call n body) σ₃) (hend : σ₃.Ends t)
    (hbuilder : σ'.builder = ((Builder.terminate t).run σ₃.builder).2.closeRoutine) (hsame : σ'.functions = σ₃.functions) :
    σ'.builder.signatures = σ₃.builder.signatures ∧ ∃ r, σ.Adds r σ' ∧ r.name = r₀.name ∧ r.params = r₀.params ∧
      r.isExternal = r₀.isExternal ∧ r.Does σ.functions σ₃.ret ps body σ'.builder.assembly.globals := by
  obtain ⟨r, k, hr, hk, hterm⟩ := hmade.ready.isOpen
  rw [closeRoutine_eq hr hk hterm hmade.ready] at hbuilder
  have hall := hkeeps.trans hmade.keeps
  obtain ⟨hname, hparams, hexternal⟩ := hstart.head hall hr k t
  have hdoes := hstart.does hkeeps hbinds hlive hmade hr hk hterm hend
  rw [hall.functions, hfunctions] at hdoes
  refine ⟨by rw [hbuilder], σ₃.closing r k t, ⟨?_, ?_, ?_, ?_, ?_, ?_, ?_⟩, hname, hparams, hexternal, ?_⟩
  · rw [hbuilder]
  · rw [hbuilder]
  · rw [hbuilder]
  · exact hsame.trans (hall.functions.trans hfunctions)
  · rw [hbuilder, ← hassembly, ← hall.routines]
  · rw [hbuilder]
    exact hmade.ready.globals
  · rw [hbuilder, ← hassembly]
    exact hall.globals
  · rw [hbuilder]
    exact hdoes

theorem Adds.between {σ₃ σ' : LowerState} {r : Routine} (h : σ.Adds r σ') (hσ : σ.Between) (hready : σ₃.Ready)
    (hfunctions : σ'.functions = σ₃.functions) (hsignatures : σ'.builder.signatures = σ₃.builder.signatures)
    (hframes : σ'.frames = Frames.top) : σ'.Between := by
  refine ⟨h.routine, h.block, h.prologue, hframes, h.formats, fun name info hget => ?_, ?_⟩
  · have hknown : σ.functions.get? name = some info := by
      rw [← h.functions]
      exact hget
    rw [hfunctions] at hget
    rw [hsignatures]
    exact ⟨(hσ.functions name info hknown).1, hready.functions name info hget⟩
  · rw [hsignatures]
    exact hready.printf

end LowerState

/-- A routine that a function has become and that does what the function means. -/
structure FuncDecl.Works (f : FuncDecl) (functions : Table FuncInfo) (globals : List Global) (r : Routine) : Prop where
  name : r.name = "fn." ++ f.name.name
  internal : r.isExternal = false
  arity : r.params.length = f.params.length
  does : r.Does functions (some .int) f.params f.body globals

theorem FuncDecl.Works.mono {f : FuncDecl} {functions : Table FuncInfo} {globals globals' : List Global} {r : Routine}
    (h : f.Works functions globals r) (hglobals : ∀ g ∈ globals, g ∈ globals') : f.Works functions globals' r :=
  ⟨h.name, h.internal, h.arity, fun a ha hall => h.does a ha fun g hg => hall g (hglobals g hg)⟩

namespace Lower
variable {σ : LowerState} {sigs : Signatures}

theorem gives_implicitReturn (hσ : σ.Ready) {ty : Ty} (hret : σ.ret = some ty) :
    Gives (implicitReturn ty) σ fun _ σ' =>
      ∃ t, σ.Ends t ∧ σ' = { σ with builder := ((Builder.terminate t).run σ.builder).2 } := by
  unfold implicitReturn
  refine .get_bind ?_
  obtain rfl := hσ.ret ty hret
  split
  · rename_i hdead
    exact .build ⟨.unreachable, .inl hdead, rfl⟩
  · refine (gives_releaseLocals hσ).bind ?_
    rintro _ σ rfl
    refine .build ⟨.ret (some (.i64, .int 0)), .inr ⟨.i64, rfl, fun a m => ?_⟩, rfl⟩
    rw [hret]
    rfl

theorem isTerminated_of_ready (hσ : σ.Ready) : σ.builder.isTerminated = false := by
  obtain ⟨r, k, -, hk, hterm⟩ := hσ.isOpen
  unfold Builder.isTerminated
  rw [hk]
  simp [hterm]

/-- **A function becomes a routine that does what its body means.** -/
theorem gives_function (hσ : σ.Between) (hsigs : sigs.AllInt) {f : FuncDecl} (hbody : Stmt.areNumeric f.body = true)
    (hinfo : σ.functions.get? f.name.name = some (f.info sigs)) :
    Gives (function sigs f) σ fun _ σ' => σ'.Between ∧
      ∃ r, σ.Adds r σ' ∧ f.Works σ.functions σ'.builder.assembly.globals r := by
  refine (gives_functionInfo f.name).bind ?_
  rintro info σ ⟨rfl, hfound⟩
  obtain rfl : f.info sigs = info := Option.some.inj (hinfo.symm.trans hfound)
  obtain ⟨-, hparams, hret, -⟩ := hσ.functions _ _ hinfo
  have hsymbol : ∀ name info, σ.functions.get? name = some info → info.symbol = (f.info sigs).symbol →
      (f.info sigs).params.map Ty.machineType = info.params.map Ty.machineType ∧ (f.info sigs).ret.machineType = .i64 := by
    intro name info hname hsymbol
    obtain rfl : name = f.name.name := function_symbol_inj ((hσ.functions name info hname).1.symm.trans hsymbol)
    obtain rfl : f.info sigs = info := Option.some.inj (hinfo.symm.trans hname)
    rw [hret]
    exact ⟨rfl, rfl⟩
  obtain ⟨ps, hfst, hlength, hassembly, hstarts, hready⟩ := hσ.opened (f.info sigs).symbol
    ((f.info sigs).params.map Ty.machineType) (f.info sigs).ret.machineType (σ.scopes.enter (f.scope sigs)) σ.frames.enter
    (some (f.info sigs).ret) rfl (f.allInt_scope hsigs hbody) (fun ty hty => by cases hty; exact hret)
    (External.function_ne_printf _) hsymbol
  rw [List.length_map] at hlength
  have harity : f.params.length = (f.info sigs).params.length := by simp [FuncDecl.info, Signatures.paramTypes]
  refine Gives.bind (.build (Q := fun regs σ' => regs = ps.map Prod.fst ∧ σ' = _) ⟨hfst, rfl⟩) ?_
  rintro _ _ ⟨rfl, rfl⟩
  refine Gives.bind (.modify rfl : Gives (enterFunction _ _) _ fun _ σ' => σ' = σ.opened _ _ _ _ _ _) ?_
  rintro _ _ rfl
  refine (gives_bindParams f.params (f.info sigs).params (ps.map Prod.fst) hparams harity ?_ hready).bind ?_
  · rw [List.length_map, hlength, harity]
  rintro _ σ₂ ⟨hready₂, hkeeps₂, hdead₂, hbinds⟩
  refine (makes_block f.body hbody hready₂).bind ?_
  intro _ σ₃ hmade
  have hkeeps := hkeeps₂.trans hmade.keeps
  refine .get_bind ?_
  dsimp only
  rw [isTerminated_of_ready hmade.ready]
  refine (gives_implicitReturn hmade.ready hkeeps.ret).bind ?_
  rintro _ _ ⟨t, hend, rfl⟩
  refine Gives.bind (.build rfl : Gives (build Builder.finishRoutine) _ fun _ σ' =>
    σ' = { σ₃ with builder := ((Builder.terminate t).run σ₃.builder).2.closeRoutine }) ?_
  rintro _ _ rfl
  intro _ σ' hrun
  have hbuilder : σ'.builder = ((Builder.terminate t).run σ₃.builder).2.closeRoutine := by cases hrun; rfl
  have hfunctions : σ'.functions = σ₃.functions := by cases hrun; rfl
  have hframes : σ'.frames = Frames.top := by
    have hleave : σ'.frames = σ₃.frames.leave.2 := by cases hrun; rfl
    rw [hleave]
    unfold Frames.leave
    rw [hkeeps.outer]
    show Frames.mk σ.frames.table σ.frames.outer = _
    rw [hσ.frames]
  obtain ⟨hsignatures, r, hadds, hname, hps, hexternal, hdoes⟩ :=
    hstarts.finish σ hassembly rfl hkeeps₂ hbinds hdead₂ hmade hend hbuilder hfunctions
  rw [hkeeps.ret] at hdoes
  refine ⟨hadds.between hσ hmade.ready hfunctions hsignatures hframes, r, hadds, hname, hexternal, ?_, hdoes⟩
  rw [hps, harity]
  exact hlength

theorem gives_functions (hsigs : sigs.AllInt) : ∀ (l : List FuncDecl) {σ : LowerState}, σ.Between →
    (∀ f ∈ l, Stmt.areNumeric f.body = true ∧ σ.functions.get? f.name.name = some (f.info sigs)) →
    Gives (functions sigs l) σ fun _ σ' => σ'.Between ∧ σ'.functions = σ.functions ∧
      (∀ g ∈ σ.builder.assembly.globals, g ∈ σ'.builder.assembly.globals) ∧
      (∀ r ∈ σ.builder.assembly.routines, r ∈ σ'.builder.assembly.routines) ∧
      ∀ f ∈ l, ∃ r ∈ σ'.builder.assembly.routines, f.Works σ.functions σ'.builder.assembly.globals r
  | [], σ, hσ, _ => by
    unfold functions
    exact .pure ⟨hσ, rfl, fun _ hg => hg, fun _ hr => hr, by simp⟩
  | f :: l, σ, hσ, hl => by
    unfold functions
    obtain ⟨hbody, hinfo⟩ := hl f List.mem_cons_self
    refine (gives_function hσ hsigs hbody hinfo).bind ?_
    rintro _ σ₁ ⟨hσ₁, r, hadds, hworks⟩
    refine (gives_functions hsigs l hσ₁ fun g hg => ?_).imp ?_
    · rw [hadds.functions]
      exact hl g (List.mem_cons_of_mem _ hg)
    rintro _ σ₂ ⟨hσ₂, hfunctions, hglobals, hroutines, hall⟩
    rw [hadds.functions] at hfunctions hall
    have hmem : ∀ r' ∈ σ.builder.assembly.routines ++ [r], r' ∈ σ₂.builder.assembly.routines := by
      rw [← hadds.routines]
      exact hroutines
    refine ⟨hσ₂, hfunctions, fun g hg => hglobals g (hadds.globals g hg),
      fun r' hr' => hmem r' (List.mem_append_left _ hr'), fun g hg => ?_⟩
    rcases List.mem_cons.1 hg with rfl | hg
    · exact ⟨r, hmem r (List.mem_append_right _ List.mem_cons_self), hworks.mono hglobals⟩
    · exact hall g hg

theorem gives_topLevel (hσ : σ.Between) {p : Program} (hp : p.isNumeric = true) :
    Gives (topLevel p) σ fun _ σ' => ∃ r, σ.Adds r σ' ∧ r.name = "main" ∧ r.isExternal = false ∧ r.params = [] ∧
      r.Does σ.functions none [] p.statements σ'.builder.assembly.globals := by
  have hframes : σ.frames.current = [] := by rw [hσ.frames]; rfl
  have hsymbol : ∀ name info, σ.functions.get? name = some info → info.symbol = "main" →
      [] = info.params.map Ty.machineType ∧ MachineType.i32 = .i64 := by
    intro name info hname hmain
    rw [(hσ.functions name info hname).1] at hmain
    exact absurd hmain (function_symbol_ne_main name)
  obtain ⟨ps, -, hlength, hassembly, hstarts, hready⟩ := hσ.opened "main" [] .i32
    (σ.scopes.replace (Stmt.declareAll Table.empty p.statements)) σ.frames none hframes
    (Stmt.allInt_declareAll p.statements hp VarTable.allInt_empty) (fun _ h => by cases h) (by decide) hsymbol
  obtain rfl := List.length_eq_zero_iff.1 hlength
  refine Gives.bind (.build (Q := fun _ σ' => σ' = _) rfl) ?_
  rintro _ _ rfl
  refine Gives.bind (.modify rfl : Gives _ _ fun _ σ' => σ' = σ.opened "main" [] .i32
    (σ.scopes.replace (Stmt.declareAll Table.empty p.statements)) σ.frames none) ?_
  rintro _ _ rfl
  refine (makes_block p.statements hp hready).bind ?_
  intro _ σ₃ hmade
  have hkeeps := hmade.keeps
  refine .get_bind ?_
  have hbinds : LowerState.Binds (σ.opened "main" [] .i32 (σ.scopes.replace (Stmt.declareAll Table.empty p.statements))
      σ.frames none) [] [] (σ.opened "main" [] .i32 (σ.scopes.replace (Stmt.declareAll Table.empty p.statements))
      σ.frames none) :=
    fun S P hP => ⟨P, hP, fun _ n m vars vs hat _ => .pure ⟨.refl m, hat⟩⟩
  -- however the body ends, the routine may be closed there
  have hclose : ∀ t, σ₃.Ends t → Gives (do build (Builder.terminate t); build Builder.finishRoutine) σ₃ fun _ σ' =>
      ∃ r, σ.Adds r σ' ∧ r.name = "main" ∧ r.isExternal = false ∧ r.params = [] ∧
        r.Does σ.functions none [] p.statements σ'.builder.assembly.globals := by
    intro t hend _ σ' hrun
    have hbuilder : σ'.builder = ((Builder.terminate t).run σ₃.builder).2.closeRoutine := by cases hrun; rfl
    have hfunctions : σ'.functions = σ₃.functions := by cases hrun; rfl
    obtain ⟨-, r, hadds, hname, hps, hexternal, hdoes⟩ :=
      hstarts.finish σ hassembly rfl (.refl _) hbinds rfl hmade hend hbuilder hfunctions
    rw [hkeeps.ret] at hdoes
    exact ⟨r, hadds, hname, hexternal, hps, hdoes⟩
  dsimp only
  split
  · rename_i hdead
    exact hclose .unreachable (.inl hdead)
  · refine hclose (.ret (some (.i32, .int 0))) (.inr ⟨.i32, rfl, fun a m => ?_⟩)
    rw [hkeeps.ret]
    rfl

/-! ## Whole programs -/

theorem Prepared.between {p : Program} {title : String} {g : Bool} {es : List External} (h : Prepared p sigs title g es σ)
    (hsigs : sigs.AllInt) : σ.Between := by
  refine ⟨h.idle.routine, h.idle.block, h.prologue, h.idle.frames, .inl h.globals, fun name info hname => ?_, ?_⟩
  · obtain ⟨f, hf, rfl, rfl⟩ := h.declared.only_info name info hname
    have hret : (f.info sigs).ret = .int := hsigs.returnType _
    refine ⟨rfl, hsigs.paramTypes _ _, hret, (h.declared.symbol f hf).trans ?_⟩
    unfold FuncDecl.callSignature
    rw [hret]
    rfl
  · exact h.declared.external ⟨"printf", ⟨[.ptr], .i32, true⟩⟩ (h.core _ (by decide))

end Lower

/-- What an assembly has of a program of numbers. -/
structure Program.Realized (p : Program) (sigs : Signatures) (functions : Table FuncInfo) (a : Assembly) : Prop where
  globals : ∀ g ∈ a.globals, g = numberFormat
  externals : ∀ e ∈ External.core, e.routine ∈ a.routines
  known : ∀ name info, functions.get? name = some info → ∃ f ∈ p.functions, name = f.name.name ∧ info = f.info sigs
  routines : ∀ f ∈ p.functions, ∃ r ∈ a.routines, f.Works functions a.globals r
  main : ∃ r ∈ a.routines, r.name = "main" ∧ r.isExternal = false ∧ r.params = [] ∧
    r.Does functions none [] p.statements a.globals

namespace Lower
variable {sigs : Signatures}

/-- **Lowering a program of numbers makes routines that do what its functions and its top level mean.** -/
theorem gives_program {p : Program} (hp : p.isNumeric = true) (hsigs : sigs.AllInt) (options : LowerOptions) (g : Bool) :
    Gives (program p sigs g) (initial options) fun _ σ => ∃ functions, p.Realized sigs functions σ.builder.finish := by
  rw [program_eq_externals, ← bind_assoc]
  refine (ensures_prepared p sigs options g).gives.bind ?_
  rintro _ σ₁ ⟨es, h⟩
  refine (gives_functions hsigs p.functions (h.between hsigs) fun f hf =>
    ⟨Program.areNumeric_body hp hf, h.declared.info f hf⟩).bind ?_
  rintro _ σ₂ ⟨hσ₂, hfunctions, -, hroutines, hworks⟩
  refine (gives_topLevel hσ₂ hp).imp ?_
  rintro _ σ₃ ⟨r, hadds, hname, hinternal, hparams, hdoes⟩
  rw [Builder.finish, Builder.closeRoutine_of_none hadds.routine hadds.block]
  rw [hfunctions] at hdoes
  refine ⟨σ₁.functions, ?_, fun e he => ?_, h.declared.only_info, fun f hf => ?_, r, ?_, hname, hinternal, hparams, hdoes⟩
  · intro g hg
    rcases hadds.formats with hnone | hone
    · rw [hnone] at hg
      cases hg
    · rw [hone] at hg
      exact List.mem_singleton.1 hg
  · rw [hadds.routines]
    exact List.mem_append_left _ (hroutines _ (h.routines ▸ List.mem_map_of_mem (h.core e he)))
  · obtain ⟨r', hr', hworks⟩ := hworks f hf
    refine ⟨r', ?_, hworks.mono hadds.globals⟩
    rw [hadds.routines]
    exact List.mem_append_left _ hr'
  · rw [hadds.routines]
    exact List.mem_append_right _ List.mem_cons_self

end Lower
end QuillLang
