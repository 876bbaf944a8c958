import QuillLang.Proofs.Points.Types
/-!
# Types at every point

At each point of a run the walk over the body has a table that the slots agree with, and what the walk asks from there on is
part of what the body asks.  `Task.Fits` says this of a task and the state in which it is begun.  It holds of a body at its
start, a task hands it on to the tasks inside it (`Task.Fits.begins`), and so it holds at all points
(`Program.Visits.fits`).
-/
namespace QuillLang
namespace Lower

/-- What is known of the state in which a body is begun. -/
structure Body (sigs : Signatures) (owner : Option FuncDecl) (scope : VarTable) (σ₀ : LowerState) : Prop where
  scope : σ₀.scopes.current = scope
  ret : σ₀.ret = owner.map fun f => sigs.returnType f.name.name
  functions : ∀ name info, σ₀.functions.get? name = some info → ∃ n, info.params = sigs.paramTypes name n

namespace Task

/-- A task that is begun where the slots agree with the walk, in a body all of whose demands are `Granted`. -/
def Fits (sigs : Signatures) (owner : Option FuncDecl) (Granted : Demand → Prop) (σ₀ : LowerState) :
    Task → LowerState → Prop
  | params names tys regs, σ => names.length = tys.length ∧ tys.length = regs.length ∧
      ∃ vars, Typed σ₀ vars σ ∧ (vars.declareParams names tys).Part σ₀.scopes.current
  | block l, σ => ∃ vars, Typed σ₀ vars σ ∧ (Stmt.declareAll vars l).Part σ₀.scopes.current ∧
      ∀ d ∈ Stmt.demandsAll (owner.map (·.name.name)) vars l, Granted d
  | stmt s, σ => ∃ vars, Typed σ₀ vars σ ∧ (s.declare vars).Part σ₀.scopes.current ∧
      ∀ d ∈ s.demands (owner.map (·.name.name)) vars, Granted d
  | declare name kind, σ => ∃ vars ty, Typed σ₀ vars σ ∧ (vars.declare name.name ty).Part σ₀.scopes.current ∧
      (vars.get? name.name = none → (kind = .string ↔ ty = .string))
  | arguments args tys, σ => ∃ vars callee k, Typed σ₀ vars σ ∧ vars.Part σ₀.scopes.current ∧
      ∀ i arg ty, args[i]? = some arg → tys[i]? = some ty →
        ty = sigs.paramType callee (k + i) ∧ Granted ⟨.argument callee (k + i), arg.infer vars⟩
  | ints _, σ | expr _, σ => ∃ vars, Typed σ₀ vars σ ∧ vars.Part σ₀.scopes.current

namespace Fits
variable {sigs : Signatures} {owner : Option FuncDecl} {Granted : Demand → Prop} {scope : VarTable} {σ₀ σ σ' : LowerState}
  {task task' : Task}

/-- Wherever a task is begun, the slots agree with a part of the scope. -/
theorem typed (h : task.Fits sigs owner Granted σ₀ σ) : ∃ vars, Typed σ₀ vars σ ∧ vars.Part σ₀.scopes.current := by
  cases task with
  | params names tys regs =>
    obtain ⟨-, -, vars, ht, hpart⟩ := h
    exact ⟨vars, ht, (VarTable.part_declareParams names tys vars).trans hpart⟩
  | block l =>
    obtain ⟨vars, ht, hpart, -⟩ := h
    exact ⟨vars, ht, (Stmt.part_declareAll l vars).trans hpart⟩
  | stmt s =>
    obtain ⟨vars, ht, hpart, -⟩ := h
    exact ⟨vars, ht, (Stmt.part_declare s vars).trans hpart⟩
  | declare name kind =>
    obtain ⟨vars, ty, ht, hpart, -⟩ := h
    exact ⟨vars, ht, (VarTable.part_declare vars name.name ty).trans hpart⟩
  | arguments args tys =>
    obtain ⟨vars, -, -, ht, hpart, -⟩ := h
    exact ⟨vars, ht, hpart⟩
  | ints es => exact h
  | expr e => exact h

theorem gives_run (h : task.Fits sigs owner Granted σ₀ σ) :
    Gives task.run σ fun _ σ' => ∃ vars, Typed σ₀ vars σ' ∧ vars.Part σ₀.scopes.current := by
  have hkeeps : ∀ {x : Lower Unit}, Keeps x →
      Gives x σ fun _ σ' => ∃ vars, Typed σ₀ vars σ' ∧ vars.Part σ₀.scopes.current := by
    obtain ⟨vars, ht, hpart⟩ := h.typed
    exact fun hx => (ht.gives_keeps hx).imp fun _ _ h => ⟨vars, h, hpart⟩
  cases task with
  | params names tys regs =>
    obtain ⟨hnames, htys, vars, ht, hpart⟩ := h
    exact (ht.gives_bindParams names tys regs hnames htys).imp fun _ _ h => ⟨_, h, hpart⟩
  | block l =>
    obtain ⟨vars, ht, hpart, -⟩ := h
    exact (follows_block l ht hpart).imp fun _ _ h => ⟨_, h, hpart⟩
  | stmt s =>
    obtain ⟨vars, ht, hpart, -⟩ := h
    exact (follows_stmt s ht hpart).imp fun _ _ h => ⟨_, h, hpart⟩
  | declare name kind =>
    obtain ⟨vars, ty, ht, hpart, hkind⟩ := h
    exact (ht.gives_declareSlot name hkind).bind fun _ _ h => .pure ⟨_, h, hpart⟩
  | arguments args tys => exact hkeeps ((keeps_arguments args tys).bind fun _ => .pure ())
  | ints es => exact hkeeps ((View.keeps fun _ => tidy_ints trivial (View.supplies trivial _)).bind fun _ => .pure ())
  | expr e => exact hkeeps ((keeps_expr e).bind fun _ => .pure ())

/-- **A task hands it on to the tasks inside it.** -/
theorem begins (hbody : Body sigs owner scope σ₀) (hbegins : Begins task σ task' σ')
    (h : task.Fits sigs owner Granted σ₀ σ) : task'.Fits sigs owner Granted σ₀ σ' := by
  have htyped := h.typed
  -- a task that wants no more than a part of the scope, after steps that change the code alone
  have hkept : ∀ {α : Type} {x : Lower α} {v : α} {σ₁ : LowerState}, Keeps x → x.run σ = .ok (v, σ₁) →
      ∃ vars, Typed σ₀ vars σ₁ ∧ vars.Part σ₀.scopes.current := by
    intro α x v σ₁ hx hrun
    obtain ⟨vars, ht, hpart⟩ := htyped
    exact ⟨vars, ht.gives_keeps hx _ _ hrun, hpart⟩
  cases hbegins with
  | param name names ty tys reg regs =>
    obtain ⟨-, -, vars, ht, hpart⟩ := h
    refine ⟨vars, ty, ht, (VarTable.part_declareParams names tys _).trans hpart, fun _ => ?_⟩
    cases ty <;> simp [SlotKind.ofTy]
  | params hrun =>
    obtain ⟨hnames, htys, vars, ht, hpart⟩ := h
    exact ⟨Nat.succ.inj hnames, Nat.succ.inj htys, _, ht.gives_bindParams [_] [_] [_] rfl rfl _ _ hrun, hpart⟩
  | first s l =>
    obtain ⟨vars, ht, hpart, hgranted⟩ := h
    exact ⟨vars, ht, (Stmt.part_declareAll l _).trans hpart, fun d hd => hgranted d (List.mem_append_left _ hd)⟩
  | @later s l _ _ hrun =>
    obtain ⟨vars, ht, hpart, hgranted⟩ := h
    have hfirst := (Stmt.part_declareAll l (s.declare vars)).trans hpart
    exact ⟨s.declare vars, follows_stmt s ht hfirst _ _ hrun, hpart, fun d hd => hgranted d (List.mem_append_right _ hd)⟩
  | value => exact htyped
  | numbers => exact htyped
  | @make name value _ v _ _ hrun =>
    obtain ⟨vars, ht, hpart, -⟩ := h
    exact ⟨vars, value.infer vars, ht.gives_keeps (keeps_expr value) _ _ hrun, hpart,
      fun hnew => ht.ofTy_eq_string_iff hpart hnew⟩
  | @makeArray name size _ count bytes buffer _ _ _ _ hcount hbytes hbuffer =>
    obtain ⟨vars, ht, hpart, -⟩ := h
    have h₁ := ht.gives_keeps (keeps_int size) _ _ hcount
    have h₂ := h₁.gives_keeps (.build _) _ _ hbytes
    exact ⟨vars, .int, h₂.gives_keeps (.build _) _ _ hbuffer, hpart, fun _ => by simp⟩
  | test hrun => exact hkept (keeps_openTest _ _ _) hrun
  | loopTest hrun => exact hkept (keeps_openTest _ _ _) hrun
  | branch htest hopen =>
    obtain ⟨vars, ht, hpart, hgranted⟩ := h
    have h₁ := ht.gives_keeps (keeps_openTest _ _ _) _ _ htest
    exact ⟨vars, h₁.gives_keeps (keeps_openBody _ _) _ _ hopen, hpart, hgranted⟩
  | round htest hopen hdeeper =>
    obtain ⟨vars, ht, hpart, hgranted⟩ := h
    have h₁ := ht.gives_keeps (keeps_openTest _ _ _) _ _ htest
    have h₂ := h₁.gives_keeps (keeps_openBody _ _) _ _ hopen
    exact ⟨vars, h₂.gives_keeps keeps_deeper _ _ hdeeper, hpart, hgranted⟩
  | @call callee args result _ info _ hinfo hlength =>
    obtain ⟨vars, ht, hpart, hgranted⟩ := h
    have hknown : σ₀.functions.get? callee.name = some info := by
      rw [← ht.functions]
      exact (gives_functionInfo callee _ _ hinfo).2
    obtain ⟨n, hparams⟩ := hbody.functions callee.name info hknown
    refine ⟨vars, callee.name, 0, ht, hpart, fun i arg ty harg hty => ?_⟩
    rw [Nat.zero_add]
    constructor
    · rw [hparams, Signatures.paramTypes, List.getElem?_map] at hty
      obtain ⟨j, hj, rfl⟩ := Option.map_eq_some_iff.1 hty
      obtain ⟨-, rfl⟩ := List.getElem?_eq_some_iff.1 hj
      rw [List.getElem_range]
    · apply hgranted
      simp only [Stmt.demands, List.mem_iff_getElem?, List.getElem?_mapIdx]
      exact ⟨i, by rw [harg]; rfl⟩
  | title => exact htyped
  | window hrun => exact hkept (View.keeps fun _ => tidy_text trivial (View.supplies trivial _)) hrun
  | argument => exact htyped
  | @arguments arg args ty tys _ _ _ hrun =>
    obtain ⟨vars, callee, k, ht, hpart, hgranted⟩ := h
    refine ⟨vars, callee, k + 1, ht.gives_keeps (keeps_arguments _ _) _ _ hrun, hpart, fun i arg ty harg hty => ?_⟩
    have hnext := hgranted (i + 1) arg ty harg hty
    rwa [← Nat.add_assoc, Nat.add_right_comm] at hnext
  | number => exact htyped
  | ints hrun => exact hkept (keeps_int _) hrun
  | operands => exact htyped
  | left => exact htyped
  | right hrun => exact hkept (keeps_expr _) hrun

end Fits
end Task

/-! ## Where bodies begin -/

theorem ensures_openProgram (p : Program) (sigs : Signatures) (options : LowerOptions) {withGraphics : Bool}
    (hgraphics : declaresGraphics options.graphics p = .ok withGraphics) {fs : List FuncDecl}
    (hfs : ∀ f ∈ fs, f ∈ p.functions) :
    Ensures (openProgram p sigs withGraphics fs) (initial options) fun _ σ =>
      ∃ es signature, (∀ e ∈ External.core, e ∈ es) ∧ Declared es sigs p.functions signature σ.functions ∧
        Idle signature σ := by
  rw [openProgram_eq, ← bind_assoc]
  refine (ensures_prepared p sigs options withGraphics).bind ?_
  rintro _ s₂ ⟨es, h⟩
  refine (ensures_functions h.core fs h.declared h.idle fun f hf => ⟨hfs f hf, fun hd => h.draws ?_⟩).mono ?_
  · exact Program.declaresGraphics_of_use hgraphics (Stmt.blockGraphicsUse?_of_functions hd p.statements (hfs f hf))
  · rintro _ s₃ ⟨hi₃, hfunctions, -⟩
    exact ⟨es, _, h.core, hfunctions ▸ h.declared, hi₃⟩

theorem length_startRoutine (name : String) (params : List MachineType) (ret : MachineType) (b : Builder) :
    ((Builder.startRoutine name params ret).run b).1.length = params.length := by
  obtain ⟨ps, hrun, htys, -⟩ := Builder.run_startRoutine name params ret b
  rw [hrun, List.length_map, ← htys, List.length_map]

theorem Typed.start {σ : LowerState} (h : σ.frames.current = []) : Typed σ Table.empty σ where
  toStays := .refl σ
  agrees := by simp [h, Frame.Agrees]
  names x := by simp [Frames.lookup_of_nil h]

theorem gives_openFunction {es : List External} {sigs : Signatures} {fs : List FuncDecl}
    {signature : String → Option CallSignature} {σ₀ : LowerState} (hd : Declared es sigs fs signature σ₀.functions)
    {f : FuncDecl} (hf : f ∈ fs) : Gives (openFunction sigs f) σ₀ fun p σ => p.1 = f.info sigs ∧
      p.2.length = f.params.length ∧ σ.frames.current = [] ∧ Body sigs (some f) (f.scope sigs) σ := by
  refine (gives_functionInfo f.name).bind fun info σ₁ ⟨hσ₁, hinfo⟩ => ?_
  rw [hd.info f hf] at hinfo
  cases hinfo
  subst hσ₁
  refine Gives.bind (P := fun regs σ₂ => regs.length = f.params.length ∧ σ₂.functions = σ₁.functions) ?_ ?_
  · refine .build ⟨?_, rfl⟩
    rw [length_startRoutine, List.length_map]
    simp [FuncDecl.info, Signatures.paramTypes]
  · rintro regs σ₂ ⟨hregs, hfunctions⟩
    refine Gives.bind (.modify (Q := fun _ σ₃ => σ₃ = _) rfl) ?_
    rintro _ _ rfl
    refine .pure ⟨rfl, hregs, rfl, rfl, rfl, fun name info hname => ?_⟩
    rw [hfunctions] at hname
    obtain ⟨g, -, rfl, rfl⟩ := hd.only_info name info hname
    exact ⟨g.params.length, rfl⟩

theorem gives_openTop {es : List External} {sigs : Signatures} {fs : List FuncDecl}
    {signature : String → Option CallSignature} {σ₀ : LowerState} (hd : Declared es sigs fs signature σ₀.functions)
    (hidle : Idle signature σ₀) (p : Program) : Gives (openTop p) σ₀ fun _ σ =>
      σ.frames.current = [] ∧ Body sigs none (Stmt.declareAll Table.empty p.statements) σ := by
  refine Gives.bind (.build (Q := fun _ σ₁ => σ₁.functions = σ₀.functions ∧ σ₁.frames = σ₀.frames) ⟨rfl, rfl⟩) ?_
  rintro _ σ₁ ⟨hfunctions, hframes⟩
  refine .modify ⟨?_, rfl, rfl, fun name info hname => ?_⟩
  · show σ₁.frames.current = []
    rw [hframes, hidle.frames]
    rfl
  · have hname : σ₀.functions.get? name = some info := hfunctions ▸ hname
    obtain ⟨g, -, rfl, rfl⟩ := hd.only_info name info hname
    exact ⟨g.params.length, rfl⟩

end Lower

/-! ## All points -/

namespace Program
variable {p : Program} {sigs : Signatures} {options : LowerOptions} {owner : Option FuncDecl} {task : Lower.Task}
  {σ : LowerState}

def scopeOf (p : Program) (sigs : Signatures) : Option FuncDecl → VarTable
  | none => Stmt.declareAll Table.empty p.statements
  | some f => f.scope sigs

open Lower

/-- The state in which the parameters of a function get their slots. -/
theorem opens_function {withGraphics : Bool} {before after : List FuncDecl} {f : FuncDecl} {info : FuncInfo}
    {regs : List Register} {σ₀ : LowerState} (hgraphics : declaresGraphics options.graphics p = .ok withGraphics)
    (hfunctions : p.functions = before ++ f :: after)
    (hbefore : (openProgram p sigs withGraphics before).run (initial options) = .ok ((), σ₀))
    (hopen : (openFunction sigs f).run σ₀ = .ok ((info, regs), σ)) :
    VarTable.declareParams Table.empty f.params info.params = f.paramTable sigs ∧ f.params.length = info.params.length ∧
      info.params.length = regs.length ∧ Typed σ Table.empty σ ∧ Body sigs (some f) (f.scope sigs) σ := by
  have hknown : ∀ f' ∈ before, f' ∈ p.functions := fun f' hf' => by simp [hfunctions, hf']
  obtain ⟨es, signature, -, hd, -⟩ := (ensures_openProgram p sigs options hgraphics hknown).of_ok hbefore
  obtain ⟨hinfo, hregs, hframes, hbody⟩ := gives_openFunction hd (by simp [hfunctions]) _ _ hopen
  dsimp only at hinfo hregs
  subst hinfo
  have hlength : (f.info sigs).params.length = f.params.length := by simp [FuncDecl.info, Signatures.paramTypes]
  exact ⟨(f.paramTable_eq sigs).symm, hlength.symm, hlength.trans hregs.symm, .start hframes, hbody⟩

/-- **At every point of a run the slots agree with the walk**, and what is asked from there on the program asks. -/
theorem Visits.fits {Granted : Demand → Prop} (h : p.Visits sigs options owner task σ)
    (hgranted : ∀ d ∈ p.demands sigs, Granted d) :
    ∃ σ₀, Body sigs owner (p.scopeOf sigs owner) σ₀ ∧ task.Fits sigs owner Granted σ₀ σ := by
  induction h with
  | @params _ _ _ f _ _ _ σ hgraphics hfunctions hbefore hopen =>
    obtain ⟨hparams, hnames, hregs, hstart, hbody⟩ := opens_function hgraphics hfunctions hbefore hopen
    refine ⟨σ, hbody, hnames, hregs, Table.empty, hstart, ?_⟩
    rw [hbody.scope, hparams]
    exact Stmt.part_declareAll f.body (f.paramTable sigs)
  | @body _ _ _ f _ regs _ σ₁ σ hgraphics hfunctions hbefore hopen hrun =>
    obtain ⟨hparams, hnames, hregs, hstart, hbody⟩ := opens_function hgraphics hfunctions hbefore hopen
    have htyped := hstart.gives_bindParams f.params _ regs hnames hregs _ _ hrun
    rw [hparams] at htyped
    refine ⟨σ₁, hbody, f.paramTable sigs, htyped, ?_, fun d hd => hgranted d ?_⟩
    · rw [hbody.scope]
      exact fun _ _ h => h
    · exact List.mem_append_right _ (List.mem_flatMap.2 ⟨f, by simp [hfunctions], hd⟩)
  | @top g σ₀ σ hgraphics hbefore hopen =>
    obtain ⟨es, signature, -, hd, hidle⟩ := (ensures_openProgram p sigs options hgraphics fun _ h => h).of_ok hbefore
    obtain ⟨hframes, hbody⟩ := gives_openTop hd hidle p _ _ hopen
    refine ⟨σ, hbody, Table.empty, .start hframes, ?_, fun d hd => hgranted d (List.mem_append_left _ hd)⟩
    rw [hbody.scope]
    exact fun _ _ h => h
  | inside _ hbegins ih =>
    obtain ⟨σ₀, hbody, hfits⟩ := ih
    exact ⟨σ₀, hbody, hfits.begins hbody hbegins⟩

theorem Visits.fits_any (h : p.Visits sigs options owner task σ) :
    ∃ σ₀, Body sigs owner (p.scopeOf sigs owner) σ₀ ∧ task.Fits sigs owner (fun _ => True) σ₀ σ :=
  h.fits fun _ _ => trivial

end Program
end QuillLang
