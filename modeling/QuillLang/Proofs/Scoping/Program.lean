import QuillLang.Proofs.Options
import QuillLang.Proofs.Points.Fits
import QuillLang.Proofs.Scoping.Lowering
/-!
# Lowering refuses what the check of names refuses

Functions are made known first, then each is lowered with slots of its own, and last the top level.  The check of names takes
the same way, so the two come to the same end (`Program.lower_refuses_iff`).
-/
namespace QuillLang
namespace Lower

/-! ## Functions -/

theorem Scoped.start {σ : LowerState} (h : σ.frames.current = []) : Scoped σ [] Table.empty σ where
  toStays := .refl σ
  kinds name := by simp [Frames.lookup_of_nil h]
  hand := by simp

theorem length_info (f : FuncDecl) (sigs : Signatures) : (f.info sigs).params.length = f.params.length := by
  simp [FuncDecl.info, Signatures.paramTypes]

theorem run_openFunction {sigs : Signatures} {f : FuncDecl} {σ : LowerState}
    (hinfo : σ.functions.get? f.name.name = some (f.info sigs)) :
    ∃ regs σ₁, (openFunction sigs f).run σ = .ok ((f.info sigs, regs), σ₁) ∧ regs.length = f.params.length ∧
      σ₁.scopes.current = f.scope sigs ∧ σ₁.frames = σ.frames.enter ∧ σ₁.functions = σ.functions := by
  have hlength := length_startRoutine (f.info sigs).symbol ((f.info sigs).params.map Ty.machineType)
    (f.info sigs).ret.machineType σ.builder
  rw [List.length_map, length_info] at hlength
  unfold openFunction
  rw [run_bind, run_functionInfo, hinfo]
  exact ⟨_, _, rfl, hlength, rfl, rfl, rfl⟩

theorem verdict_leave {kinds : Table SlotKind} {σ σ₁ σ₂ : LowerState} (h : Scoped σ₁ [] kinds σ₂)
    (hframes : σ₁.frames = σ.frames.enter) (hfunctions : σ₁.functions = σ.functions) :
    Verdict (fun _ _ σ' => σ'.frames = σ.frames ∧ σ'.functions = σ.functions) (.ok kinds) ((do
      build Builder.finishRoutine
      leaveFunction).run σ₂) := by
  refine Verdict.quiet_bind (.build _) fun _ σ₃ hkept => .ok ⟨?_, ?_⟩
  · have houter : σ₃.frames.outer = σ.frames.table :: σ.frames.outer := by
      rw [(h.kept hkept).outer, hframes]
      rfl
    show σ₃.frames.leave.2 = σ.frames
    unfold Frames.leave
    rw [houter]
  · exact (h.kept hkept).functions.trans hfunctions

/-- **A function is refused exactly if its body does not have what it needs.**  Otherwise the slots outside it and the
functions are what they were. -/
theorem verdict_function {sigs : Signatures} {f : FuncDecl} {σ : LowerState}
    (hinfo : σ.functions.get? f.name.name = some (f.info sigs)) :
    Verdict (fun _ _ σ' => σ'.frames = σ.frames ∧ σ'.functions = σ.functions)
      (Need.meetAll (arity? σ) Table.empty (f.needs sigs)) ((function sigs f).run σ) := by
  obtain ⟨regs, σ₁, hopen, hregs, hscope, hframes, hfunctions⟩ := run_openFunction hinfo
  have hparams : Checks σ₁ [] (List.zipWith (fun x ty => .declared x (SlotKind.ofTy ty)) f.params (f.info sigs).params)
      (bindParams f.params (f.info sigs).params regs) :=
    checks_bindParams _ _ _ (length_info f sigs).symm ((length_info f sigs).trans hregs.symm)
  have hpart : (Stmt.declareAll (f.paramTable sigs) f.body).Part σ₁.scopes.current := by
    rw [hscope]
    exact fun _ _ h => h
  have hbody : Checks σ₁ [] (Stmt.needsAll (f.scope sigs) f.body) (block f.body) := by
    rw [← hscope]
    exact checks_block f.body hpart
  rw [function_eq, ← arity?_congr hfunctions, FuncDecl.needs, Need.meetAll_append]
  refine .of_run hopen ?_
  -- the parameters, then the body; what comes after it looks no name up
  refine (hparams _ _ (.start (by rw [hframes]; rfl))).bind fun kinds _ σ₂ h => ?_
  refine (hbody kinds σ₂ h).follow fun kinds' _ σ₃ h' => Verdict.quiet_bind .get fun s σ₄ hkept => ?_
  dsimp only
  split
  · exact verdict_leave (h'.kept hkept) hframes hfunctions
  · refine Verdict.quiet_bind (Orderly.quiet fun _ => orderly_implicitReturn trivial _) fun _ σ₅ hkept' => ?_
    exact verdict_leave (h'.kept (hkept.trans hkept')) hframes hfunctions

theorem verdict_functions {sigs : Signatures} {σ : LowerState} : ∀ {fs : List FuncDecl} {σ' : LowerState},
    (∀ f ∈ fs, σ.functions.get? f.name.name = some (f.info sigs)) → σ'.frames = σ.frames → σ'.functions = σ.functions →
    Verdict (fun _ _ σ'' => σ''.frames = σ.frames ∧ σ''.functions = σ.functions)
      (FuncDecl.checkBodies sigs (arity? σ) fs) ((functions sigs fs).run σ')
  | [], _, _, hframes, hfunctions => .ok ⟨hframes, hfunctions⟩
  | f :: fs, σ', hinfo, hframes, hfunctions => by
    rw [List.forall_mem_cons] at hinfo
    have hfirst := verdict_function (σ := σ') (hfunctions ▸ hinfo.1)
    rw [arity?_congr hfunctions] at hfirst
    exact hfirst.bind fun _ _ _ h =>
      verdict_functions hinfo.2 (h.1.trans hframes) (h.2.trans hfunctions)

/-- **The top level is refused exactly if it does not have what it needs.** -/
theorem verdict_topLevel (p : Program) {σ : LowerState} (h : σ.frames.current = []) :
    Verdict (fun _ _ _ => True) (Need.meetAll (arity? σ) Table.empty
      (Stmt.needsAll (Stmt.declareAll Table.empty p.statements) p.statements)) ((topLevel p).run σ) := by
  obtain ⟨σ₁, hopen, hscope, hframes, hfunctions⟩ : ∃ σ₁, (openTop p).run σ = .ok ((), σ₁) ∧
      σ₁.scopes.current = Stmt.declareAll Table.empty p.statements ∧ σ₁.frames = σ.frames ∧
      σ₁.functions = σ.functions := ⟨_, rfl, rfl, rfl, rfl⟩
  have hpart : (Stmt.declareAll Table.empty p.statements).Part σ₁.scopes.current := by
    rw [hscope]
    exact fun _ _ h => h
  have hbody : Checks σ₁ [] (Stmt.needsAll σ₁.scopes.current p.statements) (block p.statements) :=
    checks_block p.statements hpart
  rw [topLevel_eq, ← arity?_congr hfunctions, ← hscope]
  refine .of_run hopen ?_
  refine (hbody _ _ (.start (hframes ▸ h))).follow fun _ _ _ _ => Verdict.quiet_bind .get fun s _ _ => ?_
  split
  · exact .quiet ((Quiet.build _).bind fun _ => .build _) fun _ _ _ => trivial
  · exact .quiet ((Quiet.build _).bind fun _ => .build _) fun _ _ _ => trivial

/-! ## Making functions known -/

/-- The functions are known from now on, and no others. -/
structure Introduces (sigs : Signatures) (fs : List FuncDecl) (σ σ' : LowerState) : Prop where
  frames : σ'.frames = σ.frames
  kept : ∀ name info, σ.functions.get? name = some info → σ'.functions.get? name = some info
  info : ∀ f ∈ fs, σ'.functions.get? f.name.name = some (f.info sigs)
  only : ∀ name, (∀ f ∈ fs, f.name.name ≠ name) → σ'.functions.get? name = σ.functions.get? name

theorem Introduces.arity?_eq {sigs : Signatures} {fs : List FuncDecl} {σ σ' : LowerState} (h : Introduces sigs fs σ σ')
    (hnone : ∀ name, σ.functions.get? name = none) : arity? σ' = FuncDecl.arity? fs := by
  funext name
  unfold arity? FuncDecl.arity?
  cases hfind : fs.find? fun f => f.name.name = name with
  | none =>
    have hother : ∀ f ∈ fs, f.name.name ≠ name := by simpa using hfind
    rw [h.only name hother, hnone]
    rfl
  | some f =>
    have hname : f.name.name = name := by simpa using List.find?_some hfind
    rw [← hname, h.info f (List.mem_of_find?_eq_some hfind), Option.map_some, length_info]
    rfl

theorem run_declareFunction (sigs : Signatures) {f : FuncDecl} {σ : LowerState}
    (hnew : σ.functions.contains f.name.name = false) :
    ∃ σ₁, (declareFunction sigs f).run σ = .ok ((), σ₁) ∧ σ₁.frames = σ.frames ∧
      σ₁.functions = σ.functions.insert f.name.name (f.info sigs) := by
  unfold declareFunction
  rw [run_bind]
  simp only [run_get, pure_bind, hnew]
  exact ⟨_, rfl, rfl, rfl⟩

theorem verdict_declareFunctions (sigs : Signatures) : ∀ (fs : List FuncDecl) {names : List String} {σ : LowerState},
    (∀ name, name ∈ names ↔ σ.functions.contains name = true) →
    Verdict (fun _ _ σ' => Introduces sigs fs σ σ') (FuncDecl.checkDistinct names fs) ((declareFunctions sigs fs).run σ)
  | [], _, _, _ => .ok ⟨rfl, fun _ _ h => h, by simp, fun _ _ => rfl⟩
  | f :: fs, names, σ, hnames => by
    unfold FuncDecl.checkDistinct declareFunctions
    by_cases hname : f.name.name ∈ names
    · have hrefuses : (declareFunction sigs f).run σ = .error (.duplicateFunction f.name.name f.name.span) := by
        unfold declareFunction
        rw [run_bind]
        simp only [run_get, pure_bind, (hnames _).1 hname]
        rfl
      rw [if_pos hname, run_bind, hrefuses]
      exact .error _
    · have hcontains : σ.functions.contains f.name.name = false := by
        simpa using fun h => hname ((hnames _).2 h)
      obtain ⟨σ₁, hrun, hframes, hfunctions⟩ := run_declareFunction sigs hcontains
      have hget : ∀ name, σ₁.functions.get? name =
          if name = f.name.name then some (f.info sigs) else σ.functions.get? name := by
        intro name
        rw [hfunctions, Table.get?_insert]
      have hnew : σ.functions.get? f.name.name = none := by simpa [Table.contains] using hcontains
      rw [if_neg hname]
      refine .of_run hrun ((verdict_declareFunctions sigs fs fun name => ?_).imp fun _ _ σ' h => ?_)
      · rw [List.mem_cons, hnames, Table.contains, Table.contains, hget]
        by_cases hsame : name = f.name.name <;> simp [hsame]
      · have hkept : ∀ name info, σ.functions.get? name = some info → σ'.functions.get? name = some info := by
          intro name info hinfo
          refine h.kept name info ?_
          rw [hget, if_neg, hinfo]
          rintro rfl
          rw [hnew] at hinfo
          cases hinfo
        refine ⟨h.frames.trans hframes, hkept, List.forall_mem_cons.2 ⟨?_, h.info⟩, fun name hother => ?_⟩
        · exact h.kept _ _ (by rw [hget, if_pos rfl])
        · rw [List.forall_mem_cons] at hother
          rw [h.only name hother.2, hget, if_neg (Ne.symm hother.1)]

/-! ## Programs -/

theorem verdict_program (p : Program) (sigs : Signatures) (o : LowerOptions) (g : Bool) :
    Verdict (fun _ _ _ => True) (p.checkNames sigs) ((program p sigs g).run (initial o)) := by
  have hnone : ∀ name, (declared o g).functions.get? name = none := fun _ => rfl
  rw [run_program]
  refine (verdict_declareFunctions sigs p.functions fun name => ?_).bind fun _ _ σ h => ?_
  · simp [Table.contains, hnone]
  · rw [← h.arity?_eq hnone]
    refine (verdict_functions h.info rfl rfl).bind fun _ _ σ' h' => ?_
    have hframes : σ'.frames = Frames.top := h'.1.trans h.frames
    have htop := verdict_topLevel p (σ := σ') (by rw [hframes]; rfl)
    rw [arity?_congr h'.2] at htop
    generalize (topLevel p).run σ' = r at htop
    dsimp only
    generalize Need.meetAll (arity? σ) _ _ = v at htop
    cases htop with
    | ok => exact .ok trivial
    | error e => exact .error e

end Lower

namespace Program

/-- **Lowering refuses exactly the programs whose names are not in order.**  Unless drawing is forbidden and the program
draws, it is refused for a fault exactly if that is the first fault that the check of names finds, and is lowered exactly if
the check finds none. -/
theorem lower_refuses_iff (p : Program) (sigs : Signatures) (o : LowerOptions)
    (h : o.graphics = .never → p.graphicsUse? = none) :
    (∀ e, p.lower sigs o = .error e ↔ p.checkNames sigs = .error e) ∧
      ((∃ a, p.lower sigs o = .ok a) ↔ p.checkNames sigs = .ok ()) := by
  obtain ⟨g, hg⟩ : ∃ g, Lower.declaresGraphics o.graphics p = .ok g := by
    rcases Lower.declaresGraphics_cases o.graphics p with ⟨hnever, span, huse, -⟩ | ⟨g, hg, -⟩
    · rw [h hnever] at huse
      cases huse
    · exact ⟨g, hg⟩
  rw [lower_eq_run sigs hg]
  have hverdict := Lower.verdict_program p sigs o g
  generalize (Lower.program p sigs g).run (Lower.initial o) = r at hverdict
  generalize p.checkNames sigs = v at hverdict
  cases hverdict with
  | ok => simp [Except.map]
  | error e => simp [Except.map]

def overfullSpan (i : Nat) : Span := ⟨⟨1, i + 1, i⟩, ⟨1, i + 2, i + 1⟩⟩

/-- `func f n end if 1 make a [3] endif a[0] = 1 call f 1 2 into r`, each word one character wide.  That the array is
declared in a block does not matter; the call has an argument too many, and there is no `r`. -/
def overfullCall : Program :=
  ⟨[.func ⟨"f", overfullSpan 1⟩ [⟨"n", overfullSpan 2⟩] [] (overfullSpan 0),
    .when (.number 1 (overfullSpan 5)) [.makeArray ⟨"a", overfullSpan 7⟩ (.number 3 (overfullSpan 9)) (overfullSpan 6)]
      (overfullSpan 4),
    .assignArray ⟨"a", overfullSpan 12⟩ (.number 0 (overfullSpan 14)) (.number 1 (overfullSpan 17)) (overfullSpan 12),
    .call ⟨"f", overfullSpan 19⟩ [.number 1 (overfullSpan 20), .number 2 (overfullSpan 21)]
      (some ⟨"r", overfullSpan 23⟩) (overfullSpan 18)],
    overfullSpan 0⟩

theorem overfullCall_refused : overfullCall.graphicsUse? = none ∧
    overfullCall.lower Signatures.empty ⟨"m", none, none, .never⟩ = .error (.arityMismatch "f" 1 2 (overfullSpan 19)) :=
  ⟨rfl, ((lower_refuses_iff overfullCall Signatures.empty ⟨"m", none, none, .never⟩ fun _ => rfl).1 _).2 rfl⟩

end Program
end QuillLang
