import QuillLang.Command.Run
import QuillLang.Proofs.Options.Lowering
/-!
# Options do not change the code

The options of lowering name the assembly and say when the drawing routines are declared.  The code does not depend on
them: two runs of lowering begin with states that are alike and never tell them apart (`Program.lower_alike`).  So what the
options decide is the names, the declarations, and whether a program that draws is refused.
-/
namespace QuillLang

/-! ## Source order -/

mutual

def Stmt.all : Stmt → List Stmt
  | .when test body span => .when test body span :: Stmt.blockAll body
  | .loop test body span => .loop test body span :: Stmt.blockAll body
  | .func name params body span => .func name params body span :: Stmt.blockAll body
  | s => [s]

def Stmt.blockAll : List Stmt → List Stmt
  | [] => []
  | s :: rest => s.all ++ Stmt.blockAll rest

end

def Stmt.drawing? : Stmt → Option Span
  | .graphics _ span => some span
  | _ => none

def Program.firstDrawing? (p : Program) : Option Span := (Stmt.blockAll p.statements).findSome? Stmt.drawing?

mutual

theorem Stmt.findSome?_all : ∀ s : Stmt, s.all.findSome? Stmt.drawing? = s.graphicsUse?
  | .when _ body _ | .loop _ body _ | .func _ _ body _ => by
    rw [Stmt.all, List.findSome?_cons, Stmt.graphicsUse?]
    exact Stmt.findSome?_blockAll body
  | .make _ _ _ | .assign _ _ _ | .makeArray _ _ _ | .assignArray _ _ _ _ | .print _ _ | .free _ _ | .ret _ _
  | .call _ _ _ _ | .graphics _ _ => rfl

theorem Stmt.findSome?_blockAll : ∀ l : List Stmt, (Stmt.blockAll l).findSome? Stmt.drawing? = Stmt.blockGraphicsUse? l
  | [] => rfl
  | s :: rest => by
    rw [Stmt.blockAll, List.findSome?_append, Stmt.findSome?_all s, Stmt.findSome?_blockAll rest, Stmt.blockGraphicsUse?]

end

theorem Program.firstDrawing?_eq (p : Program) : p.firstDrawing? = p.graphicsUse? := Stmt.findSome?_blockAll p.statements

/-! ## Declarations -/

namespace External

theorem run_declareAll_append (ds : List External) : ∀ (es : List External) (b : Builder),
    ((declareAll (es ++ ds)).run b).2 = ((declareAll ds).run ((declareAll es).run b).2).2
  | [], _ => rfl
  | e :: es, b => run_declareAll_append ds es ((Builder.declareExternal e.name e.signature).run b).2

theorem draws_graphics : ∀ e ∈ graphics, draws e.name = true := by decide

/-- A name that is not for drawing is declared with or without the drawing routines. -/
theorem mem_declared_iff {g g' : Bool} {e : External} (h : g = g' ∨ draws e.name = false) :
    e ∈ declared g ↔ e ∈ declared g' := by
  rcases h with rfl | h
  · rfl
  · have hnot : e ∉ graphics := fun he => absurd (draws_graphics e he) (by simp [h])
    cases g <;> cases g' <;> simp [declared, hnot]

theorem filter_isDrawing (g : Bool) {rs : List Routine} (h : ∀ r ∈ rs, r.isExternal = false) :
    ((declared g).map routine ++ rs).filter Routine.isDrawing = if g then graphics.map routine else [] := by
  have hrs : rs.filter Routine.isDrawing = [] :=
    List.filter_eq_nil_iff.2 fun r hr => by simp [Routine.isDrawing, h r hr]
  rw [List.filter_append, hrs, List.append_nil]
  cases g <;> decide

theorem filter_not_isDrawing (g : Bool) {rs : List Routine} (h : ∀ r ∈ rs, r.isExternal = false) :
    ((declared g).map routine ++ rs).filter (!·.isDrawing) = core.map routine ++ rs := by
  have hrs : rs.filter (!·.isDrawing) = rs :=
    List.filter_eq_self.2 fun r hr => by simp [Routine.isDrawing, h r hr]
  rw [List.filter_append, hrs]
  congr 1
  cases g <;> decide

end External

theorem Builder.alike_of_declares {g g' : Bool} {b b' : Builder} {title title' : String}
    (h : b.Declares title (External.declared g)) (h' : b'.Declares title' (External.declared g')) : b.Alike g g' b' where
  nextRegister := h.nextRegister.trans h'.nextRegister.symm
  nextBlock := h.nextBlock.trans h'.nextBlock.symm
  globals := h.globals.trans h'.globals.symm
  routine := h.routine.trans h'.routine.symm
  block := h.block.trans h'.block.symm
  prologue := h.prologue.trans h'.prologue.symm
  internal := fun r hr => by rw [h.routine] at hr; cases hr
  routines := ⟨[], by simp, by rw [h.routines, List.append_nil], by rw [h'.routines, List.append_nil]⟩
  signatures := by
    intro name hname
    refine Option.ext fun sig => ?_
    rw [h.signatures, h'.signatures]
    exact External.mem_declared_iff hname

/-! ## Two runs -/

namespace Lower

def declared (options : LowerOptions) (g : Bool) : LowerState :=
  { initial options with builder := ((External.declareAll (External.declared g)).run (initial options).builder).2 }

theorem alike_declared (o o' : LowerOptions) (g g' : Bool) : (declared o g).Alike g g' (declared o' g') := by
  have hdeclares (o g) : (declared o g).builder.Declares o.moduleName (External.declared g) := by
    refine (declares_initial o).ensures_declareAll (External.declared g) ?_
    cases g <;> decide
  refine ⟨Builder.alike_of_declares (hdeclares o g) (hdeclares o' g'), rfl, rfl, rfl, rfl, rfl, rfl, fun name info h => ?_⟩
  cases h

theorem run_build_bind {α β : Type} (step : Build Nat α) (f : α → Lower β) (s : LowerState) :
    (build step >>= f).run s = (f (step.run s.builder).1).run { s with builder := (step.run s.builder).2 } := rfl

theorem run_program (p : Program) (sigs : Signatures) (o : LowerOptions) (g : Bool) :
    (program p sigs g).run (initial o) =
      (do
        declareFunctions sigs p.functions
        functions sigs p.functions
        topLevel p).run (declared o g) := by
  unfold declared External.declared
  rw [External.run_declareAll_append, program, run_build_bind]
  generalize ((External.declareAll External.core).run (initial o).builder).2 = b
  cases g with
  | false => rfl
  | true =>
    simp only [if_true]
    rw [run_build_bind]

/-- **The options do not matter to a run of lowering**, unless it draws and only one of the runs is allowed to. -/
theorem agree_program (p : Program) (sigs : Signatures) (o o' : LowerOptions) {g g' : Bool}
    (h : p.graphicsUse?.isSome = true → g = g') :
    Agree g g' ((program p sigs g).run (initial o)) ((program p sigs g').run (initial o')) := by
  have hfunctions : ∀ fn ∈ p.functions, (Stmt.blockGraphicsUse? fn.body).isSome = true → g = g' :=
    fun fn hfn hdraws => h (Stmt.blockGraphicsUse?_of_functions hdraws p.statements hfn)
  have hV : (View.plain (g = g')).Total := ⟨⟨trivial, trivial, trivial⟩, trivial, trivial⟩
  rw [run_program, run_program]
  exact (orderly_bodies hV p sigs hfunctions h).blind (alike_declared o o' g g')

/-- Whether a program is refused for drawing, and whether the drawing routines are declared. -/
theorem declaresGraphics_cases (policy : GraphicsPolicy) (p : Program) :
    (policy = .never ∧ ∃ span, p.graphicsUse? = some span ∧ declaresGraphics policy p = .error (.graphicsDisabled span)) ∨
      ∃ g, declaresGraphics policy p = .ok g ∧ (g = true ↔ policy = .always ∨ policy = .auto ∧ p.graphicsUse?.isSome) ∧
        (p.graphicsUse?.isSome = true → g = true) := by
  unfold declaresGraphics
  cases policy <;> cases hu : p.graphicsUse? <;> simp

end Lower

namespace Program
variable {p : Program} {sigs : Signatures} {o o' : LowerOptions} {g g' : Bool}

/-- Once the drawing routines are settled, lowering is its run and nothing else: the check passes. -/
theorem lower_eq_run (sigs : Signatures) (h : Lower.declaresGraphics o.graphics p = .ok g) :
    p.lower sigs o = ((Lower.program p sigs g).run (Lower.initial o)).map fun r => r.2.builder.finish := by
  unfold Program.lower
  rw [h]
  have hprogram := Lower.ensures_program p sigs o (declaresGraphics_of_use h)
  cases hrun : (Lower.program p sigs g).run (Lower.initial o) with
  | error e => simp [bind, Except.bind, hrun, Except.map]
  | ok result =>
    obtain ⟨es, fs, main, signature, ha⟩ := hprogram.of_ok hrun
    simp [bind, Except.bind, hrun, Except.map, ha.check_ok]

/-- **Lowered with other options, a program is refused for the same fault or has the same code.** -/
theorem lower_alike (sigs : Signatures) (h : Lower.declaresGraphics o.graphics p = .ok g)
    (h' : Lower.declaresGraphics o'.graphics p = .ok g') :
    (∃ e, (∀ span, e ≠ .graphicsDisabled span) ∧ p.lower sigs o = .error e ∧ p.lower sigs o' = .error e) ∨
      ∃ a a' rs, p.lower sigs o = .ok a ∧ p.lower sigs o' = .ok a' ∧ a.globals = a'.globals ∧
        (∀ r ∈ rs, r.isExternal = false) ∧ a.routines = (External.declared g).map External.routine ++ rs ∧
        a'.routines = (External.declared g').map External.routine ++ rs := by
  have hdraws : p.graphicsUse?.isSome = true → g = g' :=
    fun hu => (declaresGraphics_of_use h hu).trans (declaresGraphics_of_use h' hu).symm
  have hruns := Lower.agree_program p sigs o o' hdraws
  rw [lower_eq_run sigs h, lower_eq_run sigs h']
  generalize (Lower.program p sigs g).run (Lower.initial o) = r at hruns
  generalize (Lower.program p sigs g').run (Lower.initial o') = r' at hruns
  cases hruns with
  | error e he => exact .inl ⟨e, he, rfl, rfl⟩
  | ok a hs =>
    have hclosed := hs.builder.closeRoutine
    obtain ⟨rs, hrs, hleft, hright⟩ := hclosed.routines
    exact .inr ⟨_, _, rs, rfl, rfl, hclosed.globals, hrs, hleft, hright⟩

theorem lower_of_error {e : LowerError} (sigs : Signatures) (h : Lower.declaresGraphics o.graphics p = .error e) :
    p.lower sigs o = .error e := by
  unfold Program.lower
  rw [h]
  rfl

theorem lower_ne_graphicsDisabled (sigs : Signatures) (h : Lower.declaresGraphics o.graphics p = .ok g) (span : Span) :
    p.lower sigs o ≠ .error (.graphicsDisabled span) := by
  rcases lower_alike sigs h h with ⟨e, he, hlower, -⟩ | ⟨a, -, -, hlower, -⟩
  · rw [hlower]
    exact fun hsame => he span (Except.error.inj hsame)
  · rw [hlower]
    exact nofun

theorem lower_graphicsDisabled_iff (sigs : Signatures) (span : Span) :
    p.lower sigs o = .error (.graphicsDisabled span) ↔ o.graphics = .never ∧ p.graphicsUse? = some span := by
  rcases Lower.declaresGraphics_cases o.graphics p with ⟨hnever, span', huse, herror⟩ | ⟨g, hok, hiff, hdraws⟩
  · rw [lower_of_error sigs herror, huse]
    simp [hnever]
  · refine ⟨fun h => absurd h (lower_ne_graphicsDisabled sigs hok span), fun ⟨hnever, huse⟩ => ?_⟩
    have hg := hiff.1 (hdraws (by rw [huse]; rfl))
    simp [hnever] at hg

theorem exists_declares (h : ∀ span, p.lower sigs o ≠ .error (.graphicsDisabled span)) :
    ∃ g, Lower.declaresGraphics o.graphics p = .ok g ∧
      (g = true ↔ o.graphics = .always ∨ o.graphics = .auto ∧ p.graphicsUse?.isSome) := by
  rcases Lower.declaresGraphics_cases o.graphics p with ⟨-, span, -, herror⟩ | ⟨g, hok, hiff, -⟩
  · exact absurd (lower_of_error sigs herror) (h span)
  · exact ⟨g, hok, hiff⟩

theorem lower_same_code (h : ∀ span, p.lower sigs o ≠ .error (.graphicsDisabled span))
    (h' : ∀ span, p.lower sigs o' ≠ .error (.graphicsDisabled span)) :
    (∃ e, p.lower sigs o = .error e ∧ p.lower sigs o' = .error e) ∨
      ∃ a a', p.lower sigs o = .ok a ∧ p.lower sigs o' = .ok a' ∧ a.globals = a'.globals ∧
        a.routines.filter (!·.isDrawing) = a'.routines.filter (!·.isDrawing) := by
  obtain ⟨g, hg, -⟩ := exists_declares h
  obtain ⟨g', hg', -⟩ := exists_declares h'
  rcases lower_alike sigs hg hg' with ⟨e, -, he, he'⟩ | ⟨a, a', rs, ha, ha', hglobals, hrs, hleft, hright⟩
  · exact .inl ⟨e, he, he'⟩
  · refine .inr ⟨a, a', ha, ha', hglobals, ?_⟩
    rw [hleft, hright, External.filter_not_isDrawing g hrs, External.filter_not_isDrawing g' hrs]

theorem isDrawing_of_lower {a : Assembly} (h : p.lower sigs o = .ok a) :
    a.routines.filter Routine.isDrawing =
      if o.graphics = .always ∨ o.graphics = .auto ∧ p.graphicsUse?.isSome then External.graphics.map External.routine
      else [] := by
  have hallowed : ∀ span, p.lower sigs o ≠ .error (.graphicsDisabled span) := by simp [h]
  obtain ⟨g, hg, hiff⟩ := exists_declares hallowed
  rcases lower_alike sigs hg hg with ⟨e, -, he, -⟩ | ⟨a', -, rs, ha', -, -, hrs, hroutines, -⟩
  · rw [he] at h
    cases h
  · rw [ha'] at h
    cases h
    rw [hroutines, External.filter_isDrawing g hrs]
    simp only [hiff]

theorem lowerText_error_iff (sigs : Signatures) (h : o.graphics = .auto) (h' : o'.graphics = .auto) (e : CompileError) :
    p.lowerText sigs o = .error e ↔ p.lowerText sigs o' = .error e := by
  have hg : ∀ o : LowerOptions, o.graphics = .auto → Lower.declaresGraphics o.graphics p = .ok p.graphicsUse?.isSome :=
    fun o ho => by rw [ho]; rfl
  unfold Program.lowerText
  rcases lower_alike sigs (hg o h) (hg o' h') with ⟨e, -, he, he'⟩ | ⟨a, a', -, ha, ha', -⟩
  · rw [he, he']
  · rw [ha, ha']
    exact ⟨nofun, nofun⟩

end Program

/-! ## Commands -/

/-- A source that is refused is refused whether it is checked or compiled, and for the same fault. -/
theorem Invocation.run_error_iff (file : String) {o : BuildOptions} (h : o.graphics = .auto) (source : Option (List UInt8))
    (e : RunError) :
    ((Invocation.check file).run source).result = .error e ↔ ((Invocation.build file o).run source).result = .error e := by
  cases source with
  | none => rfl
  | some bytes =>
    show (runCheck file bytes).result = .error e ↔ (runBuild file o bytes).result = .error e
    unfold runCheck runBuild
    cases Compilation.ofChunks (chunks chunkSize bytes) with
    | error f => rfl
    | ok c =>
      have hsame : ∀ f, c.program.lowerText c.analysis.signatures .standard = .error f ↔
          c.program.lowerText c.analysis.signatures (o.lowerOptions file) = .error f :=
        Program.lowerText_error_iff c.analysis.signatures rfl h
      dsimp only
      cases hcheck : c.program.lowerText c.analysis.signatures .standard with
      | error f =>
        rw [(hsame f).1 hcheck]
      | ok text =>
        cases hbuild : c.program.lowerText c.analysis.signatures (o.lowerOptions file) with
        | error f =>
          rw [(hsame f).2 hbuild] at hcheck
          cases hcheck
        | ok text' => exact ⟨nofun, nofun⟩

/-- **Options do not change the code.**  Two ways to lower a program, neither of which refuses it for drawing, refuse it
for the same fault or make assemblies with the same constants and, the external drawing routines aside, the same
routines.  A program is refused for drawing exactly if drawing is never allowed and it draws, at the first statement in
source order that does.  The drawing routines are declared, all of them, if they always are, or if they are when needed
and the program draws; otherwise none is.  So checking a source and compiling it refuse the same sources. -/
theorem Program.options_keep_code :
    (∀ (p : Program) (sigs : Signatures) (o o' : LowerOptions),
      (∀ span, p.lower sigs o ≠ .error (.graphicsDisabled span)) →
      (∀ span, p.lower sigs o' ≠ .error (.graphicsDisabled span)) →
        (∃ e, p.lower sigs o = .error e ∧ p.lower sigs o' = .error e) ∨
          ∃ a a', p.lower sigs o = .ok a ∧ p.lower sigs o' = .ok a' ∧ a.globals = a'.globals ∧
            a.routines.filter (!·.isDrawing) = a'.routines.filter (!·.isDrawing)) ∧
      (∀ (p : Program) (sigs : Signatures) (o : LowerOptions) (span : Span),
        p.lower sigs o = .error (.graphicsDisabled span) ↔ o.graphics = .never ∧ p.firstDrawing? = some span) ∧
      (∀ (p : Program) (sigs : Signatures) (o : LowerOptions) (a : Assembly), p.lower sigs o = .ok a →
        a.routines.filter Routine.isDrawing =
          if o.graphics = .always ∨ o.graphics = .auto ∧ p.firstDrawing?.isSome then
            External.graphics.map External.routine
          else []) ∧
      ∀ (file : String) (o : BuildOptions) (source : Option (List UInt8)) (e : RunError), o.graphics = .auto →
        (((Invocation.check file).run source).result = .error e ↔
          ((Invocation.build file o).run source).result = .error e) := by
  refine ⟨fun p sigs o o' h h' => lower_same_code h h', fun p sigs o span => ?_, fun p sigs o a h => ?_,
    fun file o source e h => Invocation.run_error_iff file h source e⟩
  · rw [firstDrawing?_eq]
    exact lower_graphicsDisabled_iff sigs span
  · rw [firstDrawing?_eq]
    exact isDrawing_of_lower h

/-- A program whose first drawing statement stands in a test in a function, before another at the top level. -/
def Program.nestedDrawing : Program :=
  let here : Span := ⟨⟨1, 1, 0⟩, ⟨1, 1, 0⟩⟩
  ⟨[.func ⟨"show", here⟩ [] [.when (.number 1 here) [.graphics .present ⟨⟨3, 5, 20⟩, ⟨3, 12, 27⟩⟩] here] here,
    .graphics .clear here], here⟩

theorem Program.nestedDrawing_options :
    nestedDrawing.lower Signatures.empty { LowerOptions.standard with graphics := .never } =
        .error (.graphicsDisabled ⟨⟨3, 5, 20⟩, ⟨3, 12, 27⟩⟩) ∧
      ∃ a a', nestedDrawing.lower Signatures.empty .standard = .ok a ∧
        nestedDrawing.lower Signatures.empty ⟨"other", some "other.ql", some "riscv64", .always⟩ = .ok a' ∧
        a.globals = a'.globals ∧ a.routines.filter (!·.isDrawing) = a'.routines.filter (!·.isDrawing) := by
  obtain ⟨hcode, hdisabled, -, -⟩ := options_keep_code
  have hok : (nestedDrawing.lower Signatures.empty .standard).toOption.any (fun _ => true) = true := by decide +kernel
  obtain ⟨a, ha, -⟩ := exists_of_any hok
  refine ⟨(hdisabled _ _ _ _).2 ⟨rfl, rfl⟩, ?_⟩
  rcases hcode nestedDrawing Signatures.empty .standard ⟨"other", some "other.ql", some "riscv64", .always⟩
      (fun span h => nomatch ((hdisabled _ _ _ span).1 h).1) (fun span h => nomatch ((hdisabled _ _ _ span).1 h).1) with
    ⟨e, he, -⟩ | hsame
  · rw [ha] at he
    cases he
  · exact hsame

end QuillLang
