import QuillLang.Proofs.Sketch.Routine
/-!
# Whole programs

A program becomes one routine for each function and one for the top level, after those that are declared only.  Each of
them fits a plan (`Lower.ensures_program`).
-/
namespace QuillLang

namespace FuncDecl

def info (f : FuncDecl) (sigs : Signatures) : FuncInfo :=
  ⟨"fn." ++ f.name.name, sigs.paramTypes f.name.name f.params.length, sigs.returnType f.name.name⟩

def callSignature (f : FuncDecl) (sigs : Signatures) : CallSignature :=
  ⟨(f.info sigs).params.map Ty.machineType, (f.info sigs).ret.machineType, false⟩

structure Becomes (f : FuncDecl) (sigs : Signatures) (signature : String → Option CallSignature) (r : Routine) :
    Prop where
  name : r.name = "fn." ++ f.name.name
  params : r.params.map Prod.snd = (f.callSignature sigs).params
  ret : r.ret = (f.callSignature sigs).ret
  plan : ∃ P : Plan, P.Fits signature r ∧ P.early = f.returnsEarly sigs

end FuncDecl

/-- The functions `fs` and the external routines `es` are known, and nothing else. -/
structure Declared (es : List External) (sigs : Signatures) (fs : List FuncDecl)
    (signature : String → Option CallSignature) (functions : Table FuncInfo) : Prop where
  names : (fs.map fun f => f.name.name).Nodup
  external : ∀ e ∈ es, signature e.name = some e.signature
  symbol : ∀ f ∈ fs, signature ("fn." ++ f.name.name) = some (f.callSignature sigs)
  info : ∀ f ∈ fs, functions.get? f.name.name = some (f.info sigs)
  only : ∀ name sig, signature name = some sig → (∃ e ∈ es, e = ⟨name, sig⟩) ∨
    ∃ f ∈ fs, name = "fn." ++ f.name.name ∧ sig = f.callSignature sigs
  only_info : ∀ name i, functions.get? name = some i → ∃ f ∈ fs, name = f.name.name ∧ i = f.info sigs

structure Idle (signature : String → Option CallSignature) (s : LowerState) : Prop where
  routine : s.builder.routine = none
  block : s.builder.block = none
  signatures : ∀ name, s.builder.signatures.get? name = signature name
  frames : s.frames = Frames.top

namespace Declared
variable {es : List External} {sigs : Signatures} {fs : List FuncDecl} {signature : String → Option CallSignature}
  {functions : Table FuncInfo}

theorem linked (d : Declared es sigs fs signature functions) : ∀ name info, functions.get? name = some info →
    info.symbol = "fn." ++ name ∧
      signature info.symbol = some ⟨info.params.map Ty.machineType, info.ret.machineType, false⟩ := by
  intro name info hi
  obtain ⟨f, hf, rfl, rfl⟩ := d.only_info name info hi
  exact ⟨rfl, d.symbol f hf⟩

end Declared

/-! ## Functions -/

theorem mem_params_of_zip {ty : Ty} {r : Register} : ∀ {tys : List Ty} {ps : List (Register × MachineType)},
    ps.map Prod.snd = tys.map Ty.machineType → (ty, r) ∈ tys.zip (ps.map Prod.fst) → (r, ty.machineType) ∈ ps
  | [], _, _, h => by simp at h
  | _ :: _, [], _, h => by simp at h
  | t :: tys, (r', mt) :: ps, htys, h => by
    simp only [List.map_cons, List.cons.injEq] at htys
    simp only [List.map_cons, List.zip_cons_cons, List.mem_cons, Prod.mk.injEq] at h
    rcases h with ⟨rfl, rfl⟩ | h
    · simp [htys.1]
    · exact List.mem_cons_of_mem _ (mem_params_of_zip htys.2 h)

namespace Lower
variable {es : List External} {sigs : Signatures} {fs : List FuncDecl} {signature : String → Option CallSignature}
  {s : LowerState}

theorem isTerminated_of_building {D : Sketch} {F : Frame} {b : Builder} {t : Known} (h : Building D F b t) :
    b.isTerminated = false := by
  unfold Builder.isTerminated
  rw [h.block]
  rfl

theorem ensures_finishRoutine :
    Ensures (build Builder.finishRoutine) s fun _ s' => s' = { s with builder := s.builder.closeRoutine } := rfl

/-- **A function becomes a routine that fits a plan.** -/
theorem ensures_function (d : Declared es sigs fs signature s.functions) (hcore : ∀ e ∈ External.core, e ∈ es)
    (hi : Idle signature s) {f : FuncDecl} (hf : f ∈ fs)
    (hg : (Stmt.blockGraphicsUse? f.body).isSome = true → ∀ e ∈ External.graphics, e ∈ es) :
    Ensures (function sigs f) s fun _ s' => Idle signature s' ∧ s'.functions = s.functions ∧
      ∃ r, s'.builder.assembly.routines = s.builder.assembly.routines ++ [r] ∧ f.Becomes sigs signature r := by
  refine Ensures.bind (P := fun i s' => i = f.info sigs ∧ s' = s) ?_ ?_
  · refine (Ensures.get (Q := fun a s' => a = s ∧ s' = s) ⟨rfl, rfl⟩).bind ?_
    rintro _ _ ⟨rfl, rfl⟩
    rw [d.info f hf]
    exact .pure ⟨rfl, rfl⟩
  rintro _ _ ⟨rfl, rfl⟩
  rename_i s
  refine (Ensures.build (Builder.ensures_startRoutine hi.routine hi.block
    (fun e he => by rw [hi.signatures]; exact d.external e (hcore e he)) _ (External.function_not_mem f.name.name) _
    _)).bind ?_
  rintro regs _ ⟨b₁, rfl, ps, id, rfl, hps, hnodup, h₁⟩
  have hsig : (fun x => if x = "fn." ++ f.name.name then some (f.callSignature sigs) else s.builder.signatures.get? x) =
      signature := by
    funext x
    split
    · rename_i hx
      rw [hx, d.symbol f hf]
    · exact hi.signatures x
  have h₁ : Building (Sketch.start s.builder.assembly.routines signature ("fn." ++ f.name.name) ps
      (f.info sigs).ret.machineType id) [] b₁ (Known.ofParams ps) := by
    rw [← hsig]
    exact h₁
  refine (Ensures.modify (Q := fun _ s' => s' =
    { s with
      builder := b₁, scopes := s.scopes.enter (f.scope sigs), frames := s.frames.enter, ret := some (f.info sigs).ret,
      loopDepth := 0, afterReturn := false }) rfl).bind ?_
  rintro _ _ rfl
  have w₁ : Walking ⟨[], false, false⟩ (Sketch.start s.builder.assembly.routines signature ("fn." ++ f.name.name) ps
      (f.info sigs).ret.machineType id)
      { s with
        builder := b₁, scopes := s.scopes.enter (f.scope sigs), frames := s.frames.enter
        ret := some (f.info sigs).ret, loopDepth := 0, afterReturn := false } (Known.ofParams ps) :=
    ⟨⟨d.linked, rfl, by simp, rfl, fun h => by cases h⟩, h₁,
      Known.settled_ofParams ps, fun h => by cases h⟩
  refine (ensures_bindParams f.params (f.info sigs).params (ps.map Prod.fst) (by simp [FuncDecl.info, Signatures.paramTypes])
    ?_ w₁ rfl ?_).bind ?_
  · have := congrArg List.length hps
    simpa using this
  · rintro ⟨ty, r⟩ hr
    rw [Known.content_ofParams hnodup (mem_params_of_zip hps hr)]
    cases ty <;> rfl
  rintro _ s₂ ⟨D₂, t₂, sc₂, k₂, hn₂, hr₂, he₂⟩
  have w₂ : Walking ⟨f.params.map Ident.name, false, false⟩ D₂ s₂ t₂ :=
    k₂.walking.congr (fun x => by rw [hn₂ x]; simp) hr₂.symm he₂.symm
  refine (lowers_block f.body w₂ (fun hd => ?_)).bind ?_
  · refine k₂.onward.draws (fun e he => ?_)
    exact d.external e (hg hd e he)
  rintro _ s₃ ⟨D₃, t₃, k₃⟩
  have hend := k₃.walking
  refine (Ensures.get (Q := fun a s' => a = s₃ ∧ s' = s₃) ⟨rfl, rfl⟩).bind ?_
  rintro _ _ ⟨rfl, rfl⟩
  rename_i s₃
  have on₃ := k₂.onward.trans k₃.onward
  have hret : D₃.ret = (f.info sigs).ret.machineType := on₃.ret
  rw [isTerminated_of_building hend.building]
  refine (hend.ensures_implicitReturn hret).bind ?_
  rintro _ _ ⟨b₄, t₄, e, rfl, h₄, he⟩
  have hp : D₃.returning.pending = [] := k₃.pending.trans k₂.pending
  obtain ⟨P, r, hfin, hname, hparams, hrret, hfits, hearly⟩ := h₄.finish he hp
  refine ensures_finishRoutine.bind ?_
  rintro _ _ rfl
  refine Ensures.modify ?_
  have same := k₂.same.trans k₃.same
  have houter : s₃.frames.outer = [.empty] := by
    rw [same.outer]
    show [s.frames.table] ++ s.frames.outer = [.empty]
    rw [hi.frames]
    rfl
  simp only [hfin]
  refine ⟨⟨rfl, rfl, fun name => ?_, ?_⟩, same.functions, r, ?_, ⟨?_, ?_, ?_, P, ?_, ?_⟩⟩
  · show b₄.signatures.get? name = signature name
    rw [h₄.signatures]
    exact congrFun on₃.signature name
  · simp only [Frames.leave, houter]
    rfl
  · rw [show D₃.returning.done = s.builder.assembly.routines from on₃.done]
  · rw [hname]
    exact on₃.name
  · rw [hparams, show D₃.returning.params = ps from on₃.params]
    exact hps
  · rw [hrret]
    exact on₃.ret
  · rw [show D₃.returning.signature = signature from on₃.signature] at hfits
    exact hfits
  · rw [hearly]
    show D₃.early = _
    rw [hend.early, k₂.same.scopes, k₂.same.depth]
    rfl

/-! ## The top level -/

def withMain (signature : String → Option CallSignature) (name : String) : Option CallSignature :=
  if name = "main" then some ⟨[], .i32, false⟩ else signature name

theorem withMain_of_known (hmain : signature "main" = none) {name : String} {sig : CallSignature}
    (hs : signature name = some sig) : withMain signature name = some sig := by
  unfold withMain
  rw [if_neg, hs]
  rintro rfl
  rw [hmain] at hs
  cases hs

theorem ensures_topLevel (d : Declared es sigs fs signature s.functions) (hcore : ∀ e ∈ External.core, e ∈ es)
    (hi : Idle signature s) (hmain : signature "main" = none) (p : Program)
    (hg : p.graphicsUse?.isSome = true → ∀ e ∈ External.graphics, e ∈ es) :
    Ensures (topLevel p) s fun _ s' => s'.builder.routine = none ∧ s'.builder.block = none ∧
      ∃ r, s'.builder.assembly.routines = s.builder.assembly.routines ++ [r] ∧ r.name = "main" ∧ r.params = [] ∧
        r.ret = .i32 ∧ ∃ P : Plan, P.Fits (withMain signature) r := by
  refine (Ensures.build (Builder.ensures_startRoutine hi.routine hi.block
    (fun e he => by rw [hi.signatures]; exact d.external e (hcore e he)) "main" (by decide) _ _)).bind ?_
  rintro _ _ ⟨b₁, rfl, ps, id, -, hps, -, h₁⟩
  have hsig : (fun x => if x = "main" then some ⟨[], .i32, false⟩ else s.builder.signatures.get? x) =
      withMain signature := by
    funext x
    unfold withMain
    split
    · rfl
    · exact hi.signatures x
  obtain rfl : ps = [] := by simpa using hps
  rw [hsig] at h₁
  refine (Ensures.modify (Q := fun _ s' => s' =
    { s with
      builder := b₁, scopes := s.scopes.replace (Stmt.declareAll Table.empty p.statements), ret := none
      loopDepth := 0, afterReturn := false }) rfl).bind ?_
  rintro _ _ rfl
  have w₁ : Walking ⟨[], false, false⟩
      (Sketch.start s.builder.assembly.routines (withMain signature) "main" [] .i32 id)
      { s with
        builder := b₁, scopes := s.scopes.replace (Stmt.declareAll Table.empty p.statements), ret := none
        loopDepth := 0, afterReturn := false } (Known.ofParams []) := by
    refine ⟨⟨fun name info hf => ?_, rfl, ?_, rfl, fun h => by cases h⟩, ?_, Known.settled_ofParams [],
      fun h => by cases h⟩
    · exact ⟨(d.linked name info hf).1, withMain_of_known hmain (d.linked name info hf).2⟩
    all_goals rw [hi.frames]
    · simp
    · exact h₁
  refine (lowers_block p.statements w₁ (fun hd e he => withMain_of_known hmain (d.external e (hg hd e he)))).bind ?_
  rintro _ s₂ ⟨D₂, t₂, k₂⟩
  refine (Ensures.get (Q := fun a s' => a = s₂ ∧ s' = s₂) ⟨rfl, rfl⟩).bind ?_
  rintro _ _ ⟨rfl, rfl⟩
  rename_i s₂
  have hend := k₂.walking
  have hb := hend.building.returning
  have hret : D₂.returning.ret = .i32 := k₂.onward.ret
  -- however the body ends, the routine may be closed there
  have key : ∀ e, (D₂.returning.setting s₂.frames.current).Ends s₂.builder.nextRegister t₂ e →
      Ensures (do build (Builder.terminate e); build Builder.finishRoutine) s₂ fun _ s' =>
        s'.builder.routine = none ∧ s'.builder.block = none ∧
        ∃ r, s'.builder.assembly.routines = s.builder.assembly.routines ++ [r] ∧ r.name = "main" ∧ r.params = [] ∧
          r.ret = .i32 ∧ ∃ P : Plan, P.Fits (withMain signature) r := by
    intro e he
    obtain ⟨P, r, hfin, hname, hparams, hrret, hfits, -⟩ := hb.finish he k₂.pending
    refine (ensures_terminate e).bind ?_
    rintro _ _ rfl
    refine ensures_finishRoutine.mono ?_
    rintro _ _ rfl
    dsimp only
    rw [hfin]
    refine ⟨rfl, rfl, r, ?_, hname.trans k₂.onward.name, hparams.trans k₂.onward.params, hrret.trans hret, P, ?_⟩
    · rw [show D₂.returning.done = s.builder.assembly.routines from k₂.onward.done]
    · rw [show D₂.returning.signature = withMain signature from k₂.onward.signature] at hfits
      exact hfits
  by_cases hdead : s₂.afterReturn = true
  · rw [if_pos hdead]
    exact key _ (.unreachable (hend.dead hdead) hend.settled)
  · rw [if_neg hdead]
    refine key (.ret (some (.i32, .int 0))) ?_
    have he := hb.ends_ret (v := .int 0) (by rw [hret]; exact Known.hasType_int32 _ _)
      (fun hp => by rw [hret] at hp; cases hp) (fun r hr => absurd hr (hend.settled.empty r)) hb.mark
      (fun hne => absurd hret hne)
    rw [hret] at he
    exact he

end Lower

/-! ## Declarations -/

def External.routine (e : External) : Routine :=
  ⟨e.name, e.signature.params.map fun ty => (⟨0⟩, ty), e.signature.ret, [], true, e.signature.isVariadic⟩

/-- Nothing but the external routines `es` is declared. -/
structure Builder.Declares (title : String) (es : List External) (b : Builder) : Prop where
  name : b.assembly.name = title
  nextRegister : b.nextRegister = 0
  nextBlock : b.nextBlock = 0
  globals : b.assembly.globals = []
  prologue : b.prologue = []
  routine : b.routine = none
  block : b.block = none
  routines : b.assembly.routines = es.map External.routine
  signatures : ∀ name sig, b.signatures.get? name = some sig ↔ ⟨name, sig⟩ ∈ es

theorem Builder.Declares.ensures_declareAll {title : String} : ∀ (es : List External) {done : List External} {b : Builder},
    b.Declares title done → ((done ++ es).map External.name).Nodup →
    Build.Ensures (External.declareAll es) b fun _ b' => b'.Declares title (done ++ es)
  | [], done, b, h, _ => by
    rw [List.append_nil]
    exact h
  | e :: es, done, b, h, hn => by
    have hnew : e.name ∉ done.map External.name := by
      intro hmem
      rw [List.map_append, List.nodup_append] at hn
      exact hn.2.2 _ hmem _ (by simp) rfl
    have hnone : b.signatures.get? e.name = none := by
      cases hg : b.signatures.get? e.name with
      | none => rfl
      | some sig => exact absurd (List.mem_map_of_mem ((h.signatures e.name sig).1 hg)) hnew
    have hstep : Build.Ensures (Builder.declareExternal e.name e.signature) b fun _ b' =>
        b'.Declares title (done ++ [e]) := by
      have hcontains : b.signatures.contains e.name = false := by
        unfold Table.contains
        rw [hnone]
        rfl
      show Builder.Declares _ _ (if b.signatures.contains e.name then b else _)
      rw [hcontains]
      refine ⟨h.name, h.nextRegister, h.nextBlock, h.globals, h.prologue, h.routine, h.block, ?_, fun name sig => ?_⟩
      · show b.assembly.routines ++ [External.routine e] = _
        rw [h.routines, List.map_append]
        rfl
      · show (b.signatures.insert e.name e.signature).get? name = some sig ↔ _
        rw [Table.get?_insert, List.mem_append, List.mem_singleton]
        split
        · rename_i hname
          subst hname
          constructor
          · intro hs
            exact .inr (by cases hs; rfl)
          · rintro (hmem | he)
            · exact absurd (List.mem_map_of_mem hmem) hnew
            · rw [← he]
        · rename_i hname
          rw [h.signatures name sig]
          constructor
          · exact .inl
          · rintro (hmem | rfl)
            · exact hmem
            · exact absurd rfl hname
    refine hstep.bind ?_
    intro _ b' h'
    have := ensures_declareAll es h' (by simpa using hn)
    simpa using this

namespace Lower
variable {es : List External} {sigs : Signatures} {fs : List FuncDecl} {s : LowerState}

theorem function_symbol_ne_main (x : String) : "fn." ++ x ≠ "main" := by
  intro h
  have := congrArg String.toList h
  simp [String.toList_append] at this

theorem function_symbol_inj {x y : String} (h : "fn." ++ x = "fn." ++ y) : x = y := by
  have hchars := congrArg String.toList h
  rw [String.toList_append, String.toList_append] at hchars
  exact String.toList_inj.1 (List.append_cancel_left hchars)

theorem ensures_declareFunction (hes : ∀ e ∈ es, e.name ∈ External.names) (f : FuncDecl)
    (d : Declared es sigs fs (fun name => s.builder.signatures.get? name) s.functions) :
    Ensures (declareFunction sigs f) s fun _ s' =>
      Declared es sigs (fs ++ [f]) (fun name => s'.builder.signatures.get? name) s'.functions ∧
        s' = { s with builder := { s.builder with signatures := s'.builder.signatures }, functions := s'.functions } := by
  refine (Ensures.get (Q := fun a s' => a = s ∧ s' = s) ⟨rfl, rfl⟩).bind ?_
  rintro _ _ ⟨rfl, rfl⟩
  rename_i s
  by_cases hc : s.functions.contains f.name.name = true
  · rw [if_pos hc]
    exact .throw (fun _ => by simp)
  rw [if_neg hc]
  have hnone : s.functions.get? f.name.name = none := by
    simpa [Table.contains] using hc
  have hnew : ∀ g ∈ fs, g.name.name ≠ f.name.name := by
    intro g hg he
    have := d.info g hg
    rw [he, hnone] at this
    cases this
  refine ⟨⟨?_, fun e he => ?_, fun g hg => ?_, fun g hg => ?_, fun name sig hs => ?_, fun name i hi => ?_⟩, rfl⟩
  · rw [List.map_append, List.nodup_append]
    refine ⟨d.names, by simp, fun x hx y hy he => ?_⟩
    obtain ⟨g, hg, rfl⟩ := List.mem_map.1 hx
    obtain rfl : y = f.name.name := by simpa using hy
    exact hnew g hg he
  · show (s.builder.signatures.insert _ _).get? e.name = _
    rw [Table.get?_insert, if_neg]
    · exact d.external e he
    · intro hname
      have hmem := hes e he
      rw [hname] at hmem
      exact External.function_not_mem f.name.name hmem
  · show (s.builder.signatures.insert _ _).get? _ = _
    rw [Table.get?_insert]
    rcases List.mem_append.1 hg with hg | hg
    · rw [if_neg (fun he => hnew g hg (function_symbol_inj he))]
      exact d.symbol g hg
    · obtain rfl := List.mem_singleton.1 hg
      rw [if_pos rfl]
      rfl
  · show (s.functions.insert _ _).get? _ = _
    rw [Table.get?_insert]
    rcases List.mem_append.1 hg with hg | hg
    · rw [if_neg (hnew g hg)]
      exact d.info g hg
    · obtain rfl := List.mem_singleton.1 hg
      rw [if_pos rfl]
      rfl
  · have hs : (s.builder.signatures.insert ("fn." ++ f.name.name) (f.callSignature sigs)).get? name = some sig := hs
    rw [Table.get?_insert] at hs
    split at hs
    · cases hs
      exact .inr ⟨f, by simp, ‹_›, rfl⟩
    · rcases d.only name sig hs with he | ⟨g, hg, hgs⟩
      · exact .inl he
      · exact .inr ⟨g, List.mem_append_left _ hg, hgs⟩
  · have hi : (s.functions.insert f.name.name (f.info sigs)).get? name = some i := hi
    rw [Table.get?_insert] at hi
    split at hi
    · cases hi
      exact ⟨f, by simp, ‹_›, rfl⟩
    · obtain ⟨g, hg, hgs⟩ := d.only_info name i hi
      exact ⟨g, List.mem_append_left _ hg, hgs⟩

theorem ensures_declareFunctions (hes : ∀ e ∈ es, e.name ∈ External.names) : ∀ (l : List FuncDecl) {fs : List FuncDecl}
    {s : LowerState}, Declared es sigs fs (fun name => s.builder.signatures.get? name) s.functions →
    Ensures (declareFunctions sigs l) s fun _ s' =>
      Declared es sigs (fs ++ l) (fun name => s'.builder.signatures.get? name) s'.functions ∧
        s' = { s with builder := { s.builder with signatures := s'.builder.signatures }, functions := s'.functions }
  | [], fs, s, d => by
    rw [List.append_nil]
    exact .pure ⟨d, rfl⟩
  | f :: l, fs, s, d => by
    refine (ensures_declareFunction hes f d).bind ?_
    rintro _ s₁ ⟨d₁, hs₁⟩
    refine (ensures_declareFunctions hes l d₁).mono ?_
    rintro _ s₂ ⟨d₂, hs₂⟩
    refine ⟨by simpa using d₂, ?_⟩
    rw [hs₁] at hs₂
    exact hs₂

theorem ensures_functions {signature : String → Option CallSignature} (hcore : ∀ e ∈ External.core, e ∈ es)
    {fs : List FuncDecl} : ∀ (l : List FuncDecl) {s : LowerState}, Declared es sigs fs signature s.functions →
    Idle signature s → (∀ f ∈ l, f ∈ fs ∧
      ((Stmt.blockGraphicsUse? f.body).isSome = true → ∀ e ∈ External.graphics, e ∈ es)) →
    Ensures (functions sigs l) s fun _ s' => Idle signature s' ∧ s'.functions = s.functions ∧
      ∃ rs, s'.builder.assembly.routines = s.builder.assembly.routines ++ rs ∧
        List.Forall₂ (fun f r => FuncDecl.Becomes f sigs signature r) l rs
  | [], s, _, hi, _ => .pure ⟨hi, rfl, [], by simp, .nil⟩
  | f :: l, s, d, hi, hl => by
    obtain ⟨hf, hg⟩ := hl f (by simp)
    refine (ensures_function d hcore hi hf hg).bind ?_
    rintro _ s₁ ⟨hi₁, hfun, r, hr, hbecomes⟩
    refine (ensures_functions hcore l (hfun ▸ d) hi₁ (fun g hg => hl g (List.mem_cons_of_mem _ hg))).mono ?_
    rintro _ s₂ ⟨hi₂, hfun₂, rs, hrs, hall⟩
    refine ⟨hi₂, hfun₂.trans hfun, r :: rs, ?_, .cons hbecomes hall⟩
    rw [hrs, hr]
    simp

end Lower
end QuillLang
