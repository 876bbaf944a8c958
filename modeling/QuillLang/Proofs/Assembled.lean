import QuillLang.Proofs.Sketch.Program
/-!
# The assembly of a program

What lowering makes of a program is put together from external declarations, one routine for each function and the routine
of the top level.  Every routine with a body fits a plan, every name has one routine, and a routine is called with the
signature it is declared with (`Lower.ensures_program`).
-/
namespace QuillLang

/-! ## Drawing -/

mutual

theorem Stmt.graphicsUse?_of_functions {f : FuncDecl} (hf : (Stmt.blockGraphicsUse? f.body).isSome = true) :
    ∀ s : Stmt, f ∈ s.functions → s.graphicsUse?.isSome = true
  | .func _ _ body _, h => by
    simp only [Stmt.functions, List.mem_cons] at h
    rcases h with rfl | h
    · exact hf
    · exact Stmt.blockGraphicsUse?_of_functions hf body h
  | .when _ body _, h | .loop _ body _, h => by
    simp only [Stmt.functions] at h
    exact Stmt.blockGraphicsUse?_of_functions hf body h
  | .make _ _ _, h | .assign _ _ _, h | .makeArray _ _ _, h | .assignArray _ _ _ _, h | .print _ _, h | .free _ _, h
  | .ret _ _, h | .call _ _ _ _, h | .graphics _ _, h => by
    simp [Stmt.functions] at h

theorem Stmt.blockGraphicsUse?_of_functions {f : FuncDecl} (hf : (Stmt.blockGraphicsUse? f.body).isSome = true) :
    ∀ l : List Stmt, f ∈ Stmt.blockFunctions l → (Stmt.blockGraphicsUse? l).isSome = true
  | [], h => by simp [Stmt.blockFunctions] at h
  | s :: rest, h => by
    simp only [Stmt.blockFunctions, List.mem_append] at h
    simp only [Stmt.blockGraphicsUse?, Option.isSome_or, Bool.or_eq_true]
    rcases h with h | h
    · exact .inl (Stmt.graphicsUse?_of_functions hf s h)
    · exact .inr (Stmt.blockGraphicsUse?_of_functions hf rest h)

end

/-! ## More is known -/

theorem Plan.Fits.mono {P : Plan} {signature signature' : String → Option CallSignature} {r : Routine}
    (h : P.Fits signature r) (hs : ∀ name sig, signature name = some sig → signature' name = some sig) :
    P.Fits signature' r := by
  have hle : ∀ n, (P.setting signature r.ret).Le n (P.setting signature' r.ret) := fun n =>
    { Setting.Le.refl n (P.setting signature r.ret) with signature := hs }
  refine ⟨h.internal, h.fixed, h.blocks, h.ids, h.registers, ?_, fun k hk => ?_⟩
  · obtain ⟨n, hn⟩ := h.entry
    exact ⟨n, hn.mono (hle n) (Nat.le_refl n)⟩
  · obtain ⟨n, hn⟩ := h.rest k hk
    exact ⟨n, hn.mono (hle n) (Nat.le_refl n)⟩

theorem FuncDecl.Becomes.mono {f : FuncDecl} {sigs : Signatures} {signature signature' : String → Option CallSignature}
    {r : Routine} (h : f.Becomes sigs signature r)
    (hs : ∀ name sig, signature name = some sig → signature' name = some sig) : f.Becomes sigs signature' r := by
  obtain ⟨P, hP, hearly⟩ := h.plan
  exact ⟨h.name, h.params, h.ret, P, hP.mono hs, hearly⟩

/-! ## Assembled programs -/

theorem exists_of_forall₂ {α β : Type} {R : α → β → Prop} {l : List α} {m : List β} (h : List.Forall₂ R l m) {y : β}
    (hy : y ∈ m) : ∃ x ∈ l, R x y := by
  induction h with
  | nil => cases hy
  | cons hr _ ih =>
    rcases List.mem_cons.1 hy with rfl | hy
    · exact ⟨_, List.mem_cons_self, hr⟩
    · obtain ⟨x, hx, hr⟩ := ih hy
      exact ⟨x, List.mem_cons_of_mem _ hx, hr⟩

theorem find?_of_nodup {α : Type} (key : α → String) {x : α} : ∀ {l : List α}, (l.map key).Nodup → x ∈ l →
    l.find? (fun y => key y == key x) = some x
  | y :: l, hn, hx => by
    rw [List.map_cons, List.nodup_cons] at hn
    rw [List.find?_cons]
    rcases List.mem_cons.1 hx with rfl | hx
    · simp
    · have hne : (key y == key x) = false := by
        rw [beq_eq_false_iff_ne]
        intro he
        exact hn.1 (he ▸ List.mem_map_of_mem hx)
      rw [hne]
      exact find?_of_nodup key hn.2 hx

theorem External.main_not_mem : "main" ∉ External.names := by decide

structure Routine.Takes (r : Routine) (sig : CallSignature) : Prop where
  params : r.params.map Prod.snd = sig.params
  ret : r.ret = sig.ret
  variadic : r.isVariadic = sig.isVariadic

theorem External.routine_takes (e : External) : e.routine.Takes e.signature :=
  ⟨by simp [External.routine, Function.comp_def], rfl, rfl⟩

/-- An assembly made of the external routines `es`, the routines `fs` of a program's functions and that of its top
level. -/
structure Assembled (p : Program) (sigs : Signatures) (a : Assembly) (es : List External) (fs : List Routine)
    (main : Routine) (signature : String → Option CallSignature) : Prop where
  routines : a.routines = es.map External.routine ++ (fs ++ [main])
  externals : es <+: External.core ++ External.graphics
  names : (p.functions.map fun f => f.name.name).Nodup
  functions : List.Forall₂ (fun f r => f.Becomes sigs signature r) p.functions fs
  main_name : main.name = "main"
  main_params : main.params = []
  main_ret : main.ret = .i32
  main_plan : ∃ P : Plan, P.Fits signature main
  known : ∀ name sig, signature name = some sig → ∃ r ∈ a.routines, r.name = name ∧ r.Takes sig

namespace Assembled
variable {p : Program} {sigs : Signatures} {a : Assembly} {es : List External} {fs : List Routine} {main : Routine}
  {signature : String → Option CallSignature}

theorem function_names (h : Assembled p sigs a es fs main signature) :
    fs.map Routine.name = p.functions.map fun f => "fn." ++ f.name.name := by
  have hf := h.functions
  clear h
  generalize p.functions = l at hf ⊢
  induction hf with
  | nil => rfl
  | cons hb _ ih => rw [List.map_cons, List.map_cons, hb.name, ih]

theorem function_of_mem (h : Assembled p sigs a es fs main signature) {r : Routine} (hr : r ∈ fs) :
    ∃ f ∈ p.functions, f.Becomes sigs signature r := exists_of_forall₂ h.functions hr

theorem external_mem_names (h : Assembled p sigs a es fs main signature) {e : External} (he : e ∈ es) :
    e.name ∈ External.names := List.mem_map_of_mem (h.externals.subset he)

/-- **Every routine has a name of its own.** -/
theorem names_nodup (h : Assembled p sigs a es fs main signature) : (a.routines.map Routine.name).Nodup := by
  have hes : (es.map External.name).Nodup := by
    have hall : External.names.Nodup := by decide
    exact hall.sublist (h.externals.sublist.map _)
  have hfs : (fs.map Routine.name).Nodup := by
    rw [h.function_names]
    have := h.names
    rw [List.nodup_iff_pairwise_ne, List.pairwise_map] at this ⊢
    exact this.imp fun hne he => hne (Lower.function_symbol_inj he)
  have hext : (es.map External.routine).map Routine.name = es.map External.name := by
    rw [List.map_map]
    rfl
  rw [h.routines, List.map_append, List.map_append, hext, List.map_singleton, h.main_name, List.nodup_append,
    List.nodup_append]
  refine ⟨hes, ⟨hfs, by simp, ?_⟩, ?_⟩
  · intro x hx y hy hxy
    obtain rfl := List.mem_singleton.1 hy
    rw [h.function_names] at hx
    obtain ⟨f, -, hf⟩ := List.mem_map.1 hx
    exact Lower.function_symbol_ne_main _ (hf.trans hxy)
  · intro x hx y hy hxy
    obtain ⟨e, he, rfl⟩ := List.mem_map.1 hx
    have hmem := h.external_mem_names he
    rw [hxy] at hmem
    rcases List.mem_append.1 hy with hy | hy
    · rw [h.function_names] at hy
      obtain ⟨f, -, rfl⟩ := List.mem_map.1 hy
      exact External.function_not_mem _ hmem
    · obtain rfl := List.mem_singleton.1 hy
      exact External.main_not_mem hmem

theorem routine?_of_mem (h : Assembled p sigs a es fs main signature) {r : Routine} (hr : r ∈ a.routines) :
    a.routine? r.name = some r := find?_of_nodup Routine.name h.names_nodup hr

/-- A routine that code may call is there, with the signature that the code relies on. -/
theorem callee (h : Assembled p sigs a es fs main signature) {name : String} {sig : CallSignature}
    (hs : signature name = some sig) : ∃ r, a.routine? name = some r ∧ r.Takes sig := by
  obtain ⟨r, hr, rfl, ht⟩ := h.known name sig hs
  exact ⟨r, h.routine?_of_mem hr, ht⟩

theorem internal_iff (h : Assembled p sigs a es fs main signature) {r : Routine} :
    r ∈ a.routines ∧ r.isExternal = false ↔ r ∈ fs ∨ r = main := by
  obtain ⟨P, hP⟩ := h.main_plan
  rw [h.routines, List.mem_append, List.mem_append, List.mem_singleton]
  constructor
  · rintro ⟨hr | hr, hint⟩
    · obtain ⟨e, -, rfl⟩ := List.mem_map.1 hr
      cases hint
    · exact hr
  · rintro (hr | rfl)
    · obtain ⟨f, -, hb⟩ := h.function_of_mem hr
      obtain ⟨P, hP, -⟩ := hb.plan
      exact ⟨.inr (.inl hr), hP.internal⟩
    · exact ⟨.inr (.inr rfl), hP.internal⟩

/-- **Every routine with a body fits a plan.** -/
theorem plan (h : Assembled p sigs a es fs main signature) {r : Routine} (hr : r ∈ a.routines)
    (hi : r.isExternal = false) : ∃ P : Plan, P.Fits signature r := by
  rcases h.internal_iff.1 ⟨hr, hi⟩ with hr | rfl
  · obtain ⟨f, -, hb⟩ := h.function_of_mem hr
    obtain ⟨P, hP, -⟩ := hb.plan
    exact ⟨P, hP⟩
  · exact h.main_plan

end Assembled

/-! ## Lowering assembles -/

namespace Lower
variable {p : Program} {sigs : Signatures}

theorem declares_initial (options : LowerOptions) : (initial options).builder.Declares options.moduleName [] :=
  ⟨rfl, rfl, rfl, rfl, rfl, rfl, rfl, rfl, fun name sig => by
    show (Table.empty : Table CallSignature).get? name = some sig ↔ _
    simp⟩

theorem declared_of_declares {title : String} {es : List External} {s : LowerState} (h : s.builder.Declares title es)
    (hf : s.functions = Table.empty) :
    Declared es sigs [] (fun name => s.builder.signatures.get? name) s.functions := by
  refine ⟨List.nodup_nil, fun e he => (h.signatures _ _).2 he, by simp, by simp, fun name sig hs => ?_, ?_⟩
  · exact .inl ⟨_, (h.signatures _ _).1 hs, rfl⟩
  · rw [hf]
    simp

/-- The external routines are declared, those for drawing only if they are wanted. -/
theorem ensures_declareExternals (options : LowerOptions) (g : Bool) :
    Ensures (externals g) (initial options) fun _ s =>
      ∃ es, s.builder.Declares options.moduleName es ∧ es <+: External.core ++ External.graphics ∧
        (∀ e ∈ External.core, e ∈ es) ∧ (g = true → ∀ e ∈ External.graphics, e ∈ es) ∧
          ∃ b, s = { initial options with builder := b } := by
  have hnames : ((External.core ++ External.graphics).map External.name).Nodup := by decide
  refine (Ensures.build ((declares_initial options).ensures_declareAll External.core ?_)).bind ?_
  · exact hnames.sublist ((List.prefix_append _ _).sublist.map _)
  rintro _ _ ⟨b, rfl, hb⟩
  rw [List.nil_append] at hb
  cases g with
  | false =>
    exact ⟨_, hb, List.prefix_append _ _, fun _ he => he, fun h => absurd h (by decide), b, rfl⟩
  | true =>
    have hmore := hb.ensures_declareAll External.graphics hnames
    refine (Ensures.build (s := { initial options with builder := b }) hmore).mono ?_
    rintro _ _ ⟨b', rfl, hb'⟩
    exact ⟨_, hb', List.prefix_refl _, fun _ he => List.mem_append_left _ he,
      fun _ _ he => List.mem_append_right _ he, b', rfl⟩

/-- All that can be called is declared, and no routine is begun. -/
structure Prepared (p : Program) (sigs : Signatures) (title : String) (g : Bool) (es : List External) (s : LowerState) :
    Prop where
  externals : es <+: External.core ++ External.graphics
  core : ∀ e ∈ External.core, e ∈ es
  draws : g = true → ∀ e ∈ External.graphics, e ∈ es
  declared : Declared es sigs p.functions (fun name => s.builder.signatures.get? name) s.functions
  idle : Idle (fun name => s.builder.signatures.get? name) s
  name : s.builder.assembly.name = title
  globals : s.builder.assembly.globals = []
  prologue : s.builder.prologue = []
  routines : s.builder.assembly.routines = es.map External.routine

theorem ensures_prepared (p : Program) (sigs : Signatures) (options : LowerOptions) (g : Bool) :
    Ensures (do externals g; declareFunctions sigs p.functions) (initial options) fun _ s =>
      ∃ es, Prepared p sigs options.moduleName g es s := by
  refine (ensures_declareExternals options g).bind ?_
  rintro _ _ ⟨es, hb, hpre, hcore, hdraw, b, rfl⟩
  have hes : ∀ e ∈ es, e.name ∈ External.names := fun e he => List.mem_map_of_mem (hpre.subset he)
  refine (ensures_declareFunctions (s := { initial options with builder := b }) hes p.functions
    (declared_of_declares hb rfl)).mono ?_
  rintro _ s ⟨d, hs⟩
  rw [List.nil_append] at d
  refine ⟨es, hpre, hcore, hdraw, d, ?_, ?_, ?_, ?_, ?_⟩ <;> rw [hs]
  · exact ⟨hb.routine, hb.block, fun _ => rfl, rfl⟩
  · exact hb.name
  · exact hb.globals
  · exact hb.prologue
  · exact hb.routines

/-- **The whole program is assembled.**  It is enough that the drawing routines are declared when there is something to
draw. -/
theorem ensures_program (p : Program) (sigs : Signatures) (options : LowerOptions) {g : Bool}
    (hg : p.graphicsUse?.isSome = true → g = true) :
    Ensures (program p sigs g) (initial options) fun _ s =>
      ∃ es fs main signature, Assembled p sigs s.builder.finish es fs main signature := by
  rw [program_eq_externals, ← bind_assoc]
  refine (ensures_prepared p sigs options g).bind ?_
  rintro _ s₂ ⟨es, hpre, hcore, hdraw, d, hi, -, -, -, hroutines⟩
  have hmain : s₂.builder.signatures.get? "main" = none := by
    cases hm : s₂.builder.signatures.get? "main" with
    | none => rfl
    | some sig =>
      rcases d.only "main" sig hm with ⟨e, he, rfl⟩ | ⟨f, -, hf, -⟩
      · exact absurd (List.mem_map_of_mem (hpre.subset he)) External.main_not_mem
      · exact absurd hf.symm (function_symbol_ne_main _)
  refine (ensures_functions hcore p.functions d hi (fun f hf => ⟨hf, fun hd => hdraw (hg ?_)⟩)).bind ?_
  · exact Stmt.blockGraphicsUse?_of_functions hd p.statements hf
  rintro _ s₃ ⟨hi₃, hfun, fs, hfs, hbecome⟩
  refine (ensures_topLevel (hfun ▸ d) hcore hi₃ hmain p (fun hd => hdraw (hg hd))).mono ?_
  rintro _ s₄ ⟨hroutine, hblock, main, hlast, hname, hparams, hret, P, hP⟩
  have hfinish : s₄.builder.finish.routines = es.map External.routine ++ (fs ++ [main]) := by
    have hsame : s₄.builder.finish.routines = s₄.builder.assembly.routines := by
      simp only [Builder.finish, Builder.closeRoutine, Builder.closeBlock, hblock, hroutine]
    rw [hsame, hlast, hfs, hroutines, List.append_assoc]
  refine ⟨es, fs, main, _, hfinish, hpre, d.names,
    hbecome.imp fun f r hb => hb.mono fun _ _ => withMain_of_known hmain, hname,
    hparams, hret, ⟨P, hP⟩, fun name sig hs => ?_⟩
  rw [hfinish]
  unfold withMain at hs
  split at hs
  · cases hs
    refine ⟨main, by simp, hname.trans (Eq.symm ‹_›), ?_, hret, hP.fixed⟩
    rw [hparams]
    rfl
  · rcases d.only name sig hs with ⟨e, he, rfl⟩ | ⟨f, hf, rfl, rfl⟩
    · exact ⟨_, List.mem_append_left _ (List.mem_map_of_mem he), rfl, External.routine_takes _⟩
    · obtain ⟨r, hr, hb⟩ := exists_of_forall₂ hbecome.flip hf
      obtain ⟨Q, hQ, -⟩ := hb.plan
      exact ⟨r, by simp [hr], hb.name, hb.params, hb.ret, hQ.fixed⟩

end Lower
end QuillLang
