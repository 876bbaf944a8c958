import QuillLang.Proofs.Assembled
import QuillLang.Proofs.Checked
/-!
# What lowering makes passes the check

The check finds no fault in an assembled program: names differ, blocks are closed and branch inside their routine, and calls
agree with their callees.  So lowering never reports a fault of its own, and the routines of a lowered program are its
functions and its top level.
-/
namespace QuillLang

namespace Assembled
variable {p : Program} {sigs : Signatures} {a : Assembly} {es : List External} {fs : List Routine} {main : Routine}
  {signature : String → Option CallSignature} {P : Plan} {r : Routine}

theorem callee_accepts (h : Assembled p sigs a es fs main signature) {S : Setting} (hS : S.signature = signature)
    {t t' : Known} {result : Option Register} {callee : String} {ret : MachineType}
    {args : List (MachineType × Operand)} {variadic : Option (List MachineType)}
    (hi : S.Step t ⟨result, .call callee ret args variadic⟩ t') :
    ∃ f ∈ a.routines, f.name = callee ∧ f.Accepts args.length := by
  obtain ⟨sig, hc⟩ := hi.calls
  obtain ⟨f, hf, ht⟩ := h.callee (hS ▸ hc.known)
  obtain ⟨hmem, hname⟩ := (Assembly.routine?_eq_some_iff h.names_nodup).1 hf
  have hparams : f.params.length = sig.params.length := by
    rw [← ht.params, List.length_map]
  have hfixed : sig.params.length ≤ args.length := by
    simpa using hc.fixed.length_le
  refine ⟨f, hmem, hname, ?_⟩
  unfold Routine.Accepts
  split
  · omega
  · rename_i hv
    have harity := hc.arity (ht.variadic ▸ Bool.eq_false_iff.2 hv)
    omega

theorem successors_mem (hP : P.Fits signature r) {t : Known} {e : Terminator} {m : Nat}
    (he : (P.setting signature r.ret).Ends m t e) : ∀ id ∈ e.successors, id ∈ r.blocks.map Block.id := by
  have hmem : ∀ {id : BlockId} {n : Nat}, P.Enters id n → id ∈ r.blocks.map Block.id := by
    intro id n hid
    rw [hP.blocks]
    exact List.mem_cons_of_mem _ hid.1
  intro id hid
  cases he with
  | br _ enters =>
    obtain rfl := List.mem_singleton.1 hid
    exact hmem enters
  | condBr _ _ yes no =>
    rcases List.mem_cons.1 hid with rfl | hid
    · exact hmem yes
    · obtain rfl := List.mem_singleton.1 hid
      exact hmem no
  | ret | unreachable => cases hid

theorem wellFormed_of_plan (h : Assembled p sigs a es fs main signature) (hP : P.Fits signature r) : r.WellFormed a where
  body := by
    rw [hP.blocks]
    exact List.cons_ne_nil _ _
  ends k hk := by
    obtain ⟨t, e, m, hterm, -, -, hends⟩ := hP.block hk
    refine ⟨e, hterm, fun id hid => ?_⟩
    exact List.mem_map.1 (successors_mem hP hends id (Terminator.mem_successors.2 hid))
  calls k hk i hi callee ret args variadic hop := by
    obtain ⟨t, e, m, -, hsteps, -, -⟩ := hP.block hk
    obtain ⟨u, u', hstep⟩ := hsteps.step_of_mem hi
    obtain ⟨result, operation⟩ := i
    obtain rfl : operation = .call callee ret args variadic := hop
    exact h.callee_accepts rfl hstep

/-- **The check passes.** -/
theorem check_ok (h : Assembled p sigs a es fs main signature) : a.check = .ok () := by
  refine (Assembly.check_eq_ok_iff a).2 ⟨h.names_nodup, fun r hr hint => ?_⟩
  obtain ⟨P, hP⟩ := h.plan hr hint
  exact h.wellFormed_of_plan hP

theorem internal_names (h : Assembled p sigs a es fs main signature) :
    (a.routines.filter (!·.isExternal)).map Routine.name =
      (p.functions.map fun f => "fn." ++ f.name.name) ++ ["main"] := by
  have hes : (es.map External.routine).filter (!·.isExternal) = [] := by
    rw [List.filter_eq_nil_iff]
    intro r hr
    obtain ⟨e, -, rfl⟩ := List.mem_map.1 hr
    simp [External.routine]
  have hfs : (fs ++ [main]).filter (!·.isExternal) = fs ++ [main] := by
    rw [List.filter_eq_self]
    intro r hr
    have := (h.internal_iff.2 (by simpa using hr)).2
    simp [this]
  rw [h.routines, List.filter_append, hes, hfs, List.nil_append, List.map_append, h.function_names, List.map_singleton,
    h.main_name]

end Assembled

namespace Program
variable {p : Program} {sigs : Signatures} {options : LowerOptions}

theorem declaresGraphics_of_use {g : Bool} (h : Lower.declaresGraphics options.graphics p = .ok g)
    (hu : p.graphicsUse?.isSome = true) : g = true := by
  obtain ⟨span, hs⟩ := Option.isSome_iff_exists.1 hu
  unfold Lower.declaresGraphics at h
  rw [hs] at h
  cases hp : options.graphics <;> rw [hp] at h <;> cases h <;> rfl

theorem exists_of_any {ε α : Type} {x : Except ε α} {f : α → Bool} (h : x.toOption.any f = true) :
    ∃ a, x = .ok a ∧ f a = true := by
  cases x with
  | error e => cases h
  | ok a => exact ⟨a, rfl, h⟩

/-- Lowering refuses a program for a fault of the program, or makes an assembly that passes the check. -/
theorem lower_cases (p : Program) (sigs : Signatures) (options : LowerOptions) :
    (∃ e, e.OfProgram ∧ p.lower sigs options = .error e) ∨
      ∃ a es fs main signature, p.lower sigs options = .ok a ∧ Assembled p sigs a es fs main signature := by
  unfold Program.lower
  cases hg : Lower.declaresGraphics options.graphics p with
  | error e =>
    refine .inl ⟨e, ?_, rfl⟩
    unfold Lower.declaresGraphics at hg
    split at hg <;> cases hg
    exact fun _ => by simp
  | ok g =>
    have hprogram := Lower.ensures_program p sigs options (declaresGraphics_of_use hg)
    cases hrun : (Lower.program p sigs g).run (Lower.initial options) with
    | error e => exact .inl ⟨e, hprogram.of_error hrun, by simp [bind, Except.bind, hrun]⟩
    | ok result =>
      obtain ⟨_, s⟩ := result
      obtain ⟨es, fs, main, signature, ha⟩ := hprogram.of_ok hrun
      refine .inr ⟨_, es, fs, main, signature, ?_, ha⟩
      simp [bind, Except.bind, hrun, ha.check_ok]

theorem assembled_of_lower {a : Assembly} (h : p.lower sigs options = .ok a) :
    ∃ es fs main signature, Assembled p sigs a es fs main signature := by
  rcases lower_cases p sigs options with ⟨e, -, he⟩ | ⟨a', es, fs, main, signature, ha, hassembled⟩
  · rw [he] at h
    cases h
  · rw [ha] at h
    cases h
    exact ⟨es, fs, main, signature, hassembled⟩

/-- **What lowering makes always passes the check**, for every program, every signature table and all options; and the
routines with bodies are those of the functions, each once and in source order, and `main`. -/
theorem lower_never_malformed (p : Program) (sigs : Signatures) (options : LowerOptions) :
    (∀ fault, p.lower sigs options ≠ .error (.malformed fault)) ∧
      ∀ a, p.lower sigs options = .ok a →
        a.check = .ok () ∧
        (a.routines.filter (!·.isExternal)).map Routine.name =
          (p.functions.map fun f => "fn." ++ f.name.name) ++ ["main"] ∧
        (a.routines.map Routine.name).Nodup := by
  constructor
  · intro fault hf
    rcases lower_cases p sigs options with ⟨e, hprogram, he⟩ | ⟨a, -, -, -, -, ha, -⟩
    · rw [he] at hf
      cases hf
      exact hprogram fault rfl
    · rw [ha] at hf
      cases hf
  · intro a ha
    obtain ⟨es, fs, main, signature, h⟩ := assembled_of_lower ha
    exact ⟨h.check_ok, h.internal_names, h.names_nodup⟩

/-- A function inside a function, and a `return` before a declaration in a loop. -/
def greeting : Program :=
  let here : Span := ⟨⟨1, 1, 0⟩, ⟨1, 1, 0⟩⟩
  let name (x : String) : Ident := ⟨x, here⟩
  ⟨[.func (name "greet") [name "who"]
      [.func (name "ask") [] [.make (name "s") (.string "?" here) here, .ret (name "s") here] here,
        .loop (.number 1 here)
          [.when (.var "who" here) [.ret (name "who") here] here, .make (name "t") (.string "hi" here) here] here] here,
    .call (name "greet") [.string "you" here] none here], here⟩

theorem greeting_lowers : ∃ a, greeting.lower (Signatures.infer greeting) .standard = .ok a ∧
    ∃ r ∈ a.routines, r.isExternal = false ∧ r.name = "fn.greet" := by
  have hany : ((greeting.lower (Signatures.infer greeting) .standard).toOption.any fun a =>
      a.routines.any fun r => !r.isExternal && r.name == "fn.greet") = true := by decide +kernel
  obtain ⟨a, ha, hany⟩ := exists_of_any hany
  obtain ⟨r, hr, hname⟩ := List.any_eq_true.1 hany
  exact ⟨a, ha, r, hr, by simpa using hname⟩

theorem greeting_never_malformed : ∃ a, greeting.lower (Signatures.infer greeting) .standard = .ok a ∧
    a.check = .ok () ∧ (a.routines.filter (!·.isExternal)).map Routine.name = ["fn.greet", "fn.ask", "main"] := by
  obtain ⟨a, ha, -⟩ := greeting_lowers
  obtain ⟨hcheck, hnames, -⟩ := (lower_never_malformed greeting (Signatures.infer greeting) .standard).2 a ha
  exact ⟨a, ha, hcheck, hnames⟩

end Program
end QuillLang
