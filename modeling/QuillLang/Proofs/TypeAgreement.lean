import QuillLang.Proofs.Points.Fits
import QuillLang.Proofs.Signatures.Least
/-!
# Inference and lowering agree

Lowering never asks inference what an expression is: it goes by the kinds of the slots that it made.  At every point of a run
the two come to the same answer, for every table of signatures (`Program.lower_types_agree`).  With the signatures that
inference finds, a text is never handed to a parameter that wants a number, and a function that returns a text is known to
(`Program.lower_hands_on_texts`).
-/
namespace QuillLang

/-- The kinds of slots and of values are the types that a scope gives. -/
structure LowerState.TypesAgree (σ : LowerState) (scope : VarTable) : Prop where
  slots : ∀ slot ∈ σ.frames.current, (slot.kind = .string ↔ scope.get? slot.name = some .string)
  values : ∀ e v σ', (Lower.expr e).run σ = .ok (v, σ') → (v.isText = true ↔ e.infer scope = .string)

theorem Lower.Typed.typesAgree {σ₀ σ : LowerState} {vars scope : VarTable} (h : Typed σ₀ vars σ) (hpart : vars.Part scope) :
    σ.TypesAgree scope :=
  ⟨h.agrees_scope hpart, fun e v σ' hrun => Lower.gives_isText e (h.agrees_scope hpart) v σ' hrun⟩

/-! ## Passing arguments -/

def Build.Adds {α : Type} (P : Instr → Prop) (x : Build Nat α) : Prop :=
  ∀ b, ∃ is, (x.run b).2.code = b.code ++ is ∧ ∀ i ∈ is, P i

def Instr.NoAtol (i : Instr) : Prop := i.callee? ≠ some "atol"

namespace Build.Adds
variable {α β : Type} {P : Instr → Prop} {x : Build Nat α} {f : α → Build Nat β}

@[grind ←] theorem pure (a : α) : Adds P (Pure.pure a : Build Nat α) := fun b => ⟨[], (List.append_nil _).symm, by simp⟩

@[grind ←] theorem bind (hx : Adds P x) (hf : ∀ a, Adds P (f a)) : Adds P (x >>= f) := by
  intro b
  obtain ⟨is, hcode, his⟩ := hx b
  obtain ⟨is', hcode', his'⟩ := hf (x.run b).1 (x.run b).2
  refine ⟨is ++ is', ?_, List.forall_mem_append.2 ⟨his, his'⟩⟩
  rw [← List.append_assoc, ← hcode, ← hcode']
  rfl

theorem of_block {x : Build Nat α} (h : ∀ b, (x.run b).2.block = b.block) : Adds P x := by
  intro b
  refine ⟨[], ?_, by simp⟩
  rw [List.append_nil]
  unfold Builder.code
  rw [h b]

@[grind ←] theorem get : Adds P (get : Build Nat Builder) := of_block fun _ => rfl

@[grind ←] theorem freshRegister : Adds P Builder.freshRegister := of_block fun _ => rfl

@[grind ←] theorem stringConstant (content : String) : Adds P (Builder.stringConstant content) := by
  refine of_block fun b => ?_
  unfold Builder.stringConstant
  simp only [Build.run_modifyGet]
  split <;> rfl

theorem emit {result : Option Register} {operation : Operation} (h : P ⟨result, operation⟩) :
    Adds P (Builder.emit result operation) := by
  intro b
  show ∃ is, Builder.code { b with block := b.block.map fun k => { k with instrs := k.instrs ++ [⟨result, operation⟩] } } =
    b.code ++ is ∧ ∀ i ∈ is, P i
  cases hblock : b.block with
  | none => exact ⟨[], by simp [Builder.code, hblock]⟩
  | some k => exact ⟨[⟨result, operation⟩], by simpa [Builder.code, hblock] using h⟩

theorem emitResult {operation : Operation} (h : ∀ result, P ⟨result, operation⟩) : Adds P (Builder.emitResult operation) :=
  freshRegister.bind fun r => (emit (h (some r))).bind fun _ => .pure _

@[grind ←] theorem cast (op : CastOp) (value : Operand) (source target : MachineType) :
    Adds Instr.NoAtol (Builder.cast op value source target) :=
  emitResult fun _ => by simp [Instr.NoAtol, Instr.callee?]

@[grind ←] theorem callVariadic {callee : String} (h : callee ≠ "atol") (fixed : List Operand)
    (extra : List (MachineType × Operand)) : Adds Instr.NoAtol (Builder.callVariadic callee fixed extra) := by
  unfold Builder.callVariadic
  refine get.bind fun b => ?_
  have hcall : ∀ result ret args types, Instr.NoAtol ⟨result, .call callee ret args types⟩ := by
    intro result ret args types
    simp [Instr.NoAtol, Instr.callee?, h]
  dsimp only
  split
  · exact (emit (hcall _ _ _ _)).bind fun _ => .pure _
  · exact emitResult fun _ => hcall _ _ _ _

@[grind ←] theorem decimalText (n : Operand) : Adds Instr.NoAtol (Builder.decimalText n) := by
  unfold Builder.decimalText Builder.call
  grind

@[grind ←] theorem asInt {v : Lowered} (h : v.isText = false) : Adds Instr.NoAtol (Builder.asInt v) := by
  cases v with
  | int n => exact .pure n
  | bool b => exact .cast _ _ _ _
  | text t => cases h

@[grind ←] theorem asText (v : Lowered) : Adds Instr.NoAtol (Builder.asText v) := by
  cases v with
  | int n => exact .decimalText n
  | bool b => exact (asInt rfl).bind fun n => .decimalText n
  | text t => exact .pure t

end Build.Adds

namespace Lower
variable {σ σ₁ σ₂ : LowerState}

/-- An argument that is no text, or is handed to a parameter that wants one, is passed without reading a number. -/
theorem code_of_passed {arg : Expr} {ty : Ty} {v : Lowered} {passed : List Operand × List TextHandle}
    (hexpr : (expr arg).run σ = .ok (v, σ₁)) (hty : v.isText = true → ty = .string)
    (hpassed : (arguments [arg] [ty]).run σ = .ok (passed, σ₂)) :
    ∃ is, σ₂.builder.code = σ₁.builder.code ++ is ∧ ∀ i ∈ is, i.NoAtol := by
  unfold arguments at hpassed
  obtain ⟨v', σ', hexpr', hpass⟩ := exists_of_run_bind hpassed
  rw [hexpr] at hexpr'
  cases hexpr'
  have hbuild : ∀ {α : Type} {step : Build Nat α}, Build.Adds Instr.NoAtol step → ∀ {k : α → List Operand × List TextHandle},
      (build step >>= fun a => arguments [] [] >>= fun _ => pure (k a)).run σ₁ = .ok (passed, σ₂) →
        ∃ is, σ₂.builder.code = σ₁.builder.code ++ is ∧ ∀ i ∈ is, i.NoAtol := by
    intro α step hstep k hrun
    cases hrun
    exact hstep σ₁.builder
  cases ty with
  | int =>
    have hnot : v.isText = false := by
      cases h : v.isText with
      | false => rfl
      | true => cases hty h
    exact hbuild (.asInt hnot) hpass
  | string => exact hbuild (.asText v) hpass

theorem exists_info_of_call {callee : Ident} {args : List Expr} {result : Option Ident}
    (h : (call callee args result).run σ = .ok ((), σ₁)) :
    ∃ info, (functionInfo callee).run σ = .ok (info, σ) ∧ args.length = info.params.length := by
  unfold call at h
  obtain ⟨info, σ₂, hinfo, hrest⟩ := exists_of_run_bind h
  obtain ⟨rfl, -⟩ := gives_functionInfo _ _ _ hinfo
  refine ⟨info, hinfo, ?_⟩
  by_contra hne
  dsimp only at hrest
  rw [if_pos hne] at hrest
  cases hrest

/-- Whatever argument is a text, its parameter is a pointer; and no argument that is passed is read as a number first.  The
argument at a position is lowered after those before it. -/
def HandsOn (σ : LowerState) (args : List Expr) (tys : List Ty) : Prop :=
  ∀ i arg ty before v σ₁ σ₂, args[i]? = some arg → tys[i]? = some ty →
    (arguments (args.take i) (tys.take i)).run σ = .ok (before, σ₁) → (expr arg).run σ₁ = .ok (v, σ₂) →
      (v.isText = true → ty.machineType = .ptr) ∧
      ∀ passed σ₃, (arguments [arg] [ty]).run σ₁ = .ok (passed, σ₃) →
        ∃ is, σ₃.builder.code = σ₂.builder.code ++ is ∧ ∀ i ∈ is, i.NoAtol

end Lower

namespace Program
variable {p : Program} {sigs : Signatures} {options : LowerOptions} {owner : Option FuncDecl} {task : Lower.Task}
  {σ : LowerState}

/-! ## Main theorems -/

/-- **Inference and lowering agree on types**, under every table of signatures: at every point of a run, where a task is
begun and where it is done, the variables with slots for texts are those that inference says are texts, and an expression
that can be lowered there has a text as its value exactly when its inferred type says so.  A program that is not refused
has a point at each of its statements. -/
theorem lower_types_agree (p : Program) (sigs : Signatures) (options : LowerOptions) :
    (∀ owner task σ, p.Visits sigs options owner task σ → σ.TypesAgree (p.scopeOf sigs owner) ∧
      ∀ σ', task.run.run σ = .ok ((), σ') → σ'.TypesAgree (p.scopeOf sigs owner)) ∧
    ∀ a, p.lower sigs options = .ok a →
      (∀ f ∈ p.functions, ∀ s : Stmt, s.Within f.body → ∃ σ, p.Visits sigs options (some f) (.stmt s) σ) ∧
      ∀ s : Stmt, s.Within p.statements → ∃ σ, p.Visits sigs options none (.stmt s) σ := by
  constructor
  · intro owner task σ h
    obtain ⟨σ₀, hbody, hfits⟩ := h.fits_any
    rw [← hbody.scope]
    constructor
    · obtain ⟨vars, htyped, hpart⟩ := hfits.typed
      exact htyped.typesAgree hpart
    · intro σ' hrun
      obtain ⟨vars, htyped, hpart⟩ := hfits.gives_run _ _ hrun
      exact htyped.typesAgree hpart
  · intro a ha
    obtain ⟨hfunctions, htop⟩ := exists_visits ha
    constructor
    · intro f hf s hs
      obtain ⟨σ, -, hvisits, -⟩ := hfunctions f hf s hs
      exact ⟨σ, hvisits⟩
    · intro s hs
      obtain ⟨σ, -, hvisits, -⟩ := htop s hs
      exact ⟨σ, hvisits⟩

theorem greeting_types_agree : ∃ f ∈ greeting.functions, ∃ s : Stmt, s.Within f.body ∧ ∃ σ,
    greeting.Visits (Signatures.infer greeting) .standard (some f) (.stmt s) σ ∧
      σ.TypesAgree (f.scope (Signatures.infer greeting)) ∧
      (f.scope (Signatures.infer greeting)).get? "who" = some .string := by
  obtain ⟨a, ha, -⟩ := greeting_lowers
  obtain ⟨hagree, hvisits⟩ := lower_types_agree greeting (Signatures.infer greeting) .standard
  refine ⟨_, List.mem_cons_self, _, .later (.loop (.when (.here _))), ?_⟩
  obtain ⟨σ, hσ⟩ := (hvisits a ha).1 _ List.mem_cons_self _ (.later (.loop (.when (.here _))))
  exact ⟨σ, hσ, (hagree _ _ σ hσ).1, by decide +kernel⟩

/-- **With inferred signatures texts are handed on as texts.**  At every call that is lowered, an argument that is a text is
passed for a parameter that is a pointer, and no call of `atol` is emitted to pass an argument.  At every return inside a
function of a variable whose slot is for a text, the function is known to return a text. -/
theorem lower_hands_on_texts (p : Program) (options : LowerOptions) :
    (∀ owner callee args result span σ info,
      p.Visits (Signatures.infer p) options owner (.stmt (.call callee args result span)) σ →
      (Lower.functionInfo callee).run σ = .ok (info, σ) → args.length = info.params.length →
        Lower.HandsOn σ args info.params) ∧
    ∀ f x span σ slot, p.Visits (Signatures.infer p) options (some f) (.stmt (.ret x span)) σ →
      σ.frames.lookup x.name = some slot → slot.kind = .string →
        (Signatures.infer p).returnType f.name.name = .string ∧ σ.ret = some .string := by
  have hclosed := Signatures.closed_infer p
  constructor
  · intro owner callee args result span σ info hvisits hinfo hlength i arg ty before v σ₁ σ₂ harg hty hbefore hexpr
    obtain ⟨σ₀, hbody, hfits⟩ := hvisits.fits hclosed
    obtain ⟨vars, f, k, htyped, -, hgranted⟩ := hfits.begins hbody (.call hinfo hlength)
    obtain ⟨rfl, hmeets⟩ := hgranted i arg ty harg hty
    have htyped₁ := htyped.gives_keeps (Lower.keeps_arguments _ _) _ _ hbefore
    have hstring : v.isText = true → (Signatures.infer p).paramType f (k + i) = .string := by
      intro hv
      rw [(Lower.gives_isText arg htyped₁.agrees _ _ hexpr).1 hv] at hmeets
      exact hmeets.paramType
    exact ⟨fun hv => by rw [hstring hv]; rfl, fun passed σ₃ hpassed => Lower.code_of_passed hexpr hstring hpassed⟩
  · intro f x span σ slot hvisits hslot hkind
    obtain ⟨σ₀, hbody, vars, htyped, -, hgranted⟩ := hvisits.fits hclosed
    have hvar := (htyped.agrees slot (SlotTable.mem_of_lookup hslot)).1 hkind
    rw [SlotTable.name_of_lookup hslot, ← VarTable.typeOf_eq_string_iff] at hvar
    have hmeets := hgranted ⟨.result f.name.name, vars.typeOf x.name⟩ List.mem_cons_self
    rw [hvar] at hmeets
    have hreturn := Signatures.Meets.returnType hmeets
    refine ⟨hreturn, ?_⟩
    rw [htyped.ret, hbody.ret, Option.map_some, hreturn]

theorem greeting_hands_on_texts :
    (∃ callee args result span σ info, Stmt.call callee args result span ∈ greeting.statements ∧
      greeting.Visits (Signatures.infer greeting) .standard none (.stmt (.call callee args result span)) σ ∧
      (Lower.functionInfo callee).run σ = .ok (info, σ) ∧ info.params = [.string] ∧ Lower.HandsOn σ args info.params) ∧
    ∃ f ∈ greeting.functions, ∃ x span σ slot,
      greeting.Visits (Signatures.infer greeting) .standard (some f) (.stmt (.ret x span)) σ ∧
      σ.frames.lookup x.name = some slot ∧ slot.kind = .string ∧ σ.ret = some .string := by
  obtain ⟨a, ha, -⟩ := greeting_lowers
  obtain ⟨hfunctions, htop⟩ := exists_visits ha
  obtain ⟨hcall, hret⟩ := lower_hands_on_texts greeting .standard
  constructor
  · obtain ⟨σ, σ', hvisits, hrun⟩ := htop _ (.later (.here _))
    rw [Lower.stmt] at hrun
    obtain ⟨info, hinfo, hlength⟩ := Lower.exists_info_of_call hrun
    refine ⟨_, _, _, _, σ, info, .tail _ (.head _), hvisits, hinfo, ?_, hcall _ _ _ _ _ σ info hvisits hinfo hlength⟩
    obtain ⟨σ₀, hbody, vars, htyped, -⟩ := hvisits.fits_any
    have hknown := (Lower.gives_functionInfo _ _ _ hinfo).2
    rw [htyped.functions] at hknown
    obtain ⟨n, hparams⟩ := hbody.functions _ info hknown
    rw [hparams] at hlength ⊢
    obtain rfl : n = 1 := by simpa [Signatures.paramTypes] using hlength.symm
    decide +kernel
  · obtain ⟨σ, σ', hvisits, hrun⟩ := hfunctions _ List.mem_cons_self _ (.later (.loop (.when (.here _))))
    obtain ⟨slot, σ₁, hslot, -⟩ := Lower.exists_of_run_bind hrun
    have hslot := (Lower.ensures_slotOf _).of_ok hslot
    obtain ⟨σ₀, hbody, hfits⟩ := hvisits.fits_any
    obtain ⟨vars, htyped, hpart⟩ := hfits.typed
    have hkind : slot.kind = .string := by
      rw [htyped.agrees_scope hpart slot (SlotTable.mem_of_lookup hslot.2), SlotTable.name_of_lookup hslot.2, hbody.scope]
      decide +kernel
    exact ⟨_, List.mem_cons_self, _, _, σ, slot, hvisits, hslot.2, hkind, (hret _ _ _ σ slot hvisits hslot.2 hkind).2⟩

end Program
end QuillLang
