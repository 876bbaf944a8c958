import QuillLang.Proofs.Graph.Framed
import QuillLang.Proofs.Points.Fits
import QuillLang.Proofs.Texts.Straight
/-!
# Where expressions are lowered

Inside a body, code is not lost, the library can be called, and the slots have registers below the fresh ones
(`LowerState.Poised`).  This holds where a body begins, every step of lowering keeps it, and so it holds wherever lowering
comes to an expression (`Program.Visits.poised`).
-/
namespace QuillLang

structure LowerState.Poised (σ : LowerState) : Prop where
  primed : σ.builder.Primed
  below : σ.Below
  able : σ.Able

namespace Lower
variable {α : Type} {σ σ' : LowerState}

theorem Orderly.poised {p q : Builder.Phase} {x : Lower α} {P : α → LowerState → Prop}
    (hx : Orderly (View.acts true) σ p x P q) (h : σ.Poised) : Gives x σ fun a σ' => σ'.Poised ∧ P a σ' := by
  refine (hx.gives h.able).imp ?_
  rintro a σ' ⟨hacted, hP⟩
  refine ⟨⟨⟨hacted.continues.isOpen h.primed.isOpen, ?_⟩, hacted.below h.below, hacted.able h.able⟩, hP⟩
  rw [hacted.continues.signatures]
  exact h.primed.core

theorem poised_bindParams (names : List Ident) (tys : List Ty) (regs : List Register) (h : σ.Poised) :
    Gives (bindParams names tys regs) σ fun _ σ' => σ'.Poised :=
  ((acts_bindParams names tys regs).poised h).imp fun _ _ h => h.1

theorem poised_openTest {cond body rest : String} (hcond : cond ∈ Block.names) (hbody : body ∈ Block.names)
    (hrest : rest ∈ Block.names) (h : σ.Poised) : Gives (openTest cond body rest) σ fun blocks σ' => σ'.Poised ∧
      Block.Labels blocks.body blocks.bodyLabel ∧ Block.Labels blocks.rest blocks.restLabel :=
  (tidy_openTest trivial hcond hbody hrest).poised h

theorem Begins.poised {task task' : Task} (h : Begins task σ task' σ') (hσ : σ.Poised) : σ'.Poised := by
  have hsupplies {σ : LowerState} (xs : List String) : (View.acts true).Supplies σ xs := View.supplies trivial xs
  cases h with
  | param | first | value | numbers | call | title | argument | number | operands | left => exact hσ
  | params hrun => exact poised_bindParams _ _ _ hσ _ _ hrun
  | later hrun =>
    exact ((tidy_stmt (View.whole_acts true) _ (fun _ => trivial) fun _ => rfl).poised hσ _ _ hrun).1
  | make hrun | right hrun => exact ((tidy_expr trivial _ (hsupplies _)).poised hσ _ _ hrun).1
  | makeArray hcount hbytes hbuffer =>
    obtain ⟨h₁, hcount⟩ := (tidy_int trivial (hsupplies _)).poised hσ _ _ hcount
    obtain ⟨h₂, hbytes⟩ := (Builder.tidy_intOp (by simpa using hcount) (View.solid_int 8)).poised h₁ _ _ hbytes
    exact ((Builder.tidy_malloc (by simpa using hbytes)).poised h₂ _ _ hbuffer).1
  | test hrun | loopTest hrun => exact (poised_openTest (by decide) (by decide) (by decide) hσ _ _ hrun).1
  | branch htest hbody =>
    obtain ⟨h₁, hlabels, -⟩ := poised_openTest (by decide) (by decide) (by decide) hσ _ _ htest
    exact ((tidy_openBody trivial trivial _ hlabels).poised h₁ _ _ hbody).1
  | round htest hbody hdeeper =>
    obtain ⟨h₁, hlabels, -⟩ := poised_openTest (by decide) (by decide) (by decide) hσ _ _ htest
    obtain ⟨h₂, -⟩ := (tidy_openBody trivial trivial _ hlabels).poised h₁ _ _ hbody
    exact (tidy_deeper.poised h₂ _ _ hdeeper).1
  | window hrun => exact ((tidy_text trivial (hsupplies _)).poised hσ _ _ hrun).1
  | arguments hrun => exact ((tidy_arguments trivial _ _ (hsupplies _)).poised hσ _ _ hrun).1
  | ints hrun => exact ((tidy_int trivial (hsupplies _)).poised hσ _ _ hrun).1

/-! ## Where bodies begin -/

theorem primed_startRoutine {es : List External} {sigs : Signatures} {fs : List FuncDecl}
    {signature : String → Option CallSignature} (hcore : ∀ e ∈ External.core, e ∈ es)
    (hd : Declared es sigs fs signature σ.functions) (hidle : Idle signature σ) (name : String)
    (hname : name ∉ External.names) (params : List MachineType) (ret : MachineType) :
    ((Builder.startRoutine name params ret).run σ.builder).2.Primed := by
  have hsignatures : ∀ e ∈ External.core, σ.builder.signatures.get? e.name = some e.signature := by
    intro e he
    rw [hidle.signatures]
    exact hd.external e (hcore e he)
  obtain ⟨ps, id, -, -, -, hbuilding⟩ :=
    Builder.ensures_startRoutine hidle.routine hidle.block hsignatures name hname params ret
  refine ⟨by rw [hbuilding.block]; rfl, fun e he => ?_⟩
  rw [hbuilding.signatures]
  exact hbuilding.core e he

end Lower

namespace Program
variable {p : Program} {sigs : Signatures} {options : LowerOptions} {owner : Option FuncDecl} {task : Lower.Task}
  {σ : LowerState}

open Lower

theorem poised_openFunction {withGraphics : Bool} {before after : List FuncDecl} {f : FuncDecl} {info : FuncInfo}
    {regs : List Register} {σ₀ : LowerState} (hgraphics : declaresGraphics options.graphics p = .ok withGraphics)
    (hfunctions : p.functions = before ++ f :: after)
    (hbefore : (openProgram p sigs withGraphics before).run (initial options) = .ok ((), σ₀))
    (hopen : (openFunction sigs f).run σ₀ = .ok ((info, regs), σ)) : σ.Poised := by
  have hknown : ∀ f' ∈ before, f' ∈ p.functions := fun f' hf' => by simp [hfunctions, hf']
  obtain ⟨es, signature, hcore, hd, hidle⟩ := (ensures_openProgram p sigs options hgraphics hknown).of_ok hbefore
  unfold openFunction at hopen
  obtain ⟨info', σ₁, hinfo, hopen⟩ := exists_of_run_bind hopen
  obtain ⟨rfl, hinfo⟩ := gives_functionInfo f.name _ _ hinfo
  obtain ⟨f', -, -, rfl⟩ := hd.only_info _ _ hinfo
  have hable := able_startRoutine (hd.able hcore hidle.signatures) (machineType_ne_void (f'.info sigs).ret)
    (f'.info sigs).symbol ((f'.info sigs).params.map Ty.machineType) _ _ rfl
  cases hopen
  exact ⟨primed_startRoutine hcore hd hidle _ (External.function_not_mem f'.name.name) _ _, by simp [LowerState.Below],
    hable.malloc, hable.functions⟩

/-- **Wherever lowering comes to, it stands in a body.** -/
theorem Visits.poised (h : p.Visits sigs options owner task σ) : σ.Poised := by
  induction h with
  | params hgraphics hfunctions hbefore hopen => exact poised_openFunction hgraphics hfunctions hbefore hopen
  | body hgraphics hfunctions hbefore hopen hparams =>
    exact poised_bindParams _ _ _ (poised_openFunction hgraphics hfunctions hbefore hopen) _ _ hparams
  | top hgraphics hbefore hopen =>
    obtain ⟨es, signature, hcore, hd, hidle⟩ := (ensures_openProgram p sigs options hgraphics fun _ h => h).of_ok hbefore
    have hable := able_startRoutine (hd.able hcore hidle.signatures) (show MachineType.i32 ≠ .void by decide) "main" []
      _ _ rfl
    cases hopen
    refine ⟨primed_startRoutine hcore hd hidle "main" (by decide) [] .i32, ?_, hable.malloc, hable.functions⟩
    show ∀ slot ∈ Frames.current _, _
    rw [hidle.frames]
    simp
  | inside _ hbegins ih => exact hbegins.poised ih

end Program
end QuillLang
