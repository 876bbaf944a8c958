import QuillLang.Proofs.Points.Types
import QuillLang.Proofs.Scoping.Basic
/-!
# What a run of lowering checks

Lowering looks names up while it emits code.  Most of its steps only emit code and are never refused (`Lower.Quiet`).  Each
of the others looks at one name, and is refused exactly if a need is not met.  So a run of lowering and the check of the
needs of what it lowers go along with each other: as long as the needs are met, what the variables hold is what their slots
are for (`Lower.Scoped`), and the first need that is not met is where lowering stops, with the same fault (`Lower.Checks`).
-/
namespace QuillLang
namespace Lower
variable {α β κ ι : Type}

/-! ## Steps that look no name up -/

/-- A step that is never refused and changes the code alone. -/
def Quiet (x : Lower α) : Prop := ∀ σ, ∃ a σ', x.run σ = .ok (a, σ') ∧ σ.Kept σ'

namespace Quiet
variable {x : Lower α} {f : α → Lower β}

@[grind ←] theorem pure (a : α) : Quiet (Pure.pure a) := fun σ => ⟨a, σ, rfl, .refl σ, rfl⟩

@[grind ←] theorem bind (hx : Quiet x) (hf : ∀ a, Quiet (f a)) : Quiet (x >>= f) := by
  intro σ
  obtain ⟨a, σ₁, hrun, hkept⟩ := hx σ
  obtain ⟨b, σ₂, hrun', hkept'⟩ := hf a σ₁
  refine ⟨b, σ₂, ?_, hkept.trans hkept'⟩
  rw [run_bind, hrun]
  exact hrun'

@[grind ←] theorem build (step : Build Nat α) : Quiet (build step) := fun _ => ⟨_, _, rfl, ⟨rfl, rfl, rfl, rfl⟩, rfl⟩

@[grind ←] theorem get : Quiet (get : Lower LowerState) := fun σ => ⟨σ, σ, rfl, .refl σ, rfl⟩

theorem modify {g : LowerState → LowerState} (h : ∀ σ : LowerState, σ.Kept (g σ)) : Quiet (modify g : Lower Unit) :=
  fun σ => ⟨(), g σ, rfl, h σ⟩

end Quiet

theorem Orderly.quiet {p q : Builder.Phase} {x : Lower α} {P : LowerState → α → LowerState → Prop}
    (h : ∀ σ, Orderly (View.kept False) σ p x (P σ) q) : Quiet x := by
  intro σ
  obtain ⟨hrefuses, -⟩ | ⟨a, σ', hrun, hkept, -⟩ := (h σ).ends trivial
  · exact hrefuses.elim
  · exact ⟨a, σ', hrun, hkept⟩

@[grind ←] theorem quiet_startBlock (id : BlockId) (label : String) : Quiet (startBlock id label) :=
  (Quiet.build _).bind fun _ => .modify fun _ => ⟨⟨rfl, rfl, rfl, rfl⟩, rfl⟩

theorem quiet_openTest (cond body rest : String) : Quiet (openTest cond body rest) := by
  unfold openTest
  grind

theorem quiet_loadSlot {slot : Slot} (h : slot.kind ≠ .array) (span : Span) : Quiet (loadSlot slot span) :=
  Orderly.quiet fun _ => tidy_loadSlot (.inr h) (fun _ => trivial) span

theorem quiet_storeSlot {slot : Slot} (h : slot.kind ≠ .array) (value : Lowered) (freesPrevious : Bool) (name : Ident) :
    Quiet (storeSlot slot value freesPrevious name) :=
  Orderly.quiet fun _ => tidy_storeSlot (.inr h) (fun _ _ => trivial) freesPrevious name

/-! ## Steps that are refused -/

def Refuses (e : LowerError) (x : Lower α) : Prop := ∀ σ, x.run σ = .error e

namespace Refuses
variable {x : Lower α} {f : α → Lower β} {e : LowerError}

theorem throw (e : LowerError) : Refuses e (throw e : Lower α) := fun _ => rfl

theorem bind (hx : Refuses e x) (f : α → Lower β) : Refuses e (x >>= f) := by
  intro σ
  rw [run_bind, hx σ]
  rfl

theorem quiet_bind (hx : Quiet x) (hf : ∀ a, Refuses e (f a)) : Refuses e (x >>= f) := by
  intro σ
  obtain ⟨a, σ₁, hrun, -⟩ := hx σ
  rw [run_bind, hrun]
  exact hf a σ₁

end Refuses

/-! ## A check and a run -/

/-- A check and a run both end with one fault, or neither is refused and their results are as `Q` says. -/
inductive Verdict (Q : κ → α → LowerState → Prop) : Except LowerError κ → Except LowerError (α × LowerState) → Prop where
  | ok {k : κ} {a : α} {σ : LowerState} (h : Q k a σ) : Verdict Q (.ok k) (.ok (a, σ))
  | error (e : LowerError) : Verdict Q (.error e) (.error e)

namespace Verdict
variable {Q : κ → α → LowerState → Prop} {R : ι → β → LowerState → Prop} {v : Except LowerError κ}

theorem bind {x : Lower α} {f : α → Lower β} {σ : LowerState} {g : κ → Except LowerError ι}
    (hx : Verdict Q v (x.run σ)) (hf : ∀ k a σ', Q k a σ' → Verdict R (g k) ((f a).run σ')) :
    Verdict R (v >>= g) ((x >>= f).run σ) := by
  rw [run_bind]
  generalize x.run σ = r at hx
  cases hx with
  | ok h => exact hf _ _ _ h
  | error e => exact .error e

theorem imp {r : Except LowerError (α × LowerState)} {P : κ → α → LowerState → Prop} (h : Verdict Q v r)
    (hP : ∀ k a σ, Q k a σ → P k a σ) : Verdict P v r := by
  cases h with
  | ok h => exact .ok (hP _ _ _ h)
  | error e => exact .error e

theorem follow {Q : κ → α → LowerState → Prop} {R : κ → β → LowerState → Prop} {x : Lower α} {f : α → Lower β}
    {σ : LowerState} (hx : Verdict Q v (x.run σ)) (hf : ∀ k a σ', Q k a σ' → Verdict R (.ok k) ((f a).run σ')) :
    Verdict R v ((x >>= f).run σ) := by
  have h : Verdict R (v >>= Pure.pure) ((x >>= f).run σ) := hx.bind hf
  rwa [bind_pure] at h

theorem quiet {Q : κ → α → LowerState → Prop} {x : Lower α} (hx : Quiet x) {k : κ} {σ : LowerState}
    (h : ∀ a σ', σ.Kept σ' → Q k a σ') : Verdict Q (.ok k) (x.run σ) := by
  obtain ⟨a, σ', hrun, hkept⟩ := hx σ
  rw [hrun]
  exact .ok (h a σ' hkept)

theorem of_run {Q : κ → β → LowerState → Prop} {x : Lower α} {f : α → Lower β} {σ σ' : LowerState} {a : α}
    (hrun : x.run σ = .ok (a, σ')) (h : Verdict Q v ((f a).run σ')) : Verdict Q v ((x >>= f).run σ) := by
  rw [run_bind, hrun]
  exact h

theorem quiet_bind {Q : κ → β → LowerState → Prop} {x : Lower α} {f : α → Lower β} (hx : Quiet x) {σ : LowerState}
    (hf : ∀ a σ', σ.Kept σ' → Verdict Q v ((f a).run σ')) : Verdict Q v ((x >>= f).run σ) := by
  obtain ⟨a, σ', hrun, hkept⟩ := hx σ
  exact of_run hrun (hf a σ' hkept)

end Verdict

/-! ## Bodies -/

def arity? (σ : LowerState) (name : String) : Option Nat := (σ.functions.get? name).map fun info => info.params.length

theorem arity?_congr {σ σ' : LowerState} (h : σ'.functions = σ.functions) : arity? σ' = arity? σ := by
  unfold arity?
  rw [h]

/-- In the body begun in the state `σ₀`, the variables hold what their slots are for.  The slots in hand are those of their
variables. -/
structure Scoped (σ₀ : LowerState) (hand : List Slot) (kinds : Table SlotKind) (σ : LowerState) : Prop
    extends σ₀.Stays σ where
  kinds : ∀ name, kinds.get? name = (σ.frames.lookup name).map Slot.kind
  hand : ∀ slot ∈ hand, σ.frames.lookup slot.name = some slot

namespace Scoped
variable {σ₀ σ σ' : LowerState} {hand : List Slot} {kinds : Table SlotKind} {slot : Slot} {name : String}

theorem kept (h : Scoped σ₀ hand kinds σ) (hk : σ.Kept σ') : Scoped σ₀ hand kinds σ' where
  toStays := h.toStays.trans hk.toStays
  kinds := by
    rw [hk.frames]
    exact h.kinds
  hand := by
    rw [hk.frames]
    exact h.hand

theorem take (h : Scoped σ₀ hand kinds σ) (hslot : σ.frames.lookup name = some slot) :
    Scoped σ₀ (slot :: hand) kinds σ where
  toStays := h.toStays
  kinds := h.kinds
  hand := by
    refine List.forall_mem_cons.2 ⟨?_, h.hand⟩
    rw [SlotTable.name_of_lookup hslot]
    exact hslot

theorem drop (h : Scoped σ₀ (slot :: hand) kinds σ) : Scoped σ₀ hand kinds σ where
  toStays := h.toStays
  kinds := h.kinds
  hand := (List.forall_mem_cons.1 h.hand).2

theorem register (h : Scoped σ₀ hand kinds σ) (hnew : σ.frames.lookup name = none) (reg : Register) (kind : SlotKind) :
    Scoped σ₀ hand (kinds.insert name kind) { σ with frames := (σ.frames.register name reg kind).2 } := by
  refine ⟨⟨h.outer, h.scopes, h.functions, h.ret⟩, fun other => ?_, fun slot hslot => ?_⟩
  · rw [Table.get?_insert, Frames.lookup_register]
    by_cases hother : other = name
    · simp [hother, hnew]
    · simp [hother, Ne.symm hother, h.kinds]
  · rw [Frames.lookup_register, h.hand slot hslot, Option.some_or]

end Scoped

/-- The step is refused exactly if one of the needs is not met, for the fault of the first such need. -/
def Checks (σ₀ : LowerState) (hand : List Slot) (needs : List Need) (x : Lower α) : Prop :=
  ∀ (kinds : Table SlotKind) (σ : LowerState), Scoped σ₀ hand kinds σ →
    Verdict (fun kinds' _ σ' => Scoped σ₀ hand kinds' σ') (Need.meetAll (arity? σ₀) kinds needs) (x.run σ)

variable {σ₀ : LowerState} {hand : List Slot} {needs more : List Need}

namespace Checks
variable {x : Lower α} {f : α → Lower β}

theorem of_quiet (hx : Quiet x) : Checks σ₀ hand [] x := fun _ _ h => .quiet hx fun _ _ hkept => h.kept hkept

theorem bind (hx : Checks σ₀ hand needs x) (hf : ∀ a, Checks σ₀ hand more (f a)) :
    Checks σ₀ hand (needs ++ more) (x >>= f) := by
  intro kinds σ h
  rw [Need.meetAll_append]
  exact (hx kinds σ h).bind fun _ a _ h' => hf a _ _ h'

theorem quiet_bind (hx : Quiet x) (hf : ∀ a, Checks σ₀ hand needs (f a)) : Checks σ₀ hand needs (x >>= f) :=
  (of_quiet hx).bind hf

theorem bind_quiet (hx : Checks σ₀ hand needs x) (hf : ∀ a, Quiet (f a)) : Checks σ₀ hand needs (x >>= f) := by
  have h : Checks σ₀ hand (needs ++ []) (x >>= f) := hx.bind fun a => of_quiet (hf a)
  rwa [List.append_nil] at h

theorem get_bind {f : LowerState → Lower β} (hf : ∀ σ, σ₀.Stays σ → Checks σ₀ hand needs (f σ)) :
    Checks σ₀ hand needs (get >>= f) :=
  fun kinds σ h => hf σ h.toStays kinds σ h

end Checks

/-! ## Looking a variable up -/

theorem run_slotOf (x : Ident) (σ : LowerState) : (slotOf x).run σ =
    (σ.frames.lookup x.name).elim (.error (.undefinedVariable x.name x.span)) fun slot => .ok (slot, σ) := by
  rw [slotOf, run_bind]
  simp only [run_get, pure_bind]
  cases σ.frames.lookup x.name <;> rfl

theorem run_resultSlot (x : Ident) (σ : LowerState) : (resultSlot x).run σ =
    (σ.frames.lookup x.name).elim (.error (.undefinedResult x.name x.span)) fun slot => .ok (slot, σ) := by
  rw [resultSlot, run_bind]
  simp only [run_get, pure_bind]
  cases σ.frames.lookup x.name <;> rfl

theorem checks_look {x : Ident} {need : Need} {e : LowerError} {look : Lower Slot} {f : Slot → Lower β}
    (hlook : ∀ σ, look.run σ = (σ.frames.lookup x.name).elim (.error e) fun slot => .ok (slot, σ))
    (hmeet : ∀ arity? kinds, need.meet arity? kinds = (kinds.get? x.name).elim (.error e) fun _ => .ok kinds)
    (hf : ∀ slot, slot.name = x.name → Checks σ₀ (slot :: hand) needs (f slot)) :
    Checks σ₀ hand (need :: needs) (look >>= f) := by
  intro kinds σ h
  refine Verdict.bind (Q := fun kinds' slot σ' => kinds' = kinds ∧ σ' = σ ∧ σ.frames.lookup x.name = some slot) ?_ ?_
  · rw [hlook, hmeet, h.kinds]
    cases hslot : σ.frames.lookup x.name with
    | none => exact .error e
    | some slot => exact .ok ⟨rfl, rfl, rfl⟩
  · rintro _ slot _ ⟨rfl, rfl, hslot⟩
    exact (hf slot (SlotTable.name_of_lookup hslot) _ _ (h.take hslot)).imp fun _ _ _ h' => h'.drop

theorem checks_slotOf (x : Ident) {f : Slot → Lower β}
    (hf : ∀ slot, slot.name = x.name → Checks σ₀ (slot :: hand) needs (f slot)) :
    Checks σ₀ hand (.known x :: needs) (slotOf x >>= f) := by
  refine checks_look (run_slotOf x) (fun arity? kinds => ?_) hf
  rw [Need.meet]
  cases kinds.get? x.name <;> rfl

theorem checks_resultSlot (x : Ident) {f : Slot → Lower β}
    (hf : ∀ slot, slot.name = x.name → Checks σ₀ (slot :: hand) needs (f slot)) :
    Checks σ₀ hand (.result x :: needs) (resultSlot x >>= f) := by
  refine checks_look (run_resultSlot x) (fun arity? kinds => ?_) hf
  rw [Need.meet]
  cases kinds.get? x.name <;> rfl

theorem checks_holds (x : Ident) {want : SlotDemand} {f : Slot → Lower β}
    (hok : ∀ slot, want.allows slot.kind = true → Checks σ₀ hand needs (f slot))
    (hbad : ∀ slot, want.allows slot.kind = false → Refuses (.kindMismatch slot.name want slot.kind x.span) (f slot)) :
    Checks σ₀ hand (.holds x want :: needs) (slotOf x >>= f) := by
  intro kinds σ h
  show Verdict _ (Need.meet _ kinds (.holds x want) >>= _) _
  rw [run_bind, run_slotOf, Need.meet, h.kinds]
  cases hslot : σ.frames.lookup x.name with
  | none => exact .error _
  | some slot =>
    dsimp only [Option.map_some, Option.elim_some]
    cases hallows : want.allows slot.kind with
    | true => exact hok slot hallows _ _ h
    | false =>
      rw [← SlotTable.name_of_lookup hslot]
      show Verdict _ (.error _) ((f slot).run σ)
      rw [hbad slot hallows σ]
      exact .error _

theorem checks_arraySlot (x : Ident) {f : Slot → Lower β} (hf : ∀ slot, Checks σ₀ hand needs (f slot)) :
    Checks σ₀ hand (.holds x (.kind .array) :: needs) (arraySlot x >>= f) := by
  unfold arraySlot
  rw [bind_assoc]
  refine checks_holds x (fun slot hallows => ?_) fun slot hallows => ?_
  · rw [if_pos (by simpa [SlotDemand.allows] using hallows), pure_bind]
    exact hf slot
  · rw [if_neg (by simpa [SlotDemand.allows] using hallows)]
    exact (Refuses.throw _).bind f

theorem checks_storeSlot {slot : Slot} {x : Ident} (hslot : slot ∈ hand) (hname : slot.name = x.name) (value : Lowered)
    (freesPrevious : Bool) : Checks σ₀ hand [.holds x .scalar] (storeSlot slot value freesPrevious x) := by
  intro kinds σ h
  show Verdict _ (Need.meet _ kinds (.holds x .scalar) >>= _) _
  rw [Need.meet, h.kinds, ← hname, h.hand slot hslot]
  by_cases hkind : slot.kind = .array
  · have hrefuses : Refuses (.kindMismatch slot.name .scalar slot.kind x.span) (storeSlot slot value freesPrevious x) := by
      unfold storeSlot
      simp only [hkind]
      exact .quiet_bind (.build _) fun _ => .throw _
    rw [hrefuses σ]
    simp only [Option.map_some, hkind]
    exact .error _
  · have hallows : SlotDemand.scalar.allows slot.kind = true := by simpa [SlotDemand.allows] using hkind
    simp only [Option.map_some, hallows, if_true]
    exact .quiet (quiet_storeSlot hkind value freesPrevious x) fun _ _ hkept => h.kept hkept

/-! ## Declaring a variable -/

theorem checks_declareSlot (x : Ident) (kind : SlotKind) {f : Slot × Bool → Lower β}
    (hf : ∀ p : Slot × Bool, p.1.kind = kind → Checks σ₀ hand needs (f p)) :
    Checks σ₀ hand (.declared x kind :: needs) (declareSlot x kind >>= f) := by
  intro kinds σ h
  refine Verdict.bind (Q := fun kinds' p σ' => p.1.kind = kind ∧ Scoped σ₀ hand kinds' σ') ?_
    fun _ p _ ⟨hkind, h'⟩ => hf p hkind _ _ h'
  rw [declareSlot, run_bind, Need.meet, h.kinds]
  simp only [run_get, pure_bind]
  cases hslot : σ.frames.lookup x.name with
  | some slot =>
    dsimp only [Option.map_some]
    by_cases hkind : slot.kind = kind
    · rw [if_pos hkind, if_pos hkind]
      exact .ok ⟨hkind, h⟩
    · rw [if_neg hkind, if_neg hkind, ← SlotTable.name_of_lookup hslot]
      exact .error _
  | none =>
    refine Verdict.quiet_bind (.build _) fun reg σ₁ hkept => Verdict.quiet_bind (.build _) fun _ σ₂ hkept' => ?_
    have h₂ := h.kept (hkept.trans hkept')
    have hnew : σ₂.frames.lookup x.name = none := by rw [(hkept.trans hkept').frames, hslot]
    exact .ok ⟨congrArg Slot.kind (Frames.register_of_none hnew reg kind).1, h₂.register hnew reg kind⟩

/-! ## Expressions -/

theorem checks_expr (e : Expr) : Checks σ₀ hand e.needs (expr e) := by
  induction e with
  | number => exact .of_quiet (.pure _)
  | string => exact .of_quiet ((Quiet.build _).bind fun _ => .pure _)
  | var name span =>
    refine checks_holds ⟨name, span⟩ (fun slot hallows => ?_) fun slot hallows => ?_
    · exact .of_quiet (quiet_loadSlot (by simpa [SlotDemand.allows] using hallows) span)
    · have hkind : slot.kind = .array := by simpa [SlotDemand.allows] using hallows
      unfold loadSlot
      simp only [hkind]
      exact .throw _
  | index array position span ih =>
    refine checks_arraySlot array fun slot => ih.bind_quiet fun v => ?_
    grind
  | binary op left right span ihl ihr =>
    exact ihl.bind fun lhs => ihr.bind_quiet fun rhs => .build _
  | neg operand span ih =>
    refine ih.bind_quiet fun v => ?_
    grind
  | trig func degrees scale span ihd ihs =>
    refine ihd.bind fun d => .quiet_bind (.build _) fun d => ihs.bind_quiet fun s => ?_
    grind
  | random seed limit span ihs ihl =>
    refine ihs.bind fun a => .quiet_bind (.build _) fun a => ihl.bind_quiet fun l => ?_
    grind

theorem checks_int (e : Expr) : Checks σ₀ hand e.needs (int e) := (checks_expr e).bind_quiet fun _ => .build _

theorem checks_text (e : Expr) : Checks σ₀ hand e.needs (text e) := (checks_expr e).bind_quiet fun _ => .build _

theorem checks_condition (e : Expr) : Checks σ₀ hand e.needs (condition e) := by
  refine (checks_expr e).bind_quiet fun v => ?_
  split <;> grind

theorem checks_ints : ∀ es : List Expr, Checks σ₀ hand (es.flatMap Expr.needs) (ints es)
  | [] => .of_quiet (.pure _)
  | e :: es => (checks_int e).bind fun _ => (checks_ints es).bind_quiet fun _ => .pure _

theorem checks_arguments : ∀ (args : List Expr) (tys : List Ty), args.length = tys.length →
    Checks σ₀ hand (args.flatMap Expr.needs) (arguments args tys)
  | [], _, _ => by
    unfold arguments
    exact .of_quiet (.pure _)
  | arg :: args, ty :: tys, hlength => by
    have hrest := checks_arguments args tys (Nat.succ.inj hlength)
    unfold arguments
    refine (checks_expr arg).bind fun v => ?_
    split
    · exact .quiet_bind (.build _) fun _ => hrest.bind_quiet fun _ => .pure _
    · exact .quiet_bind (.build _) fun _ => hrest.bind_quiet fun _ => .pure _

/-! ## Statements -/

theorem ofTy_ne_array (ty : Ty) : SlotKind.ofTy ty ≠ .array := by
  cases ty <;> simp [SlotKind.ofTy]

theorem checks_make (x : Ident) (value : Expr) (h : (σ₀.scopes.current.get? x.name).isSome = true) :
    Checks σ₀ hand (value.needs ++ [.declared x (SlotKind.ofTy (σ₀.scopes.current.typeOf x.name))]) (make x value) := by
  refine .get_bind fun σ hstays => ?_
  have hdeclared : (σ.scopes.lookup x.name).getD (value.infer σ.scopes.current) = σ₀.scopes.current.typeOf x.name := by
    obtain ⟨ty, hty⟩ := Option.isSome_iff_exists.1 h
    rw [Scopes.lookup, hstays.scopes, VarTable.typeOf, hty]
    rfl
  dsimp only
  rw [hdeclared]
  refine (checks_expr value).bind fun v => checks_declareSlot x _ fun p hkind => .of_quiet (Quiet.get.bind fun s => ?_)
  exact quiet_storeSlot (hkind ▸ ofTy_ne_array _) v _ x

theorem checks_assign (x : Ident) (value : Expr) :
    Checks σ₀ hand (.known x :: (value.needs ++ [.holds x .scalar])) (assign x value) :=
  checks_slotOf x fun _ hname => (checks_expr value).bind fun v => checks_storeSlot List.mem_cons_self hname v true

theorem checks_makeArray (x : Ident) (size : Expr) :
    Checks σ₀ hand (size.needs ++ [.declared x .array]) (makeArray x size) := by
  refine (checks_int size).bind fun count => .quiet_bind (.build _) fun bytes => .quiet_bind (.build _) fun buffer => ?_
  refine checks_declareSlot x .array fun p _ => .of_quiet (Quiet.get.bind fun s => ?_)
  dsimp only
  split <;> grind

theorem checks_assignArray (x : Ident) (position value : Expr) :
    Checks σ₀ hand (.holds x (.kind .array) :: (position.needs ++ value.needs)) (assignArray x position value) := by
  refine checks_arraySlot x fun slot => (checks_int position).bind fun index => (checks_int value).bind_quiet fun v => ?_
  grind

theorem checks_print (value : Expr) : Checks σ₀ hand value.needs (print value) := by
  refine (checks_expr value).bind_quiet fun v => ?_
  split <;> grind

theorem checks_free (x : Ident) : Checks σ₀ hand [.holds x .heap] (free x) := by
  refine checks_holds x (fun slot hallows => ?_) fun slot hallows => ?_
  · have hheap : slot.kind.isHeap = true := hallows
    rw [if_pos hheap]
    exact .of_quiet (by grind)
  · rw [if_neg (by simpa [SlotDemand.allows] using hallows)]
    exact .throw _

theorem checks_ret (x : Ident) : Checks σ₀ hand [.holds x .scalar] (ret x) := by
  have hdead : Quiet (do
      let dead ← build (Builder.createBlock "return.dead")
      build (Builder.startBlock dead.1 dead.2)
      modify fun s => { s with afterReturn := true }) :=
    (Quiet.build _).bind fun _ => (Quiet.build _).bind fun _ => .modify fun _ => ⟨⟨rfl, rfl, rfl, rfl⟩, rfl⟩
  refine checks_holds x (fun slot hallows => ?_) fun slot hallows => ?_
  · have hkind : slot.kind ≠ .array := by simpa [SlotDemand.allows] using hallows
    refine .of_quiet (Quiet.get.bind fun σ => ?_)
    split
    · exact (quiet_loadSlot hkind x.span).bind fun v => (Quiet.build _).bind fun n => (Quiet.build _).bind fun status =>
        (Quiet.build _).bind fun _ => hdead
    · have hvalue (ty : Ty) : Quiet (returnValue slot ty x.span) :=
        Orderly.quiet fun _ => tidy_returnValue (.inr hkind) (fun _ => trivial) ty x.span
      exact (hvalue _).bind fun v => (Orderly.quiet fun _ => tidy_releaseLocals _).bind fun _ =>
        (Quiet.build _).bind fun _ => hdead
  · -- an array is refused whichever way the body returns
    have hkind : slot.kind = .array := by simpa [SlotDemand.allows] using hallows
    have hload : Refuses (.kindMismatch slot.name .scalar slot.kind x.span) (loadSlot slot x.span) := by
      unfold loadSlot
      simp only [hkind]
      exact .throw _
    refine .quiet_bind .get fun σ => ?_
    split
    · exact hload.bind _
    · rename_i ty _
      have hvalue : Refuses (.kindMismatch slot.name .scalar slot.kind x.span) (returnValue slot ty x.span) := by
        unfold returnValue
        split
        · exact hload.bind _
        · rw [if_neg (by simp [hkind])]
          exact hload.bind _
      exact hvalue.bind _

/-! ## Calls and drawing -/

theorem checks_called (callee : Ident) (count : Nat) {f : FuncInfo → Lower β}
    (hok : ∀ info : FuncInfo, count = info.params.length → Checks σ₀ hand needs (f info))
    (hbad : ∀ info : FuncInfo, count ≠ info.params.length →
      Refuses (.arityMismatch callee.name info.params.length count callee.span) (f info)) :
    Checks σ₀ hand (.called callee count :: needs) (functionInfo callee >>= f) := by
  intro kinds σ h
  show Verdict _ (Need.meet _ kinds (.called callee count) >>= _) _
  rw [run_bind, run_functionInfo, Need.meet, arity?, ← h.functions]
  cases σ.functions.get? callee.name with
  | none => exact .error _
  | some info =>
    dsimp only [Option.map_some, Option.elim_some]
    by_cases hcount : count = info.params.length
    · rw [if_pos hcount]
      exact hok info hcount kinds σ h
    · rw [if_neg hcount]
      show Verdict _ (.error _) ((f info).run σ)
      rw [hbad info hcount σ]
      exact .error _

theorem checks_call (callee : Ident) (args : List Expr) (result : Option Ident) :
    Checks σ₀ hand (.called callee args.length :: Expr.needsInto args result) (call callee args result) := by
  refine checks_called callee args.length (fun info hlength => ?_) fun info hlength => ?_
  · have hargs : ∀ {hand}, Checks σ₀ hand (args.flatMap Expr.needs) (arguments args info.params) :=
      checks_arguments args info.params hlength
    rw [if_neg (not_not_intro hlength)]
    cases result with
    | none =>
      rw [Expr.needsInto_none]
      refine hargs.bind_quiet fun p => ?_
      grind
    | some x =>
      refine checks_resultSlot x fun slot hname => hargs.bind fun p => ?_
      refine .quiet_bind (.build _) fun v => .quiet_bind (.build _) fun _ => ?_
      exact checks_storeSlot List.mem_cons_self hname _ true
  · rw [if_pos hlength]
    exact .throw _

theorem checks_callWithInts (routine : String) (args : List Expr) :
    Checks σ₀ hand (Expr.needsInto args none) (callWithInts routine args) := by
  rw [Expr.needsInto_none]
  exact (checks_ints args).bind_quiet fun _ => (Quiet.build _).bind fun _ => .pure _

theorem checks_graphics (op : Graphics) : Checks σ₀ hand (Expr.needsInto op.arguments op.result?) (graphics op) := by
  cases op with
  | poll => exact .of_quiet (Orderly.quiet fun _ => tidy_poll trivial trivial)
  | window title width height =>
    have hneeds : Expr.needsInto (Graphics.window title width height).arguments none =
        title.needs ++ (width.needs ++ height.needs) := by
      simp [Expr.needsInto, Graphics.arguments]
    rw [Graphics.result?, hneeds]
    refine (checks_text title).bind fun t => (checks_int width).bind fun w => (checks_int height).bind_quiet fun h => ?_
    grind
  | getPixel x y result =>
    have hneeds : Expr.needsInto (Graphics.getPixel x y result).arguments (some result) =
        .result result :: (x.needs ++ (y.needs ++ [.holds result .scalar])) := by
      simp [Expr.needsInto, Graphics.arguments]
    rw [Graphics.result?, hneeds]
    refine checks_resultSlot result fun slot hname => (checks_int x).bind fun vx => (checks_int y).bind fun vy => ?_
    exact .quiet_bind (.build _) fun pixel => checks_storeSlot List.mem_cons_self hname _ true
  | init | delay | surface | pixel | present | clear | color | line => exact checks_callWithInts _ _

/-! ## All statements -/

theorem checks_openBody (test : Expr) (blocks : TestBlocks) : Checks σ₀ hand test.needs (openBody test blocks) := by
  refine (checks_condition test).bind_quiet fun cond => ?_
  grind

mutual

theorem checks_stmt : ∀ (s : Stmt) {vars : VarTable}, (s.declare vars).Part σ₀.scopes.current →
    Checks σ₀ hand (s.needs σ₀.scopes.current) (stmt s)
  | .make x value _, vars, hpart => by
    have hscope := hpart x.name _ (VarTable.get?_declare vars x.name (value.infer vars))
    exact checks_make x value (by rw [hscope]; rfl)
  | .assign x value _, _, _ => checks_assign x value
  | .makeArray x size _, _, _ => checks_makeArray x size
  | .assignArray x position value _, _, _ => checks_assignArray x position value
  | .when test body span, _, hpart => by
    rw [stmt_when]
    refine .quiet_bind (quiet_openTest _ _ _) fun blocks => (checks_openBody test blocks).bind fun _ => ?_
    exact (checks_block body hpart).bind_quiet fun _ => (Quiet.build _).bind fun _ => quiet_startBlock _ _
  | .loop test body span, _, hpart => by
    have hdepth : ∀ g : Nat → Nat, Quiet (modify fun s => { s with loopDepth := g s.loopDepth } : Lower Unit) :=
      fun g => .modify fun _ => ⟨⟨rfl, rfl, rfl, rfl⟩, rfl⟩
    rw [stmt_loop]
    refine .quiet_bind (quiet_openTest _ _ _) fun blocks => (checks_openBody test blocks).bind fun _ => ?_
    refine .quiet_bind (hdepth (· + 1)) fun _ => (checks_block body hpart).bind_quiet fun _ => ?_
    exact (hdepth (· - 1)).bind fun _ => (Quiet.build _).bind fun _ => quiet_startBlock _ _
  | .print value _, _, _ => checks_print value
  | .free x _, _, _ => checks_free x
  | .func _ _ _ _, _, _ => .of_quiet (.pure ())
  | .ret x _, _, _ => checks_ret x
  | .call callee args result _, _, _ => checks_call callee args result
  | .graphics op _, _, _ => checks_graphics op

theorem checks_block : ∀ (l : List Stmt) {vars : VarTable}, (Stmt.declareAll vars l).Part σ₀.scopes.current →
    Checks σ₀ hand (Stmt.needsAll σ₀.scopes.current l) (block l)
  | [], _, _ => .of_quiet (.pure ())
  | s :: rest, vars, hpart => by
    have hfirst : (s.declare vars).Part σ₀.scopes.current := (Stmt.part_declareAll rest (s.declare vars)).trans hpart
    unfold block
    exact (checks_stmt s hfirst).bind fun _ => checks_block rest hpart

end

/-! ## Parameters -/

theorem checks_bindParams : ∀ (params : List Ident) (tys : List Ty) (regs : List Register), params.length = tys.length →
    tys.length = regs.length →
      Checks σ₀ hand (List.zipWith (fun x ty => .declared x (SlotKind.ofTy ty)) params tys) (bindParams params tys regs)
  | [], _, _, _, _ => by
    unfold bindParams
    exact .of_quiet (.pure ())
  | x :: params, ty :: tys, reg :: regs, hparams, htys => by
    have hrest := checks_bindParams params tys regs (Nat.succ.inj hparams) (Nat.succ.inj htys)
    unfold bindParams
    refine checks_declareSlot x _ fun p hkind => .quiet_bind ?_ fun _ => hrest
    exact quiet_storeSlot (hkind ▸ ofTy_ne_array ty) _ _ x

end Lower
end QuillLang
