import QuillLang.Proofs.Points.Orderly
/-!
# Lowering in order

All that lowering does is made of calls in order, once the routines that are defined elsewhere are declared
(`Lower.orderly_bodies`).  Each function of lowering is walked through once, for every view.  What a view wants to know of
operands is carried along by the values in hand, by their type (`View.Has`).

What every call keeps holds in the end (`Program.exists_of_calls`).
-/
namespace QuillLang

open Builder (Call Permit Phase)

/-! ## Values in hand -/

/-- The operands of a value that lowering has in hand, and what they are good for. -/
class Graded (α : Type) where
  operands : α → List (Grade × Operand)

namespace Graded
variable {α β : Type}

instance (priority := low) anything : Graded α := ⟨fun _ => []⟩

instance operand : Graded Operand := ⟨fun v => [(.solid, v)]⟩

instance textHandle : Graded TextHandle := ⟨fun t => [(.text, t.value)]⟩

instance lowered : Graded Lowered where
  operands
    | .int v | .bool v => [(.solid, v)]
    | .text t => [(.text, t.value)]

instance list [Graded α] : Graded (List α) := ⟨fun l => l.flatMap operands⟩

instance prod [Graded α] [Graded β] : Graded (α × β) := ⟨fun p => operands p.1 ++ operands p.2⟩

end Graded

namespace View
variable {α β : Type} {V : View} {σ σ' : LowerState} {v : Operand}

/-- The value is good for what it is in hand for. -/
def Has [Graded α] (V : View) (σ : LowerState) (a : α) : Prop := ∀ x ∈ Graded.operands a, V.Holds x.1 σ x.2

@[grind →] theorem has_le [Graded α] {a : α} (h : V.Le σ σ') (ha : V.Has σ a) : V.Has σ' a :=
  fun x hx => V.holds h (ha x hx)

@[grind →] theorem holds_le {g : Grade} (h : V.Le σ σ') (hv : V.Holds g σ v) : V.Holds g σ' v := V.holds h hv

@[grind →] theorem solid (h : V.Holds .text σ v) : V.Holds .solid σ v := V.solid_of_text h

@[grind →] theorem known (h : V.Holds .solid σ v) : V.Holds .known σ v := V.known_of_solid h

@[grind ←] theorem known_register (r : Register) : V.Holds .known σ (.register r) := V.register σ r

@[grind ←] theorem solid_int (n : Int64) : V.Holds .solid σ (.int n) := V.literal (by simp) (by simp)

@[grind ←] theorem solid_float (bits : UInt64) : V.Holds .solid σ (.float bits) := V.literal (by simp) (by simp)

@[grind ←] theorem solid_null : V.Holds .solid σ .null := V.literal (by simp) (by simp)

@[grind =] theorem has_anything (a : α) : @Has α Graded.anything V σ a ↔ True := by simp [Has, Graded.operands]

@[simp, grind =] theorem has_operand (v : Operand) : V.Has σ v ↔ V.Holds .solid σ v := by simp [Has, Graded.operands]

@[simp, grind =] theorem has_text (t : TextHandle) : V.Has σ t ↔ V.Holds .text σ t.value := by simp [Has, Graded.operands]

@[grind =] theorem has_lowered_int (v : Operand) : V.Has σ (Lowered.int v) ↔ V.Holds .solid σ v := by
  simp [Has, Graded.operands]

@[grind =] theorem has_lowered_bool (v : Operand) : V.Has σ (Lowered.bool v) ↔ V.Holds .solid σ v := by
  simp [Has, Graded.operands]

@[grind =] theorem has_lowered_text (t : TextHandle) : V.Has σ (Lowered.text t) ↔ V.Holds .text σ t.value := by
  simp [Has, Graded.operands]

@[simp, grind =] theorem has_nil [Graded α] : V.Has σ ([] : List α) ↔ True := by simp [Has, Graded.operands]

@[simp, grind =] theorem has_cons [Graded α] (a : α) (l : List α) : V.Has σ (a :: l) ↔ V.Has σ a ∧ V.Has σ l := by
  simp only [Has, Graded.operands, List.flatMap_cons, List.forall_mem_append]

@[simp, grind =] theorem has_pair [Graded α] [Graded β] (a : α) (b : β) :
    @Has _ Graded.prod V σ (a, b) ↔ V.Has σ a ∧ V.Has σ b := by
  simp only [Has, Graded.operands, List.forall_mem_append]

/-- The variables can be read. -/
def Supplies (V : View) (σ : LowerState) (xs : List String) : Prop := ∀ x ∈ xs, V.Ready σ x

@[grind →] theorem supplies_le {xs : List String} (h : V.Le σ σ') (hxs : V.Supplies σ xs) : V.Supplies σ' xs :=
  fun x hx => V.ready h (hxs x hx)

@[grind =] theorem supplies_append (xs ys : List String) : V.Supplies σ (xs ++ ys) ↔ V.Supplies σ xs ∧ V.Supplies σ ys :=
  List.forall_mem_append

theorem supplies (h : V.may.Branches) (xs : List String) : V.Supplies σ xs := fun _ _ slot _ _ => V.full σ slot.register h

/-- A view of whole bodies. -/
structure Whole (V : View) : Prop where
  refuses : V.may.Refuses
  branches : V.may.Branches
  declares : V.may.Declares

/-- A view of whole programs. -/
structure Total (V : View) : Prop extends V.Whole where
  frees : V.may.Frees
  bodies : V.may.Bodies

end View

/-- The variables that an expression reads, arrays apart. -/
@[grind] def Expr.variables : Expr → List String
  | .var name _ => [name]
  | .number _ _ | .string _ _ => []
  | .index _ position _ => position.variables
  | .neg operand _ => operand.variables
  | .binary _ left right _ => left.variables ++ right.variables
  | .trig _ degrees scale _ => degrees.variables ++ scale.variables
  | .random seed limit _ => seed.variables ++ limit.variables

/-! ## Statements that free -/

mutual

def Stmt.frees : Stmt → Bool
  | .free _ _ => true
  | .when _ body _ | .loop _ body _ | .func _ _ body _ => Stmt.blockFrees body
  | .make _ _ _ | .assign _ _ _ | .makeArray _ _ _ | .assignArray _ _ _ _ | .print _ _ | .ret _ _ | .call _ _ _ _
  | .graphics _ _ => false

def Stmt.blockFrees : List Stmt → Bool
  | [] => false
  | s :: rest => s.frees || Stmt.blockFrees rest

end

/-! ## Building -/

namespace Lower
variable {α β : Type} {V : View} {σ : LowerState} {x : Lower α} {f : α → Lower β}

/-- The step goes from an open block to an open block. -/
abbrev TidyFor (V : View) (σ : LowerState) (x : Lower α) (Q : α → LowerState → Prop) : Prop :=
  Orderly V σ .isOpen x Q .isOpen

/-- Its result is in hand. -/
abbrev Tidy [Graded α] (V : View) (σ : LowerState) (x : Lower α) : Prop := TidyFor V σ x fun a σ' => V.Has σ' a

variable [Graded α] [Graded β]

@[grind ←] theorem tidy_pure {a : α} (h : V.Has σ a) : Tidy V σ (pure a) := .pure h

@[grind ←] theorem tidy_throw {e : LowerError} (may : V.may.Refuses) (h : ∀ span, e ≠ .graphicsDisabled span) :
    Tidy V σ (throw e : Lower α) := .throw may h

@[grind ←] theorem tidy_bind (hx : Tidy V σ x) (hf : ∀ a σ', V.Le σ σ' → V.Has σ' a → Tidy V σ' (f a)) :
    Tidy V σ (x >>= f) := .bind hx hf

@[grind ←] theorem tidy_build_pure {a : α} (h : V.Has σ a) : Tidy V σ (build (pure a)) := .pure h

@[grind ←] theorem tidy_build_bind {x : Build Nat α} {f : α → Build Nat β} (hx : Tidy V σ (build x))
    (hf : ∀ a σ', V.Le σ σ' → V.Has σ' a → Tidy V σ' (build (f a))) : Tidy V σ (build (x >>= f)) := .build_bind hx hf

end Lower

namespace Builder
open Lower (Tidy TidyFor tidy_build_bind build)
variable {V : View} {σ : LowerState} {u v : Operand} {ty : MachineType} {callee : String} {args : List Operand}
  {extra : List (MachineType × Operand)} {t : TextHandle} {x y : Lowered}

theorem tidy_compute {operation : Operation} (h : operation.computes = true)
    (hops : ∀ v ∈ operation.operands, V.Holds .known σ v) : Tidy V σ (build (emitResult operation)) :=
  .call (.compute operation) rfl trivial ⟨h, hops⟩ fun _ _ _ hv => (View.has_operand _).2 hv

@[grind ←] theorem tidy_element (hu : V.Holds .known σ u) (hv : V.Holds .solid σ v) : Tidy V σ (build (element ty u v)) :=
  tidy_compute rfl (by simpa [Operation.operands] using ⟨hu, V.known_of_solid hv⟩)

@[grind ←] theorem tidy_arith {op : ArithOp} (hu : V.Holds .solid σ u) (hv : V.Holds .solid σ v) :
    Tidy V σ (build (arith op ty u v)) :=
  tidy_compute rfl (by simpa [Operation.operands] using ⟨V.known_of_solid hu, V.known_of_solid hv⟩)

@[grind ←] theorem tidy_intOp {op : ArithOp} (hu : V.Holds .solid σ u) (hv : V.Holds .solid σ v) :
    Tidy V σ (build (intOp op u v)) := tidy_arith hu hv

@[grind ←] theorem tidy_compare {op : CompareOp} (hu : V.Holds .solid σ u) (hv : V.Holds .solid σ v) :
    Tidy V σ (build (compare op ty u v)) :=
  tidy_compute rfl (by simpa [Operation.operands] using ⟨V.known_of_solid hu, V.known_of_solid hv⟩)

@[grind ←] theorem tidy_cast {op : CastOp} {target : MachineType} (hv : V.Holds .solid σ v) :
    Tidy V σ (build (cast op v ty target)) :=
  tidy_compute rfl (by simpa [Operation.operands] using V.known_of_solid hv)

theorem tidy_load (ty : MachineType) (h : V.Holds .known σ v) :
    TidyFor V σ (build (load ty v)) fun u σ' => V.Holds .known σ' u :=
  .call (.load ty v) rfl trivial h fun _ _ _ h => h.1

@[grind ←] theorem tidy_loadNumber (h : V.Holds .known σ v) : Tidy V σ (build (load .i64 v)) :=
  .call (.load .i64 v) rfl trivial h fun _ _ _ h => (View.has_operand _).2 (h.2.1 (by simp))

theorem tidy_loadText {s : Register} (h : V.Full σ s) :
    TidyFor V σ (build (load .ptr (.register s))) fun u σ' => V.Holds .text σ' u :=
  .call (.load .ptr (.register s)) rfl trivial (V.register σ s) fun _ _ _ hu => hu.2.2 s rfl h

theorem tidy_store (hv : V.Holds .solid σ v) (hu : V.Holds .known σ u) (hnull : ty = .ptr → v = .null → V.may.Frees) :
    TidyFor V σ (build (store ty v u)) fun _ σ' => ∀ s, u = .register s → ty = .ptr → V.Holds .text σ v → V.Full σ' s :=
  .call (.store ty v u) rfl trivial ⟨hv, hu, hnull⟩ fun _ _ _ h => h

theorem tidy_invoke (h : V.Calls callee) (hargs : V.Has σ args) (hextra : V.Has σ extra) :
    TidyFor V σ (build (callVariadic callee args extra)) fun v σ' =>
      V.Holds .solid σ' v ∧ (callee = "malloc" ∨ V.Answers σ callee → V.Holds .text σ' v) := by
  refine .call (.invoke callee args extra) rfl trivial ⟨h, fun v hv => ?_⟩ fun _ _ _ h => h
  have hsolid : V.Holds .solid σ v := by
    rcases List.mem_append.1 hv with hv | hv
    · exact hargs (.solid, v) (List.mem_flatMap.2 ⟨v, hv, by simp [Graded.operands]⟩)
    · obtain ⟨p, hp, rfl⟩ := List.mem_map.1 hv
      exact hextra (.solid, p.2) (List.mem_flatMap.2 ⟨p, hp, by simp [Graded.operands]⟩)
  split
  · exact V.known_of_solid hsolid
  · exact hsolid

@[grind ←] theorem tidy_callVariadic (h : V.Calls callee) (hargs : V.Has σ args) (hextra : V.Has σ extra) :
    Tidy V σ (build (callVariadic callee args extra)) :=
  (tidy_invoke h hargs hextra).imp fun _ _ _ h => (View.has_operand _).2 h.1

@[grind ←] theorem tidy_call (h : V.Calls callee) (hargs : V.Has σ args) : Tidy V σ (build (call callee args)) :=
  tidy_callVariadic h hargs (by simp)

@[grind ←] theorem calls_core (h : callee ≠ "exit") (hdraws : External.draws callee = false) : V.Calls callee :=
  V.calls h (.inr hdraws)

theorem tidy_malloc (h : V.Holds .solid σ v) : TidyFor V σ (build (call "malloc" [v])) fun p σ' => V.Holds .text σ' p :=
  (tidy_invoke (V.calls (by decide) (.inr rfl)) (by simpa using h) (by simp)).imp fun _ _ _ h => h.2 (.inl rfl)

/-- What is freed need not be a text. -/
@[grind ←] theorem tidy_free (h : V.Holds .known σ v) : Tidy V σ (build (call "free" [v])) :=
  .call (.invoke "free" [v] []) rfl trivial ⟨V.calls (by decide) (.inr rfl), by simpa using h⟩ fun _ _ _ h =>
    (View.has_operand _).2 h.1

theorem tidy_stringConstant (content : String) :
    TidyFor V σ (build (stringConstant content)) fun g σ' => V.Holds .text σ' (.global g) :=
  .call (.stringConstant content) rfl trivial trivial fun _ _ _ h => h

theorem orderly_createBlock {p : Phase} {name : String} (may : V.may.Branches) (h : name ∈ Block.names) :
    Lower.Orderly V σ p (build (createBlock name)) (fun block _ => Block.Labels block.1 block.2) p :=
  .call (.createBlock name) rfl may h fun _ _ _ h => h

theorem orderly_terminate (may : V.may.Branches) (t : Terminator) :
    Lower.Orderly V σ .isOpen (build (terminate t)) (fun _ _ => True) .ended :=
  .call (.terminate t) rfl may trivial fun _ _ _ h => h

/-! ## Texts and operators -/

theorem tidy_copyText (h : V.Holds .solid σ v) : TidyFor V σ (build (copyText v)) fun p σ' => V.Holds .text σ' p := by
  refine .build_bind (tidy_call (by grind) (by simpa using h)) fun n σ₁ h₁ hn => ?_
  refine .build_bind (tidy_intOp (by grind) (by grind)) fun size σ₂ h₂ hsize => ?_
  refine .build_bind (tidy_malloc (by grind)) fun p σ₃ h₃ hp => ?_
  have hcopy : Tidy V σ₃ (build (call "strcpy" [p, v])) := by grind
  exact .build_bind hcopy fun _ _ h₄ _ => .pure (V.holds h₄ hp)

@[grind ←] theorem tidy_freeSlot (slot : Register) : Tidy V σ (build (freeSlot slot)) := by
  refine .build_bind (tidy_load .ptr (V.register σ slot)) fun buffer σ₁ _ hbuffer => ?_
  show Tidy V σ₁ _
  grind

@[grind ←] theorem tidy_freeSlots (slots : List Register) : Tidy V σ (build (freeSlots slots)) := by
  induction slots generalizing σ with
  | nil | cons =>
    unfold freeSlots
    grind

@[grind ←] theorem tidy_release (h : V.Has σ t) : Tidy V σ (build (release t)) := by
  cases t <;> (unfold release; grind [TextHandle.value])

@[grind ←] theorem tidy_releaseAll {ts : List TextHandle} (h : V.Has σ ts) : Tidy V σ (build (releaseAll ts)) := by
  induction ts generalizing σ with
  | nil | cons =>
    unfold releaseAll
    grind

theorem tidy_intoOwned (h : V.Has σ t) : TidyFor V σ (build (intoOwned t)) fun p σ' => V.Holds .text σ' p := by
  rw [View.has_text] at h
  cases t with
  | owned v => exact .pure h
  | borrowed v => exact tidy_copyText (V.solid_of_text h)

@[grind ←] theorem tidy_discard (h : V.Has σ x) : Tidy V σ (build (discard x)) := by
  cases x <;> (unfold discard; grind)

@[grind ←] theorem tidy_asInt (h : V.Has σ x) : Tidy V σ (build (asInt x)) := by
  cases x <;> (unfold asInt; grind)

@[grind ←] theorem tidy_decimalText (h : V.Holds .solid σ v) : Tidy V σ (build (decimalText v)) := by
  refine .build_bind (tidy_malloc (View.solid_int 21)) fun p σ₁ h₁ hp => ?_
  refine .build_bind (tidy_stringConstant "%lld") fun g σ₂ h₂ hg => ?_
  show Tidy V σ₂ _
  grind [TextHandle.value]

@[grind ←] theorem tidy_asText (h : V.Has σ x) : Tidy V σ (build (asText x)) := by
  cases x <;> (unfold asText; grind)

@[grind ←] theorem tidy_concat {s : TextHandle} (hs : V.Has σ s) (ht : V.Has σ t) : Tidy V σ (build (concat s t)) := by
  have hlength {σ' : LowerState} {t : TextHandle} (h : V.Has σ' t) : Tidy V σ' (build (call "strlen" [t.value])) := by grind
  refine .build_bind (hlength hs) fun m σ₁ h₁ hm => .build_bind (hlength (V.has_le h₁ ht)) fun n σ₂ h₂ hn => ?_
  refine tidy_build_bind (by grind) fun k σ₃ h₃ hk => tidy_build_bind (by grind) fun size σ₄ h₄ hsize => ?_
  refine .build_bind (tidy_malloc (by grind)) fun p σ₅ h₅ hp => ?_
  show Tidy V σ₅ _
  grind [TextHandle.value]

@[grind ←] theorem tidy_elementAddress (array : Slot) (h : V.Holds .solid σ v) :
    Tidy V σ (build (elementAddress array v)) := by
  refine .build_bind (tidy_load .ptr (V.register σ _)) fun base σ₁ h₁ hbase => ?_
  exact tidy_element hbase (V.holds h₁ h)

@[grind ←] theorem tidy_numberOperator (op : BinaryOp) (hx : V.Has σ x) (hy : V.Has σ y) :
    Tidy V σ (build (numberOperator op x y)) := by
  refine tidy_build_bind (tidy_asInt hx) fun l σ₁ h₁ hl => tidy_build_bind (by grind) fun r σ₂ h₂ hr => ?_
  split <;> grind

@[grind ←] theorem tidy_binaryOperator (op : BinaryOp) (hx : V.Has σ x) (hy : V.Has σ y) :
    Tidy V σ (build (binaryOperator op x y)) := by
  unfold binaryOperator joinTexts compareTexts
  split
  · split <;> grind
  · grind

@[grind ←] theorem tidy_trig (func : TrigFunc) (hu : V.Holds .solid σ u) (hv : V.Holds .solid σ v) :
    Tidy V σ (build (trig func u v)) := by
  have hroutine : V.Calls func.routine := by cases func <;> exact V.calls (by decide) (.inr rfl)
  unfold trig
  grind

@[grind ←] theorem tidy_random (hu : V.Holds .solid σ u) (hv : V.Holds .solid σ v) : Tidy V σ (build (random u v)) := by
  unfold random
  grind

end Builder

namespace Lower
variable {V : View} {σ : LowerState}

/-! ## Expressions -/

theorem tidy_slotOf (may : V.may.Refuses) (name : Ident) :
    TidyFor V σ (slotOf name) fun slot σ' => σ' = σ ∧ σ.frames.lookup name.name = some slot := by
  refine .get_bind (fun _ _ => rfl) ?_
  split
  · rename_i hslot
    exact .pure ⟨rfl, hslot⟩
  · exact .throw may (by simp)

theorem tidy_resultSlot (may : V.may.Refuses) (name : Ident) :
    TidyFor V σ (resultSlot name) fun slot σ' => σ' = σ ∧ σ.frames.lookup name.name = some slot := by
  refine .get_bind (fun _ _ => rfl) ?_
  split
  · rename_i hslot
    exact .pure ⟨rfl, hslot⟩
  · exact .throw may (by simp)

@[grind ←] theorem tidy_arraySlot (may : V.may.Refuses) (name : Ident) : Tidy V σ (arraySlot name) := by
  refine .bind (tidy_slotOf may name) fun slot σ' _ _ => ?_
  show Tidy V σ' _
  split <;> grind

@[grind ←] theorem tidy_releaseLocals (keep : Option String) : Tidy V σ (releaseLocals keep) :=
  .get_bind (fun _ _ => rfl) (Builder.tidy_freeSlots _)

theorem tidy_loadSlot {slot : Slot} (may : V.may.Refuses ∨ slot.kind ≠ .array)
    (hfull : slot.kind = .string → V.Full σ slot.register) (span : Span) : Tidy V σ (loadSlot slot span) := by
  unfold loadSlot
  split
  · grind
  · rename_i hkind
    exact .bind (Builder.tidy_loadText (hfull hkind)) fun v _ _ hv => .pure ((View.has_lowered_text _).2 hv)
  · rename_i hkind
    exact .throw (may.resolve_right (absurd hkind)) (by simp)

/-- **An expression is lowered by calls in order**, if its variables can be read. -/
@[grind ←] theorem tidy_expr (may : V.may.Refuses) (e : Expr) (h : V.Supplies σ e.variables) : Tidy V σ (expr e) := by
  induction e generalizing σ with
  | string text span =>
    exact .bind (Builder.tidy_stringConstant text) fun g _ _ hg => .pure ((View.has_lowered_text _).2 hg)
  | var name span =>
    refine .bind (tidy_slotOf may ⟨name, span⟩) ?_
    rintro slot _ - ⟨rfl, hslot⟩
    exact tidy_loadSlot (.inl may) (h name (by simp [Expr.variables]) slot hslot) span
  | number | index | binary | neg | trig | random =>
    unfold expr
    grind

@[grind ←] theorem tidy_int (may : V.may.Refuses) {e : Expr} (h : V.Supplies σ e.variables) : Tidy V σ (int e) := by
  unfold int
  grind

@[grind ←] theorem tidy_text (may : V.may.Refuses) {e : Expr} (h : V.Supplies σ e.variables) : Tidy V σ (text e) := by
  unfold text
  grind

@[grind ←] theorem tidy_condition (may : V.may.Refuses) {e : Expr} (h : V.Supplies σ e.variables) :
    Tidy V σ (condition e) := by
  refine .bind (tidy_expr may e h) fun v σ₁ _ hv => ?_
  show Tidy V σ₁ _
  split <;> grind

@[grind ←] theorem tidy_ints (may : V.may.Refuses) {es : List Expr} (h : V.Supplies σ (es.flatMap Expr.variables)) :
    Tidy V σ (ints es) := by
  induction es generalizing σ with
  | nil | cons =>
    unfold ints
    grind

@[grind ←] theorem tidy_arguments (may : V.may.Refuses) (args : List Expr) (tys : List Ty)
    (h : V.Supplies σ (args.flatMap Expr.variables)) : Tidy V σ (arguments args tys) := by
  induction args, tys using arguments.induct generalizing σ with
  | case1 arg args ty tys ih =>
    unfold arguments
    rw [List.flatMap_cons, View.supplies_append] at h
    refine .bind (tidy_expr may arg h.1) fun v σ₁ h₁ hv => ?_
    show Tidy V σ₁ _
    split <;> grind
  | case2 args tys h =>
    unfold arguments
    split <;> grind

/-! ## Statements -/

namespace Orderly

theorem tidy {x : Lower Unit} {Q : Unit → LowerState → Prop} (h : TidyFor V σ x Q) : Tidy V σ x :=
  h.imp fun _ _ _ _ => (View.has_anything ()).2 trivial

end Orderly

theorem tidy_storeText {v : Operand} (h : V.Holds .text σ v) (slot : Slot) :
    TidyFor V σ (build (Builder.store .ptr v (.register slot.register))) fun _ σ' => V.Full σ' slot.register := by
  refine (Builder.tidy_store (V.solid_of_text h) (V.register σ _) ?_).imp fun _ _ _ hfull => hfull _ rfl rfl h
  rintro - rfl
  exact V.null h

theorem tidy_storeSlot {slot : Slot} (may : V.may.Refuses ∨ slot.kind ≠ .array) {value : Lowered} (h : V.Has σ value)
    (freesPrevious : Bool) (name : Ident) : TidyFor V σ (storeSlot slot value freesPrevious name) fun _ σ' =>
      slot.kind = .string → V.Full σ' slot.register := by
  unfold storeSlot
  split
  · rename_i hkind
    refine .bind (Builder.tidy_asInt h) fun n σ₁ h₁ hn => ?_
    refine .imp (Builder.tidy_store ((View.has_operand n).1 hn) (V.register σ₁ _) nofun) fun _ _ _ _ hs => ?_
    rw [hkind] at hs
    cases hs
  · refine .bind (Builder.tidy_asText h) fun t σ₁ h₁ ht => .bind (Builder.tidy_intoOwned ht) fun v σ₂ h₂ hv => ?_
    have hstore {σ₃ : LowerState} (h₃ : V.Le σ₂ σ₃) : TidyFor V σ₃ (build (Builder.store .ptr v (.register slot.register)))
        fun _ σ' => slot.kind = .string → V.Full σ' slot.register :=
      (tidy_storeText (V.holds h₃ hv) slot).imp fun _ _ _ hfull _ => hfull
    split
    · exact .bind (Builder.tidy_freeSlot _) fun _ _ h₃ _ => hstore h₃
    · exact hstore (V.refl σ₂)
  · rename_i hkind
    exact .bind (Builder.tidy_discard h) fun _ _ _ _ => .throw (may.resolve_right (absurd hkind)) (by simp)

@[grind ←] theorem tidy_declareSlot (may : V.may.Refuses) (hdeclares : V.may.Declares) (name : Ident) (kind : SlotKind) :
    Tidy V σ (declareSlot name kind) := by
  refine .get_bind (fun _ _ => rfl) ?_
  split
  · show Tidy V σ _
    split <;> grind
  · refine .bind (.call (.alloca kind.machineType) rfl hdeclares trivial fun _ _ _ h => h) fun reg σ₁ _ hreg => ?_
    refine .bind (.call (.initSlot kind reg) rfl hdeclares trivial fun _ _ _ h => h) fun _ σ₂ h₂ _ => ?_
    exact .modifyGet (fun _ _ => rfl) (V.declares name.name kind hdeclares (V.taken h₂ hreg)) (by simp [View.has_anything])

theorem tidy_make (may : V.may.Refuses) (hdeclares : V.may.Declares) (name : Ident) {value : Expr}
    (h : V.Supplies σ value.variables) : Tidy V σ (make name value) := by
  refine .get_bind (fun _ _ => rfl) (.bind (tidy_expr may value h) fun v σ₁ _ hv => ?_)
  refine .bind (tidy_declareSlot may hdeclares name _) fun slot σ₂ h₂ _ => .get_bind (fun _ _ => rfl) ?_
  exact (tidy_storeSlot (.inl may) (V.has_le h₂ hv) _ _).tidy

theorem tidy_makeArray (may : V.may.Refuses) (hdeclares : V.may.Declares) (name : Ident) {size : Expr}
    (h : V.Supplies σ size.variables) : Tidy V σ (makeArray name size) := by
  refine tidy_bind (tidy_int may h) fun count σ₁ _ hcount => tidy_bind (by grind) fun bytes σ₂ _ hbytes => ?_
  refine .bind (Builder.tidy_malloc (by grind)) fun buffer σ₃ _ hbuffer => ?_
  refine .bind (tidy_declareSlot may hdeclares name .array) fun slot σ₄ h₄ _ => .get_bind (fun _ _ => rfl) ?_
  have hstore {σ₅ : LowerState} (h₅ : V.Le σ₄ σ₅) := (tidy_storeText (V.holds h₅ (V.holds h₄ hbuffer)) slot.1).tidy
  dsimp only
  split
  · exact .bind (Builder.tidy_freeSlot _) fun _ _ h₅ _ => hstore h₅
  · exact hstore (V.refl σ₄)

/-- The variables have slots, and those that are texts have got one. -/
def Stored (V : View) (σ σ' : LowerState) (xs : List String) : Prop :=
  ∀ x ∈ xs, ∃ slot, σ.frames.lookup x = some slot ∧ (slot.kind = .string → V.Full σ' slot.register)

theorem tidy_assign (may : V.may.Refuses) (name : Ident) {value : Expr} (h : V.Supplies σ value.variables) :
    TidyFor V σ (assign name value) fun _ σ' => Stored V σ σ' [name.name] := by
  refine .bind (tidy_slotOf may name) ?_
  rintro slot σ - ⟨rfl, hslot⟩
  refine .bind (tidy_expr may value h) fun v σ₁ _ hv => (tidy_storeSlot (.inl may) hv _ _).imp fun _ _ _ hfull => ?_
  simpa [Stored] using ⟨slot, hslot, hfull⟩

theorem tidy_assignArray (may : V.may.Refuses) (name : Ident) {position value : Expr}
    (hposition : V.Supplies σ position.variables) (hvalue : V.Supplies σ value.variables) :
    Tidy V σ (assignArray name position value) := by
  refine tidy_bind (tidy_arraySlot may name) fun slot σ₁ h₁ _ => tidy_bind (by grind) fun i σ₂ h₂ hi => ?_
  refine tidy_bind (by grind) fun v σ₃ h₃ hv => tidy_bind (by grind) fun address σ₄ h₄ haddress => ?_
  exact (Builder.tidy_store (by grind) (by grind) (by simp)).tidy

theorem tidy_print (may : V.may.Refuses) {value : Expr} (h : V.Supplies σ value.variables) : Tidy V σ (print value) := by
  refine .bind (tidy_expr may value h) fun v σ₁ _ hv => ?_
  split
  · refine .bind (Builder.tidy_stringConstant _) fun format σ₂ _ hformat => ?_
    show Tidy V σ₂ _
    grind
  · refine tidy_bind (Builder.tidy_asInt hv) fun n σ₂ _ hn => ?_
    refine .bind (Builder.tidy_stringConstant _) fun format σ₃ _ hformat => ?_
    show Tidy V σ₃ _
    grind

theorem tidy_free (may : V.may.Refuses) (hfrees : V.may.Frees) (name : Ident) : Tidy V σ (free name) := by
  refine .bind (tidy_slotOf may name) fun slot σ₁ _ _ => ?_
  split
  · refine .bind (Builder.tidy_freeSlot _) fun _ σ₂ _ _ => ?_
    exact (Builder.tidy_store View.solid_null (V.register σ₂ _) fun _ _ => hfrees).tidy
  · exact .throw may (by simp)

@[grind ←] theorem tidy_returnValue {slot : Slot} (may : V.may.Refuses ∨ slot.kind ≠ .array)
    (hfull : slot.kind = .string → V.Full σ slot.register) (ret : Ty) (span : Span) :
    Tidy V σ (returnValue slot ret span) := by
  have hpair {v : Operand} {keep : Option String} {σ' : LowerState} (h : V.Holds .solid σ' v) : V.Has σ' (v, keep) := by
    grind
  unfold returnValue
  split
  · refine tidy_bind (tidy_loadSlot may hfull span) fun v σ₁ _ hv => ?_
    grind
  · split
    · rename_i hkind
      exact .bind (Builder.tidy_loadText (hfull hkind)) fun v _ _ hv => .pure (hpair (V.solid_of_text hv))
    · refine tidy_bind (tidy_loadSlot may hfull span) fun v σ₁ _ hv => tidy_bind (Builder.tidy_asText hv) fun t σ₂ _ ht => ?_
      exact .bind (Builder.tidy_intoOwned ht) fun v _ _ hv => .pure (hpair (V.solid_of_text hv))

theorem tidy_result {info : FuncInfo} (hcalls : V.Calls info.symbol) (hanswers : V.Answers σ info.symbol)
    {values : List Operand} (h : V.Has σ values) :
    TidyFor V σ (build (Builder.call info.symbol values)) fun v σ' => V.Has σ' (callResult info.ret v) := by
  refine (Builder.tidy_invoke hcalls h (by simp)).imp fun v σ' _ hv => ?_
  cases info.ret with
  | int => exact (View.has_lowered_int v).2 hv.1
  | string => exact (View.has_lowered_text (.owned v)).2 (hv.2 (.inr hanswers))

/-- A function is called, and its result is used for something. -/
theorem tidy_answered (may : V.may.Refuses) {info : FuncInfo} (hcalls : V.Calls info.symbol)
    (hanswers : V.Answers σ info.symbol) {args : List Expr} (h : V.Supplies σ (args.flatMap Expr.variables))
    (f : Lowered → Lower Unit) {Q : Unit → LowerState → Prop}
    (hf : ∀ v σ', V.Has σ' v → TidyFor V σ' (f v) Q) : TidyFor V σ (do
      let values ← arguments args info.params
      let value ← build (Builder.call info.symbol values.1)
      build (Builder.releaseAll values.2)
      f (callResult info.ret value)) Q := by
  refine .bind (tidy_arguments may args _ h) fun values σ₁ h₁ hvalues => ?_
  rw [View.has_pair] at hvalues
  refine .bind (tidy_result hcalls (V.answers h₁ hanswers) hvalues.1) fun v σ₂ h₂ hv => ?_
  refine .bind (Builder.tidy_releaseAll (V.has_le h₂ hvalues.2)) fun _ σ₃ h₃ _ => ?_
  exact hf _ σ₃ (V.has_le h₃ hv)

theorem tidy_call (may : V.may.Refuses) (callee : Ident) {args : List Expr} (result : Option Ident)
    (h : V.Supplies σ (args.flatMap Expr.variables)) :
    TidyFor V σ (call callee args result) fun _ σ' => Stored V σ σ' (result.map Ident.name).toList := by
  refine .functionInfo may callee fun info hcalls hanswers => ?_
  dsimp only
  split
  · exact .bind (.throw (Q := fun _ _ => False) may (by simp)) fun _ _ _ h => h.elim
  · cases result with
    | none =>
      refine tidy_answered may hcalls hanswers h (fun v => build (Builder.discard v)) fun v σ' hv => ?_
      exact (Builder.tidy_discard hv).imp fun _ _ _ _ => by simp [Stored]
    | some name =>
      refine .bind (tidy_resultSlot may name) ?_
      rintro slot σ - ⟨rfl, hslot⟩
      refine tidy_answered may hcalls hanswers h (fun v => storeSlot slot v true name) fun v σ' hv => ?_
      refine (tidy_storeSlot (.inl may) hv _ _).imp fun _ _ _ hfull => ?_
      simpa [Stored] using ⟨slot, hslot, hfull⟩

theorem tidy_callWithInts (may : V.may.Refuses) {routine : String} (hcalls : V.Calls routine) {args : List Expr}
    (h : V.Supplies σ (args.flatMap Expr.variables)) : Tidy V σ (callWithInts routine args) := by
  unfold callWithInts
  grind

/-! ## Blocks -/

theorem orderly_startBlock (may : V.may.Branches) {id : BlockId} {label : String} (h : Block.Labels id label) :
    Orderly V σ .ended (startBlock id label) (fun _ _ => True) .isOpen :=
  .bind (.call (.startBlock id label) rfl may h fun _ _ _ h => h) fun _ _ _ _ =>
    .mark (fun _ _ => rfl) ⟨⟨rfl, rfl, rfl, rfl⟩, rfl⟩ trivial

theorem tidy_leave (may : V.may.Branches) (t : Terminator) {id : BlockId} {label : String} (h : Block.Labels id label) :
    TidyFor V σ (do build (Builder.terminate t); startBlock id label) fun _ _ => True :=
  .bind (Builder.orderly_terminate may t) fun _ _ _ _ => orderly_startBlock may h

theorem tidy_openTest (may : V.may.Branches) {cond body rest : String} (hcond : cond ∈ Block.names)
    (hbody : body ∈ Block.names) (hrest : rest ∈ Block.names) :
    TidyFor V σ (openTest cond body rest) fun blocks _ =>
      Block.Labels blocks.body blocks.bodyLabel ∧ Block.Labels blocks.rest blocks.restLabel := by
  refine .bind (Builder.orderly_createBlock may hcond) fun c _ _ hc => ?_
  refine .bind (Builder.orderly_createBlock may hbody) fun b _ _ hb => ?_
  refine .bind (Builder.orderly_createBlock may hrest) fun r _ _ hr => ?_
  refine .bind (Builder.orderly_terminate may _) fun _ _ _ _ => ?_
  exact .bind (orderly_startBlock may hc) fun _ _ _ _ => .pure ⟨hb, hr⟩

theorem tidy_openBody (may : V.may.Refuses) (hbranches : V.may.Branches) (test : Expr) {blocks : TestBlocks}
    (h : Block.Labels blocks.body blocks.bodyLabel) : TidyFor V σ (openBody test blocks) fun _ _ => True :=
  .bind (tidy_condition may (V.supplies hbranches _)) fun _ _ _ _ => tidy_leave hbranches _ h

theorem tidy_deeper : TidyFor V σ deeper fun _ _ => True :=
  .mark (fun _ _ => rfl) ⟨⟨rfl, rfl, rfl, rfl⟩, rfl⟩ trivial

theorem tidy_quit (may : V.may.Branches) {id : BlockId} {label : String} (h : Block.Labels id label) : TidyFor V σ (do
    let _ ← build (Builder.call "exit" [.int 0])
    build Builder.unreachable
    startBlock id label) fun _ _ => True := by
  have hquit : TidyFor V σ (do build (Call.quit id label).run; modify fun s => { s with afterReturn := false }) fun _ _ =>
      True :=
    .bind (.call (.quit id label) rfl may h fun _ _ _ h => h) fun _ _ _ _ =>
      .mark (fun _ _ => rfl) ⟨⟨rfl, rfl, rfl, rfl⟩, rfl⟩ trivial
  have hcalls : build (Call.quit id label).run = (do
      let _ ← build (Builder.call "exit" [.int 0])
      build Builder.unreachable
      build (Builder.startBlock id label)) := rfl
  rw [hcalls] at hquit
  simp only [bind_assoc] at hquit
  exact hquit

theorem tidy_poll (hdraws : V.may.Draws) (hbranches : V.may.Branches) : Tidy V σ poll := by
  refine tidy_bind (Builder.tidy_call (V.calls (by decide) (.inl hdraws)) (by simp)) fun status σ₁ _ _ => ?_
  refine tidy_bind (by grind) fun quit σ₂ _ _ => ?_
  refine .bind (Builder.orderly_createBlock hbranches (by decide)) fun q _ _ hq => ?_
  refine .bind (Builder.orderly_createBlock hbranches (by decide)) fun c _ _ hc => ?_
  refine .bind (Builder.orderly_terminate hbranches _) fun _ _ _ _ => ?_
  exact .bind (orderly_startBlock hbranches hq) fun _ _ _ _ => (tidy_quit hbranches hc).tidy

theorem tidy_window (may : V.may.Refuses) (hdraws : V.may.Draws) {title width height : Expr}
    (h : V.Supplies σ (title.variables ++ (width.variables ++ height.variables))) :
    Tidy V σ (graphics (.window title width height)) := by
  have hcalls : V.Calls "gfx_window" := V.calls (by decide) (.inl hdraws)
  unfold graphics
  refine tidy_bind (tidy_text may (by grind)) fun t σ₁ _ ht => ?_
  grind

theorem tidy_getPixel (may : V.may.Refuses) (hdraws : V.may.Draws) (result : Ident) {x y : Expr}
    (h : V.Supplies σ (x.variables ++ y.variables)) :
    TidyFor V σ (graphics (.getPixel x y result)) fun _ σ' => Stored V σ σ' [result.name] := by
  rw [View.supplies_append] at h
  refine .bind (tidy_resultSlot may result) ?_
  rintro slot σ - ⟨rfl, hslot⟩
  refine .bind (tidy_int may h.1) fun vx σ₁ h₁ hx => .bind (tidy_int may (V.supplies_le h₁ h.2)) fun vy σ₂ h₂ hy => ?_
  refine .bind (Builder.tidy_call (V.calls (by decide) (.inl hdraws)) (by grind)) fun pixel σ₃ _ hpixel => ?_
  refine (tidy_storeSlot (.inl may) (by grind) _ _).imp fun _ _ _ hfull => ?_
  simpa [Stored] using ⟨slot, hslot, hfull⟩

theorem tidy_graphics (may : V.may.Refuses) (hdraws : V.may.Draws) {op : Graphics} (hpoll : op = .poll → V.may.Branches)
    (h : V.Supplies σ (op.arguments.flatMap Expr.variables)) : Tidy V σ (graphics op) := by
  cases op with
  | poll => exact tidy_poll hdraws (hpoll rfl)
  | init | delay | surface | pixel | present | clear | color | line =>
    exact tidy_callWithInts may (V.calls (by decide) (.inl hdraws)) h
  | window => exact tidy_window may hdraws (by simpa [Graphics.arguments] using h)
  | getPixel => exact (tidy_getPixel may hdraws _ (by simpa [Graphics.arguments] using h)).tidy

theorem tidy_ret (may : V.may.Refuses) (hbranches : V.may.Branches) (name : Ident) : Tidy V σ (ret name) := by
  have hdead {σ : LowerState} : Orderly V σ .ended (do
      let dead ← build (Builder.createBlock "return.dead")
      build (Builder.startBlock dead.1 dead.2)
      modify fun s => { s with afterReturn := true }) (fun u σ' => V.Has σ' u) .isOpen := by
    refine .bind (Builder.orderly_createBlock hbranches (by decide)) fun dead _ _ h => ?_
    refine .bind (.call (.startBlock dead.1 dead.2) rfl hbranches h fun _ _ _ h => h) fun _ _ _ _ => ?_
    exact .mark (fun _ _ => rfl) ⟨⟨rfl, rfl, rfl, rfl⟩, rfl⟩ ((View.has_anything ()).2 trivial)
  refine .bind (tidy_slotOf may name) fun slot σ₁ _ _ => .get_bind (fun _ _ => rfl) ?_
  have hfull {σ : LowerState} : slot.kind = .string → V.Full σ slot.register := fun _ => V.full σ _ hbranches
  split
  · refine .bind (tidy_loadSlot (.inl may) hfull _) fun v _ _ hv => .bind (Builder.tidy_asInt hv) fun n _ _ hn => ?_
    exact .bind (Builder.tidy_cast (by simpa using hn)) fun _ _ _ _ =>
      .bind (Builder.orderly_terminate hbranches _) fun _ _ _ _ => hdead
  · exact .bind (tidy_returnValue (.inl may) hfull _ _) fun _ _ _ _ => .bind (tidy_releaseLocals _) fun _ _ _ _ =>
      .bind (Builder.orderly_terminate hbranches _) fun _ _ _ _ => hdead

mutual

/-- **A statement is lowered by calls in order.**  Only one that draws calls drawing routines, and only `free` stores
null. -/
theorem tidy_stmt (hV : V.Whole) : ∀ (s : Stmt) {σ : LowerState}, (s.graphicsUse?.isSome = true → V.may.Draws) →
    (s.frees = true → V.may.Frees) → Tidy V σ (stmt s)
  | .make name value _, _, _, _ => tidy_make hV.refuses hV.declares name (V.supplies hV.branches _)
  | .assign name value _, _, _, _ => (tidy_assign hV.refuses name (V.supplies hV.branches _)).tidy
  | .makeArray name size _, _, _, _ => tidy_makeArray hV.refuses hV.declares name (V.supplies hV.branches _)
  | .assignArray name position value _, _, _, _ =>
    tidy_assignArray hV.refuses name (V.supplies hV.branches _) (V.supplies hV.branches _)
  | .when test body span, _, hdraws, hfrees => by
    rw [stmt_when]
    refine .bind (tidy_openTest hV.branches (by decide) (by decide) (by decide)) fun blocks _ _ hblocks => ?_
    refine .bind (tidy_openBody hV.refuses hV.branches test hblocks.1) fun _ _ _ _ => ?_
    exact .bind (tidy_block hV body hdraws hfrees) fun _ _ _ _ => (tidy_leave hV.branches _ hblocks.2).tidy
  | .loop test body span, _, hdraws, hfrees => by
    rw [stmt_loop]
    refine .bind (tidy_openTest hV.branches (by decide) (by decide) (by decide)) fun blocks _ _ hblocks => ?_
    refine .bind (tidy_openBody hV.refuses hV.branches test hblocks.1) fun _ _ _ _ => .bind tidy_deeper fun _ _ _ _ => ?_
    refine .bind (tidy_block hV body hdraws hfrees) fun _ _ _ _ => ?_
    refine .bind (.mark (Q := fun _ _ => True) (fun _ _ => rfl) ⟨⟨rfl, rfl, rfl, rfl⟩, rfl⟩ trivial) fun _ _ _ _ => ?_
    exact (tidy_leave hV.branches _ hblocks.2).tidy
  | .print value _, _, _, _ => tidy_print hV.refuses (V.supplies hV.branches _)
  | .free name _, _, _, hfrees => tidy_free hV.refuses (hfrees rfl) name
  | .func _ _ _ _, _, _, _ => .pure ((View.has_anything ()).2 trivial)
  | .ret name _, _, _, _ => tidy_ret hV.refuses hV.branches name
  | .call callee args result _, _, _, _ => (tidy_call hV.refuses callee result (V.supplies hV.branches _)).tidy
  | .graphics op _, _, hdraws, _ =>
    tidy_graphics hV.refuses (hdraws rfl) (fun _ => hV.branches) (V.supplies hV.branches _)

theorem tidy_block (hV : V.Whole) : ∀ (l : List Stmt) {σ : LowerState},
    ((Stmt.blockGraphicsUse? l).isSome = true → V.may.Draws) → (Stmt.blockFrees l = true → V.may.Frees) → Tidy V σ (block l)
  | [], _, _, _ => .pure ((View.has_anything ()).2 trivial)
  | s :: rest, _, hdraws, hfrees => by
    refine .bind (tidy_stmt hV s (fun hs => hdraws ?_) fun hs => hfrees ?_) fun _ _ _ _ =>
      tidy_block hV rest (fun hrest => hdraws ?_) fun hrest => hfrees ?_
    · simp [Stmt.blockGraphicsUse?, hs]
    · simp [Stmt.blockFrees, hs]
    · simp [Stmt.blockGraphicsUse?, hrest]
    · simp [Stmt.blockFrees, hrest]

end

/-! ## Routines -/

theorem tidy_bindParams (hV : V.Whole) (names : List Ident) (tys : List Ty) (regs : List Register) :
    ∀ {σ : LowerState}, (∀ r ∈ regs, V.Holds .text σ (.register r)) → Tidy V σ (bindParams names tys regs) := by
  induction names, tys, regs using bindParams.induct with
  | case1 p ps ty tys r rs ih =>
    intro σ h
    obtain ⟨hr, hrs⟩ := List.forall_mem_cons.1 h
    unfold bindParams
    refine .bind (tidy_declareSlot hV.refuses hV.declares p _) fun slot σ₁ h₁ _ => ?_
    refine .bind (tidy_storeSlot (.inl hV.refuses) ?_ _ _) fun _ σ₂ h₂ _ => ih fun r h => V.holds h₂ (V.holds h₁ (hrs r h))
    cases ty with
    | int => exact (View.has_lowered_int _).2 (V.solid_of_text (V.holds h₁ hr))
    | string => exact (View.has_lowered_text _).2 (V.holds h₁ hr)
  | case2 ps tys rs h =>
    intro σ _
    unfold bindParams
    split <;> grind

theorem orderly_implicitReturn (may : V.may.Branches) (ret : Ty) :
    Orderly V σ .isOpen (implicitReturn ret) (fun _ _ => True) .ended := by
  refine .get_bind (fun _ _ => rfl) ?_
  split
  · exact Builder.orderly_terminate may _
  · refine .bind (tidy_releaseLocals none) fun _ _ _ _ => ?_
    cases ret with
    | int => exact Builder.orderly_terminate may _
    | string =>
      refine .bind (Builder.tidy_stringConstant "") fun _ _ _ h => ?_
      exact .bind (Builder.tidy_copyText (V.solid_of_text h)) fun _ _ _ _ => Builder.orderly_terminate may _

theorem orderly_modify (hV : V.Total) {p : Phase} {g : LowerState → LowerState}
    (same : ∀ s b, g { s with builder := b } = { g s with builder := b }) (plain : σ.CallsPlain → (g σ).CallsPlain) :
    Orderly V σ p (modify g : Lower Unit) (fun _ _ => True) p :=
  .modify same (V.bodies hV.bodies (congrArg (·.builder) (same σ σ.builder)) plain) trivial

theorem orderly_finishRoutine (hV : V.Total) :
    Orderly V σ .ended (build Builder.finishRoutine) (fun _ _ => True) .idle :=
  .call .finishRoutine rfl hV.bodies trivial fun _ _ _ h => h

theorem orderly_startRoutine (hV : V.Total) (name : String) (params : List MachineType) (ret : MachineType) :
    Orderly V σ .idle (build (Builder.startRoutine name params ret))
      (fun regs σ' => ∀ r ∈ regs, V.Holds .text σ' (.register r)) .isOpen :=
  .call (.startRoutine name params ret) rfl hV.bodies trivial fun _ _ _ h => h

theorem orderly_register (hV : V.Total) (name : String) (params : List MachineType) (ret : MachineType) :
    Orderly V σ .idle (build (Builder.register name params ret)) (fun _ _ => True) .idle :=
  .call (.register name params ret) rfl hV.bodies trivial fun _ _ _ h => h

theorem orderly_function (hV : V.Total) (sigs : Signatures) (f : FuncDecl)
    (h : (Stmt.blockGraphicsUse? f.body).isSome = true → V.may.Draws) :
    Orderly V σ .idle (function sigs f) (fun _ _ => True) .idle := by
  have hends {σ : LowerState} : Orderly V σ .ended (do build Builder.finishRoutine; leaveFunction) (fun _ _ => True) .idle :=
    .bind (orderly_finishRoutine hV) fun _ _ _ _ => orderly_modify hV (fun _ _ => rfl) fun h => h
  refine .functionInfo hV.refuses f.name fun info _ _ => .bind (orderly_startRoutine hV _ _ _) fun regs σ₁ _ hregs => ?_
  refine .bind (orderly_modify hV (fun _ _ => rfl) fun h => h) fun _ σ₂ h₂ _ => ?_
  refine .bind (tidy_bindParams hV.toWhole _ _ _ fun r hr => V.holds h₂ (hregs r hr)) fun _ σ₃ _ _ => ?_
  refine .bind (tidy_block hV.toWhole f.body h fun _ => hV.frees) fun _ σ₄ _ _ => ?_
  refine .isTerminated (fun s b hb => ?_) (fun hs => ?_) fun hs => ?_
  · simp only [hb]
  · rw [hs]
    exact .bind (orderly_implicitReturn hV.branches info.ret) fun _ _ _ _ => hends
  · rw [hs]
    exact hends

theorem orderly_functions (hV : V.Total) (sigs : Signatures) : ∀ (fs : List FuncDecl) {σ : LowerState},
    (∀ f ∈ fs, (Stmt.blockGraphicsUse? f.body).isSome = true → V.may.Draws) →
    Orderly V σ .idle (functions sigs fs) (fun _ _ => True) .idle
  | [], _, _ => .pure trivial
  | f :: rest, _, h => by
    rw [List.forall_mem_cons] at h
    exact .bind (orderly_function hV sigs f h.1) fun _ _ _ _ => orderly_functions hV sigs rest h.2

theorem orderly_topLevel (hV : V.Total) (p : Program) (h : p.graphicsUse?.isSome = true → V.may.Draws) :
    Orderly V σ .idle (topLevel p) (fun _ _ => True) .idle := by
  refine .bind (orderly_startRoutine hV _ _ _) fun _ _ _ _ => .bind (orderly_modify hV (fun _ _ => rfl) fun h => h)
    fun _ _ _ _ => .bind (tidy_block hV.toWhole p.statements h fun _ => hV.frees) fun _ _ _ _ => ?_
  refine .get_bind (fun _ _ => rfl) ?_
  split <;> exact .bind (Builder.orderly_terminate hV.branches _) fun _ _ _ _ => orderly_finishRoutine hV

theorem draws_symbol (name : String) : External.draws ("fn." ++ name) = false := by
  unfold External.draws
  rw [String.toList_append]
  rfl

theorem orderly_declareFunctions (hV : V.Total) (sigs : Signatures) : ∀ (fs : List FuncDecl) {σ : LowerState},
    Orderly V σ .idle (declareFunctions sigs fs) (fun _ _ => True) .idle
  | [], _ => .pure trivial
  | f :: rest, σ => by
    have hdeclare : Orderly V σ .idle (declareFunction sigs f) (fun _ _ => True) .idle := by
      refine .get_bind (fun _ _ => rfl) ?_
      dsimp only
      split
      · exact .throw hV.refuses (by simp)
      · refine .bind (orderly_register hV _ _ _) fun _ σ₁ _ _ => orderly_modify hV (fun _ _ => rfl) ?_
        intro hs name info hinfo
        simp only [Table.get?_insert] at hinfo
        split at hinfo
        · cases hinfo
          exact draws_symbol _
        · exact hs name info hinfo
    exact .bind hdeclare fun _ _ _ _ => orderly_declareFunctions hV sigs rest

/-- **Lowering calls the builder in order**, once the routines that are defined elsewhere are declared. -/
theorem orderly_bodies (hV : V.Total) (p : Program) (sigs : Signatures)
    (hfunctions : ∀ f ∈ p.functions, (Stmt.blockGraphicsUse? f.body).isSome = true → V.may.Draws)
    (h : p.graphicsUse?.isSome = true → V.may.Draws) : Orderly V σ .idle (do
      declareFunctions sigs p.functions
      functions sigs p.functions
      topLevel p) (fun _ _ => True) .idle :=
  .bind (orderly_declareFunctions hV sigs _) fun _ _ _ _ => .bind (orderly_functions hV sigs _ hfunctions) fun _ _ _ _ =>
    orderly_topLevel hV p h

/-! ## Steps that change the code alone -/

theorem keeps_expr (e : Expr) : Keeps (expr e) := View.keeps fun _ => tidy_expr trivial e (View.supplies trivial _)

theorem keeps_int (e : Expr) : Keeps (int e) := View.keeps fun _ => tidy_int trivial (View.supplies trivial _)

theorem keeps_arguments (args : List Expr) (tys : List Ty) : Keeps (arguments args tys) :=
  View.keeps fun _ => tidy_arguments trivial args tys (View.supplies trivial _)

theorem keeps_storeSlot (slot : Slot) (value : Lowered) (freesPrevious : Bool) (name : Ident) :
    Keeps (storeSlot slot value freesPrevious name) :=
  View.keeps fun _ => tidy_storeSlot (.inl trivial) (fun _ _ => trivial) freesPrevious name

@[grind ←] theorem keeps_startBlock (id : BlockId) (label : String) : Keeps (startBlock id label) :=
  (Keeps.build _).bind fun _ => .modify fun _ => ⟨⟨rfl, rfl, rfl, rfl⟩, rfl⟩

theorem keeps_openTest (cond body rest : String) : Keeps (openTest cond body rest) := by
  unfold openTest
  grind

theorem keeps_openBody (test : Expr) (blocks : TestBlocks) : Keeps (openBody test blocks) := by
  have htest : Keeps (condition test) := View.keeps fun _ => tidy_condition trivial (View.supplies trivial _)
  unfold openBody
  grind

theorem keeps_deeper : Keeps deeper := View.keeps fun _ => tidy_deeper

end Lower

/-- **What every call of the builder keeps holds in the end.** -/
theorem Program.exists_of_calls {p : Program} {sigs : Signatures} {options : LowerOptions} {a : Assembly}
    {I : Builder → Prop} (hI : Builder.Invariant I) (hinitial : I (Lower.initial options).builder)
    (h : p.lower sigs options = .ok a) : ∃ b, I b ∧ a = b.assembly := by
  obtain ⟨withGraphics, s, -, hrun, rfl⟩ := exists_run_of_lower h
  have hV : (View.following hI).Total := ⟨⟨trivial, trivial, trivial⟩, trivial, trivial⟩
  have hprogram : Lower.Gives (Lower.program p sigs withGraphics) (Lower.initial options) fun _ s' => I s'.builder := by
    rw [Lower.program_eq, Lower.openProgram_eq, bind_assoc]
    refine (Lower.gives_externals (fun name sig => hI (.declareExternal name sig)) _ hinitial).bind fun _ s₁ h₁ => ?_
    rw [bind_assoc]
    have hbodies := Lower.orderly_bodies hV p sigs (fun _ _ _ => trivial) (fun _ => trivial) (σ := s₁)
    exact (hbodies.gives h₁).imp fun _ _ h => h.1 h₁
  exact ⟨_, hI .finishRoutine _ (hprogram _ _ hrun), rfl⟩

end QuillLang
