import QuillLang.Proofs.Points.Walk
import QuillLang.Proofs.Signatures.Demands
import QuillLang.Proofs.WellFormed
/-!
# Slots and types

Types are settled twice.  Inference walks a body and gives each variable the type of its first declaration; lowering gives it
a slot of a kind when it comes to that declaration.  What ties the two together is the table of the walk at the same place:
the variables that have slots are those of this table, with kinds that fit its types (`Lower.Typed`), and what the walk is
still to add is in the scope of the body already (`VarTable.Part`).  Each statement does to the slots what it does to the
table (`Lower.follows_stmt`).
-/
namespace QuillLang

/-! ## Parts of a table -/

namespace VarTable

/-- What a table says of a variable, the other table says too. -/
def Part (t scope : VarTable) : Prop := ∀ x ty, t.get? x = some ty → scope.get? x = some ty

variable {t t' scope : VarTable}

theorem Part.trans (h : t.Part t') (h' : t'.Part scope) : t.Part scope := fun x ty hx => h' x ty (h x ty hx)

theorem typeOf_eq_string_iff {x : String} : t.typeOf x = .string ↔ t.get? x = some .string := by
  unfold typeOf
  cases t.get? x <;> simp

theorem get?_declare (t : VarTable) (x : String) (ty : Ty) : (t.declare x ty).get? x = some ((t.get? x).getD ty) := by
  rw [declare, Table.get?_insertNew, if_pos rfl]

theorem part_declare (t : VarTable) (x : String) (ty : Ty) : t.Part (t.declare x ty) := by
  intro y ty' hy
  rw [declare, Table.get?_insertNew]
  by_cases hyx : y = x
  · subst hyx
    rw [if_pos rfl, hy, Option.getD_some]
  · rw [if_neg hyx, hy]

theorem declare_of_some {x : String} {old : Ty} (h : t.get? x = some old) (ty : Ty) : t.declare x ty = t := by
  apply Table.ext_get?
  intro y
  rw [declare, Table.get?_insertNew]
  by_cases hyx : y = x
  · rw [if_pos hyx, h, hyx, h, Option.getD_some]
  · rw [if_neg hyx]

def declareParams (t : VarTable) (names : List Ident) (tys : List Ty) : VarTable :=
  (names.zip tys).foldl (fun t d => t.declare d.1.name d.2) t

theorem part_declareParams : ∀ (names : List Ident) (tys : List Ty) (t : VarTable), t.Part (t.declareParams names tys)
  | [], _, _ => fun _ _ h => h
  | _ :: _, [], _ => fun _ _ h => h
  | name :: names, ty :: tys, t => (t.part_declare name.name ty).trans (part_declareParams names tys _)

end VarTable

mutual

theorem Stmt.part_declare : ∀ (s : Stmt) (t : VarTable), t.Part (s.declare t)
  | .make x value _, t => VarTable.part_declare t x.name (value.infer t)
  | .makeArray x _ _, t => VarTable.part_declare t x.name .int
  | .when _ body _, t | .loop _ body _, t => Stmt.part_declareAll body t
  | .assign _ _ _, _ | .assignArray _ _ _ _, _ | .print _ _, _ | .free _ _, _ | .func _ _ _ _, _ | .ret _ _, _
  | .call _ _ _ _, _ | .graphics _ _, _ => fun _ _ h => h

theorem Stmt.part_declareAll : ∀ (l : List Stmt) (t : VarTable), t.Part (Stmt.declareAll t l)
  | [], _ => fun _ _ h => h
  | s :: rest, t => (Stmt.part_declare s t).trans (Stmt.part_declareAll rest (s.declare t))

end

theorem FuncDecl.paramTable_eq (f : FuncDecl) (sigs : Signatures) : f.paramTable sigs =
    VarTable.declareParams Table.empty f.params (sigs.paramTypes f.name.name f.params.length) := by
  have hzip : f.params.mapIdx (fun i p => (p.name, sigs.paramType f.name.name i)) =
      (f.params.zip (sigs.paramTypes f.name.name f.params.length)).map fun d => (d.1.name, d.2) := by
    apply List.ext_getElem
    · simp [Signatures.paramTypes]
    · simp [Signatures.paramTypes]
  rw [FuncDecl.paramTable, VarTable.ofDeclarations, hzip, List.foldl_map]
  rfl

/-! ## Values -/

/-- The slots of texts are those of the variables that a table says are texts. -/
def Frame.Agrees (F : Frame) (t : VarTable) : Prop := ∀ slot ∈ F, (slot.kind = .string ↔ t.get? slot.name = some .string)

namespace Builder
variable {b : Builder}

theorem ensures_numberOperator (op : BinaryOp) (lhs rhs : Lowered) :
    Build.Ensures (numberOperator op lhs rhs) b fun v _ => v.isText = false := by
  refine .bind (.any _) fun l _ _ => .bind (.any _) fun r _ _ => ?_
  cases op.operatorClass with
  | arith => exact .bind (.any _) fun _ _ _ => .pure rfl
  | compare => exact .bind (.any _) fun _ _ _ => .pure rfl

theorem ensures_compareTexts (op : CompareOp) (lhs rhs : Lowered) :
    Build.Ensures (compareTexts op lhs rhs) b fun v _ => v.isText = false := by
  refine .bind (.any _) fun l _ _ => .bind (.any _) fun r _ _ => .bind (.any _) fun order _ _ => ?_
  exact .bind (.any _) fun _ _ _ => .bind (.any _) fun _ _ _ => .bind (.any _) fun _ _ _ => .pure rfl

theorem ensures_joinTexts (lhs rhs : Lowered) : Build.Ensures (joinTexts lhs rhs) b fun v _ => v.isText = true :=
  .bind (.any _) fun _ _ _ => .bind (.any _) fun _ _ _ => .bind (.any _) fun _ _ _ => .pure rfl

theorem ensures_binaryOperator (op : BinaryOp) (lhs rhs : Lowered) : Build.Ensures (binaryOperator op lhs rhs) b
    fun v _ => (v.isText = true ↔ op = .add ∧ (lhs.isText = true ∨ rhs.isText = true)) := by
  unfold binaryOperator
  by_cases h : (lhs.isText || rhs.isText) = true
  · rw [if_pos h]
    rw [Bool.or_eq_true] at h
    cases op with
    | add => exact (ensures_joinTexts lhs rhs).mono fun v _ hv => by simp [hv, h]
    | sub | mul | div | rem => exact (ensures_numberOperator _ lhs rhs).mono fun v _ hv => by simp [hv]
    | eq | ne | lt | le | gt | ge => exact (ensures_compareTexts _ lhs rhs).mono fun v _ hv => by simp [hv]
  · rw [if_neg h]
    rw [Bool.or_eq_true] at h
    exact (ensures_numberOperator op lhs rhs).mono fun v _ hv => by simp [hv, h]

end Builder

theorem Ty.join_eq_string_iff {s t : Ty} : s.join t = .string ↔ s = .string ∨ t = .string := by
  cases s <;> simp [join]

theorem Expr.infer_binary (t : VarTable) (op : BinaryOp) (l r : Expr) (span : Span) :
    (Expr.binary op l r span).infer t = .string ↔ op = .add ∧ (l.infer t = .string ∨ r.infer t = .string) := by
  cases op <;> simp [Expr.infer, Ty.join_eq_string_iff]

namespace Lower
variable {σ : LowerState} {t : VarTable}

/-- **The value of an expression is a text exactly when its inferred type is.** -/
theorem gives_isText (e : Expr) : ∀ {σ : LowerState}, σ.frames.current.Agrees t →
    Gives (expr e) σ fun v _ => (v.isText = true ↔ e.infer t = .string) := by
  induction e with
  | number => exact fun _ => .pure (by simp [Lowered.isText, Expr.infer])
  | string => exact fun _ => (Gives.any _).bind fun _ _ _ => .pure (by simp [Lowered.isText, Expr.infer])
  | var name span =>
    intro σ h
    refine (gives_slotOf ⟨name, span⟩).bind fun slot σ' ⟨_, hslot, hname⟩ => ?_
    have hkind := h slot hslot
    rw [show slot.name = name from hname, ← VarTable.typeOf_eq_string_iff] at hkind
    unfold loadSlot Expr.infer
    cases hk : slot.kind with
    | int =>
      have hint : ¬ t.typeOf name = .string := fun hs => by simpa [hk] using hkind.2 hs
      exact (Gives.any _).bind fun _ _ _ => .pure (by simp [Lowered.isText, hint])
    | string => exact (Gives.any _).bind fun _ _ _ => .pure (by simp [Lowered.isText, hkind.1 hk])
    | array => exact .throw _
  | binary op left right span ihl ihr =>
    intro σ h
    refine ((ihl h).and (keeps_expr left σ)).bind fun lhs σ₁ hlhs => ?_
    have h₁ : σ₁.frames.current.Agrees t := by rw [hlhs.2.current]; exact h
    refine (ihr h₁).bind fun rhs σ₂ hrhs => .build ?_
    have hop : Build.Ensures _ σ₂.builder _ := Builder.ensures_binaryOperator op lhs rhs
    rw [hlhs.1, hrhs, ← Expr.infer_binary t op left right span] at hop
    exact hop
  | index =>
    intro σ _
    refine (Gives.any _).bind fun _ _ _ => (Gives.any _).bind fun _ _ _ => (Gives.any _).bind fun _ _ _ => ?_
    exact (Gives.any _).bind fun _ _ _ => (Gives.any _).bind fun _ _ _ => .pure (by simp [Lowered.isText, Expr.infer])
  | neg =>
    intro σ _
    refine (Gives.any _).bind fun _ _ _ => (Gives.any _).bind fun _ _ _ => (Gives.any _).bind fun _ _ _ => ?_
    exact .pure (by simp [Lowered.isText, Expr.infer])
  | trig | random =>
    intro σ _
    refine (Gives.any _).bind fun _ _ _ => (Gives.any _).bind fun _ _ _ => (Gives.any _).bind fun _ _ _ => ?_
    exact (Gives.any _).bind fun _ _ _ => (Gives.any _).bind fun _ _ _ => .pure (by simp [Lowered.isText, Expr.infer])

/-! ## Statements -/

/-- The body begun in the state `σ₀` has come to a place where the walk over it knows the variables `vars`: these are the
ones with slots, and the kinds of the slots fit their types. -/
structure Typed (σ₀ : LowerState) (vars : VarTable) (σ : LowerState) : Prop extends σ₀.Stays σ where
  agrees : σ.frames.current.Agrees vars
  names : ∀ x, (vars.get? x).isSome = (σ.frames.lookup x).isSome

namespace Typed
variable {σ₀ σ σ' : LowerState} {vars scope : VarTable}

theorem kept (h : Typed σ₀ vars σ) (hk : σ.Kept σ') : Typed σ₀ vars σ' where
  toStays := h.toStays.trans hk.toStays
  agrees := by
    rw [hk.current]
    exact h.agrees
  names := by
    rw [hk.frames]
    exact h.names

theorem gives_keeps {α : Type} {x : Lower α} (h : Typed σ₀ vars σ) (hx : Keeps x) : Gives x σ fun _ σ' => Typed σ₀ vars σ' :=
  (hx σ).imp fun _ _ hk => h.kept hk

/-- The scope, of which the table is a part, agrees with the slots as well. -/
theorem agrees_scope (h : Typed σ₀ vars σ) (hpart : vars.Part scope) : σ.frames.current.Agrees scope := by
  intro slot hslot
  rw [h.agrees slot hslot]
  constructor
  · exact hpart slot.name .string
  · intro hscope
    have hname : (σ.frames.lookup slot.name).isSome = true :=
      Option.isSome_iff_exists.2 ⟨slot, SlotTable.lookup_eq_some.2 ⟨hslot, rfl⟩⟩
    rw [← h.names] at hname
    obtain ⟨ty, hty⟩ := Option.isSome_iff_exists.1 hname
    rw [hpart slot.name ty hty] at hscope
    rw [hty, hscope]

theorem gives_declareSlot (h : Typed σ₀ vars σ) (name : Ident) {kind : SlotKind} {ty : Ty}
    (hkind : vars.get? name.name = none → (kind = .string ↔ ty = .string)) :
    Gives (declareSlot name kind) σ fun _ σ' => Typed σ₀ (vars.declare name.name ty) σ' := by
  have hnames := h.names name.name
  unfold declareSlot
  refine .get_bind ?_
  cases hlookup : σ.frames.lookup name.name with
  | some slot =>
    -- the name is in the table, so declaring it again changes nothing
    rw [hlookup] at hnames
    obtain ⟨old, hold⟩ := Option.isSome_iff_exists.1 hnames
    rw [VarTable.declare_of_some hold]
    dsimp only
    split
    · exact .pure h
    · exact .throw _
  | none =>
    rw [hlookup] at hnames
    have hnew : vars.get? name.name = none := Option.isNone_iff_eq_none.1 (by simp [← Option.not_isSome, hnames])
    have hget : ∀ y, (VarTable.declare vars name.name ty).get? y = if y = name.name then some ty else vars.get? y := by
      intro y
      rw [VarTable.declare, Table.get?_insertNew, hnew, Option.getD_none]
    refine ((Keeps.build _) σ).bind fun reg σ₁ h₁ => ((Keeps.build _) σ₁).bind fun _ σ₂ h₂ => ?_
    have h₂ := h.kept (h₁.trans h₂)
    have hlookup₂ : σ₂.frames.lookup name.name = none := by
      have hnone := h₂.names name.name
      rw [hnew] at hnone
      simpa using hnone.symm
    intro v σ' hrun
    cases hrun
    show Typed σ₀ _ { σ₂ with frames := (σ₂.frames.register name.name reg kind).2 }
    refine ⟨⟨h₂.outer, h₂.scopes, h₂.functions, h₂.ret⟩, fun slot hslot => ?_, fun x => ?_⟩
    · rw [hget]
      rcases List.mem_append.1 ((Frames.register_of_none hlookup₂ reg kind).2 ▸ hslot) with hslot | hslot
      · have hother : slot.name ≠ name.name :=
          fun he => SlotTable.notMem_of_lookup hlookup₂ (he ▸ List.mem_map_of_mem hslot)
        rw [if_neg hother]
        exact h₂.agrees slot hslot
      · rw [List.mem_singleton.1 hslot, if_pos rfl, hkind hnew, Option.some.injEq]
    · rw [hget, Frames.lookup_register, Option.isSome_or, ← h₂.names x]
      by_cases hxn : x = name.name
      · simp [hxn]
      · simp [hxn, Ne.symm hxn]

theorem gives_bindParams (names : List Ident) : ∀ (tys : List Ty) (regs : List Register) {vars : VarTable}
    {σ : LowerState}, names.length = tys.length → tys.length = regs.length → Typed σ₀ vars σ →
      Gives (bindParams names tys regs) σ fun _ σ' => Typed σ₀ (vars.declareParams names tys) σ' := by
  induction names with
  | nil =>
    intro tys regs vars σ _ _ h
    unfold bindParams
    exact .pure h
  | cons name names ih =>
    intro tys regs vars σ hnames htys h
    obtain ⟨ty, tys, rfl⟩ := List.exists_cons_of_length_eq_add_one hnames.symm
    obtain ⟨reg, regs, rfl⟩ := List.exists_cons_of_length_eq_add_one htys.symm
    unfold bindParams
    have hkind : SlotKind.ofTy ty = .string ↔ ty = .string := by cases ty <;> simp [SlotKind.ofTy]
    refine (h.gives_declareSlot name fun _ => hkind).bind fun slot σ₁ h₁ => ?_
    refine (h₁.gives_keeps (keeps_storeSlot _ _ _ _)).bind fun _ σ₂ h₂ => ?_
    exact ih tys regs (Nat.succ.inj hnames) (Nat.succ.inj htys) h₂

theorem ofTy_eq_string_iff (h : Typed σ₀ vars σ) {x : String} {ty other : Ty}
    (hpart : (vars.declare x ty).Part σ₀.scopes.current) (hnew : vars.get? x = none) :
    SlotKind.ofTy ((σ.scopes.lookup x).getD other) = .string ↔ ty = .string := by
  have hscope := hpart x ty (by rw [VarTable.get?_declare, hnew, Option.getD_none])
  rw [Scopes.lookup, h.scopes, hscope, Option.getD_some]
  cases ty <;> simp [SlotKind.ofTy]

theorem gives_make (h : Typed σ₀ vars σ) (name : Ident) (value : Expr)
    (hpart : (vars.declare name.name (value.infer vars)).Part σ₀.scopes.current) :
    Gives (make name value) σ fun _ σ' => Typed σ₀ (vars.declare name.name (value.infer vars)) σ' := by
  unfold make
  refine .get_bind ((h.gives_keeps (keeps_expr value)).bind fun v σ₁ h₁ => ?_)
  refine (h₁.gives_declareSlot name fun hnew => h.ofTy_eq_string_iff hpart hnew).bind fun slot σ₂ h₂ => ?_
  exact (h₂.gives_keeps .get).bind fun _ _ h₃ => h₃.gives_keeps (keeps_storeSlot _ _ _ _)

theorem gives_makeArray (h : Typed σ₀ vars σ) (name : Ident) (size : Expr) :
    Gives (makeArray name size) σ fun _ σ' => Typed σ₀ (vars.declare name.name .int) σ' := by
  unfold makeArray
  refine (h.gives_keeps (keeps_int size)).bind fun count σ₁ h₁ => ?_
  refine (h₁.gives_keeps (.build _)).bind fun bytes σ₂ h₂ => (h₂.gives_keeps (.build _)).bind fun buffer σ₃ h₃ => ?_
  have harray : SlotKind.array = .string ↔ Ty.int = .string := by simp
  refine (h₃.gives_declareSlot name fun _ => harray).bind fun slot σ₄ h₄ => ?_
  exact h₄.gives_keeps (by grind)

end Typed

/-- A step that does the same to the variables as a statement does to the table of a walk. -/
def Follows (x : Lower Unit) (declare : VarTable → VarTable) : Prop :=
  ∀ {σ₀ σ : LowerState} {vars : VarTable}, Typed σ₀ vars σ → (declare vars).Part σ₀.scopes.current →
    Gives x σ fun _ σ' => Typed σ₀ (declare vars) σ'

theorem Keeps.follows {x : Lower Unit} (hx : Keeps x) : Follows x id := fun h _ => h.gives_keeps hx

mutual

theorem follows_stmt : ∀ s : Stmt, Follows (stmt s) fun vars => s.declare vars
  | .make name value _, _, _, _, h, hpart => h.gives_make name value hpart
  | .makeArray name size _, _, _, _, h, _ => h.gives_makeArray name size
  | .when test body span, _, _, _, h, hpart => by
    rw [stmt_when]
    refine (h.gives_keeps (keeps_openTest _ _ _)).bind fun blocks σ₁ h₁ => ?_
    refine (h₁.gives_keeps (keeps_openBody test blocks)).bind fun _ σ₂ h₂ => ?_
    refine (follows_block body h₂ hpart).bind fun _ σ₃ h₃ => h₃.gives_keeps ?_
    exact (Keeps.build _).bind fun _ => keeps_startBlock _ _
  | .loop test body span, _, _, _, h, hpart => by
    rw [stmt_loop]
    refine (h.gives_keeps (keeps_openTest _ _ _)).bind fun blocks σ₁ h₁ => ?_
    refine (h₁.gives_keeps (keeps_openBody test blocks)).bind fun _ σ₂ h₂ => ?_
    refine (h₂.gives_keeps keeps_deeper).bind fun _ σ₃ h₃ => ?_
    refine (follows_block body h₃ hpart).bind fun _ σ₄ h₄ => h₄.gives_keeps ?_
    have hmodify : Keeps (modify fun s => { s with loopDepth := s.loopDepth - 1 } : Lower Unit) :=
      .modify fun _ => ⟨⟨rfl, rfl, rfl, rfl⟩, rfl⟩
    exact hmodify.bind fun _ => (Keeps.build _).bind fun _ => keeps_startBlock _ _
  | .assign name value _, _, _, _, h, hpart =>
    (View.keeps fun _ => tidy_assign trivial name (View.supplies trivial _)).follows h hpart
  | .assignArray name position value _, _, _, _, h, hpart => by
    have hkeeps := View.keeps fun σ => tidy_assignArray (σ := σ) trivial name (View.supplies trivial position.variables)
      (View.supplies trivial value.variables)
    exact hkeeps.follows h hpart
  | .print value _, _, _, _, h, hpart => (View.keeps fun _ => tidy_print trivial (View.supplies trivial _)).follows h hpart
  | .free name _, _, _, _, h, hpart => (View.keeps fun _ => tidy_free trivial trivial name).follows h hpart
  | .func _ _ _ _, _, _, _, h, hpart => (Keeps.pure ()).follows h hpart
  | .ret name _, _, _, _, h, hpart => (View.keeps fun _ => tidy_ret trivial trivial name).follows h hpart
  | .call callee args result _, _, _, _, h, hpart =>
    (View.keeps fun _ => tidy_call trivial callee result (View.supplies trivial _)).follows h hpart
  | .graphics op _, _, _, _, h, hpart =>
    (View.keeps fun _ => tidy_graphics trivial trivial (fun _ => trivial) (View.supplies trivial _)).follows h hpart

theorem follows_block : ∀ l : List Stmt, Follows (block l) fun vars => Stmt.declareAll vars l
  | [], _, _, _, h, _ => .pure h
  | s :: rest, _, _, vars, h, hpart => by
    have hfirst : (s.declare vars).Part _ := (Stmt.part_declareAll rest (s.declare vars)).trans hpart
    exact (follows_stmt s h hfirst).bind fun _ _ h₁ => follows_block rest h₁ hpart

end

end Lower
end QuillLang
