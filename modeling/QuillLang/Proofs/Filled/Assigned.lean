import QuillLang.Proofs.Filled.Heads
import QuillLang.Proofs.Points.Types
/-!
# Variables that are assigned before they are read

A text variable is assigned at a place in a body when every way to that place goes through a statement that stores in it.
What is stored in a branch or a loop, which may be skipped, does not count after it.  Where the variables that an expression
reads are assigned, its code reads filled slots alone, and a statement that stores in a variable fills its slot
(`View.covers`).
-/
namespace QuillLang

/-! ## Programs -/

def Expr.texts (scope : VarTable) : Expr → List String
  | .var name _ => if scope.typeOf name = .string then [name] else []
  | .number _ _ | .string _ _ => []
  | .index _ position _ => position.texts scope
  | .neg operand _ => operand.texts scope
  | .binary _ left right _ => left.texts scope ++ right.texts scope
  | .trig _ degrees scale _ => degrees.texts scope ++ scale.texts scope
  | .random seed limit _ => seed.texts scope ++ limit.texts scope

namespace Stmt

def texts (scope : VarTable) : Stmt → List String
  | .ret name _ => if scope.typeOf name.name = .string then [name.name] else []
  | s => s.expressions.flatMap (Expr.texts scope)

def target? : Stmt → Option String
  | .make name _ _ | .assign name _ _ | .call _ _ (some name) _ | .graphics (.getPixel _ _ name) _ => some name.name
  | _ => none

end Stmt

mutual

/-- Are text variables assigned where the block of a statement reads them, if those in `assigned` are before it?  A function
is a body of its own. -/
def Stmt.innerAssignsFirst (scope : VarTable) (assigned : List String) : Stmt → Bool
  | .when _ body _ | .loop _ body _ => Stmt.blockAssignsFirst scope assigned body
  | .make _ _ _ | .assign _ _ _ | .makeArray _ _ _ | .assignArray _ _ _ _ | .print _ _ | .free _ _ | .func _ _ _ _
  | .ret _ _ | .call _ _ _ _ | .graphics _ _ => true

def Stmt.blockAssignsFirst (scope : VarTable) (assigned : List String) : List Stmt → Bool
  | [] => true
  | s :: rest => (s.texts scope).all (· ∈ assigned) && s.innerAssignsFirst scope assigned &&
      Stmt.blockAssignsFirst scope (s.target?.toList ++ assigned) rest

end

/-- Are text variables assigned wherever they are read?  Parameters are from the start. -/
def Program.assignsFirst (p : Program) (sigs : Signatures) : Bool :=
  Stmt.blockAssignsFirst (Stmt.declareAll Table.empty p.statements) [] p.statements &&
    p.functions.all fun f => Stmt.blockAssignsFirst (f.scope sigs) (f.params.map Ident.name) f.body

theorem Expr.mem_texts {scope : VarTable} {x : String} (hx : scope.typeOf x = .string) :
    ∀ e : Expr, x ∈ e.variables → x ∈ e.texts scope
  | .var name _, h => by
    rw [List.mem_singleton.1 h] at hx ⊢
    simp [Expr.texts, hx]
  | .number _ _, h | .string _ _, h => by cases h
  | .index _ position _, h => Expr.mem_texts hx position h
  | .neg operand _, h => Expr.mem_texts hx operand h
  | .binary _ l r _, h | .trig _ l r _, h | .random l r _, h => by
    exact List.mem_append.2 ((List.mem_append.1 h).imp (Expr.mem_texts hx l) (Expr.mem_texts hx r))

/-! ## Steps of lowering -/

open Builder (Call Permit Phase)

namespace LowerState
variable {S : Register → Prop} {scope : VarTable} {σ σ' σ'' : LowerState} {x : String}

def Filled (S : Register → Prop) (σ : LowerState) (x : String) : Prop :=
  ∃ slot, σ.frames.lookup x = some slot ∧ (slot.kind = .string → FilledBy S σ.builder.code slot.register)

structure Grows (σ σ' : LowerState) : Prop where
  builder : σ.builder.Grows σ'.builder
  lookup : ∀ x slot, σ.frames.lookup x = some slot → σ'.frames.lookup x = some slot

/-- Code was added to the open block, and it reads what is filled. -/
structure Covered (S : Register → Prop) (σ σ' : LowerState) : Prop where
  reads : σ.builder.Reads S → σ'.builder.Reads S
  grows : σ.builder.Grows σ'.builder
  signatures : σ'.builder.signatures = σ.builder.signatures
  kept : σ.Kept σ'

theorem Grows.trans (h : σ.Grows σ') (h' : σ'.Grows σ'') : σ.Grows σ'' :=
  ⟨h.builder.trans h'.builder, fun x slot hx => h'.lookup x slot (h.lookup x slot hx)⟩

theorem Filled.grows (h : σ.Filled S x) (hσ : σ.Grows σ') : σ'.Filled S x := by
  obtain ⟨slot, hslot, hfilled⟩ := h
  exact ⟨slot, hσ.lookup x slot hslot, fun hkind => hσ.builder.filledBy (hfilled hkind)⟩

theorem filledBy_of_lookup (hagrees : σ.frames.current.Agrees scope) (hx : scope.typeOf x = .string → σ.Filled S x)
    {slot : Slot} (hslot : σ.frames.lookup x = some slot) (hkind : slot.kind = .string) :
    FilledBy S σ.builder.code slot.register := by
  have htext : scope.typeOf x = .string := by
    have hscope := (hagrees slot (SlotTable.mem_of_lookup hslot)).1 hkind
    rwa [SlotTable.name_of_lookup hslot, ← VarTable.typeOf_eq_string_iff] at hscope
  obtain ⟨slot', hslot', hfilled⟩ := hx htext
  cases hslot.symm.trans hslot'
  exact hfilled hkind

namespace Covered

theorem mark (h : σ.Kept σ') (hb : σ'.builder = σ.builder) : σ.Covered S σ' :=
  ⟨fun hσ => hb ▸ hσ, hb ▸ .refl _, congrArg (·.signatures) hb, h⟩

theorem trans (h : σ.Covered S σ') (h' : σ'.Covered S σ'') : σ.Covered S σ'' :=
  ⟨fun hσ => h'.reads (h.reads hσ), h.grows.trans h'.grows, h'.signatures.trans h.signatures, h.kept.trans h'.kept⟩

theorem lookup (h : σ.Covered S σ') (x : String) : σ'.frames.lookup x = σ.frames.lookup x := by rw [h.kept.frames]

theorem toGrows (h : σ.Covered S σ') : σ.Grows σ' := ⟨h.grows, fun x _ hx => (h.lookup x).trans hx⟩

theorem answers (h : σ.Covered S σ') {callee : String} (hc : σ.builder.Answers callee) : σ'.builder.Answers callee := by
  unfold Builder.Answers
  rw [h.signatures]
  exact hc

theorem able (h : σ.Covered S σ') (hσ : σ.Able) : σ'.Able := by
  refine ⟨h.answers hσ.malloc, fun name info hinfo => ?_⟩
  rw [h.kept.functions] at hinfo
  exact (hσ.functions name info hinfo).imp_right h.answers

end Covered
end LowerState

def Sight.covers (S : Register → Prop) : Sight where
  may := { Permit.all with Branches := False, Declares := False, Bodies := False }
  Fit σ := σ.Able ∧ σ.builder.Reads S
  Le := LowerState.Covered S
  Holds
    | .known, _, _ => True
    | .solid, σ, v => σ.builder.Solid S v
    | .text, σ, v => σ.builder.Solid S v ∧ v ≠ .null
  Full σ s := FilledBy S σ.builder.code s
  Calls _ := True
  Answers σ callee := σ.builder.Answers callee
  Taken _ _ := True

/-- **A call in a block reads what is filled**, if what is handed on by it may be. -/
theorem Builder.Call.covers {α : Type} {S : Register → Prop} (c : Call α) {σ : LowerState} (hσ : (Sight.covers S).Fit σ)
    (hmay : c.Permitted (Sight.covers S).may) (h : c.Sound (Sight.covers S) σ) :
    σ.Covered S (σ.called c) ∧ c.Result (Sight.covers S) σ (c.run.run σ.builder).1 (σ.called c) := by
  obtain ⟨hable, hreads⟩ := hσ
  have hcalled {Q : α → Builder → Prop} (hc : c.run.Covers S σ.builder Q)
      (hsignatures : (c.run.run σ.builder).2.signatures = σ.builder.signatures) : σ.Covered S (σ.called c) :=
    ⟨fun _ => hc.1, hc.2.1, hsignatures, ⟨rfl, rfl, rfl, rfl⟩, rfl⟩
  cases c with
  | store ty v address =>
    have hstore : (emit none (.store ty v address)).Covers S σ.builder _ := covers_emit hreads fun r hr => by
      obtain ⟨rfl, rfl⟩ : ty = .ptr ∧ v = .register r := by simpa [Instr.handsOn] using hr
      exact h.1
    refine ⟨hcalled hstore rfl, ?_⟩
    rintro s rfl rfl hv
    exact .inr ⟨⟨none, .store .ptr v (.register s)⟩, by simp [LowerState.called, Call.run, Builder.store, hstore.2.2],
      by simp [Instr.fills?, hv.2]⟩
  | load ty address =>
    have hload : (emitResult (.load ty address)).Covers S σ.builder _ := covers_emitResult hreads fun _ h => by cases h
    refine ⟨hcalled hload rfl, trivial, fun hne => hload.2.2 fun s hs => ?_, ?_⟩
    · cases hs
      exact absurd rfl hne
    · rintro s rfl hs
      exact ⟨hload.2.2 fun s' hs' => by cases hs'; exact hs, fun h => by cases h⟩
  | compute operation =>
    have hcompute : (emitResult operation).Covers S σ.builder _ := covers_emitResult hreads fun r hr => by
      cases operation <;> simp_all [Instr.handsOn, Sound, Operation.computes]
    refine ⟨hcalled hcompute rfl, hcompute.2.2 fun s hs => ?_⟩
    rw [hs] at h
    cases h.1
  | invoke callee fixed extra =>
    have hargs : callee ≠ "free" → (∀ v ∈ fixed, σ.builder.Solid S v) ∧ ∀ x ∈ extra, σ.builder.Solid S x.2 := by
      intro hne
      have hargs := h.2
      simp only [if_neg hne, List.forall_mem_append, List.forall_mem_map] at hargs
      exact hargs
    have hcall := covers_callVariadic hreads hargs
    have hsignatures : ((callVariadic callee fixed extra).run σ.builder).2.signatures = σ.builder.signatures := by
      simp only [callVariadic, Build.run_bind, Build.run_get]
      split <;> rfl
    refine ⟨hcalled hcall hsignatures, hcall.2.2, fun hanswers => ⟨hcall.2.2, callVariadic_ne_null ?_⟩⟩
    exact hanswers.elim (fun hmalloc => hmalloc ▸ hable.malloc) id
  | stringConstant content =>
    have hsignatures : ((Builder.stringConstant content).run σ.builder).2.signatures = σ.builder.signatures := by
      obtain ⟨name, -, hrun⟩ | ⟨hnone, hrun⟩ := σ.builder.stringConstant_cases content
      · rw [hrun]
      · rw [hrun]
        rfl
    exact ⟨hcalled (covers_stringConstant hreads content) hsignatures, solid_of_ne_register (by simp), by simp⟩
  | terminate | createBlock | startBlock | quit | alloca | initSlot | declareExternal | register | startRoutine
  | finishRoutine => exact hmay.elim

/-- Steps that add to the open block code which reads what is filled when the slots `S` are filled at its head. -/
def View.covers (S : Register → Prop) : View where
  toSight := .covers S
  refl σ := .mark (.refl σ) rfl
  trans h h' := h.trans h'
  fit h hσ := ⟨h.able hσ.1, h.reads hσ.2⟩
  holds {_ _ g _} h hv := by
    cases g with
    | known => trivial
    | solid => exact hv.grows h.grows
    | text => exact ⟨hv.1.grows h.grows, hv.2⟩
  answers h hc := h.answers hc
  taken _ _ := trivial
  ready h hx slot hslot hkind := h.grows.filledBy (hx slot ((h.lookup _).symm.trans hslot) hkind)
  solid_of_text h := h.1
  known_of_solid _ := trivial
  null _ := trivial
  register _ _ := trivial
  literal h _ := Builder.solid_of_ne_register h
  calls _ _ := trivial
  linked hσ hinfo := ⟨trivial, (hσ.1.functions _ _ hinfo).2⟩
  full _ _ h := h.elim
  marks := .mark
  declares _ _ h := h.elim
  bodies h := h.elim
  call c _ hσ hmay h := c.covers hσ hmay h

namespace LowerState
variable {S : Register → Prop} {scope : VarTable} {σ σ' : LowerState}

/-- Where the texts of expressions are filled, their variables can be read. -/
theorem supplies (hagrees : σ.frames.current.Agrees scope) {es : List Expr}
    (hes : ∀ x ∈ es.flatMap (Expr.texts scope), σ.Filled S x) :
    (View.covers S).Supplies σ (es.flatMap Expr.variables) := by
  intro x hx slot hslot hkind
  obtain ⟨e, he, hx⟩ := List.mem_flatMap.1 hx
  exact filledBy_of_lookup hagrees (fun htext => hes x (List.mem_flatMap.2 ⟨e, he, e.mem_texts htext hx⟩)) hslot hkind

theorem Grows.has {α : Type} [Graded α] (h : σ.Grows σ') {a : α} (ha : (View.covers S).Has σ a) :
    (View.covers S).Has σ' a := by
  rintro ⟨g, v⟩ hx
  have hv := ha _ hx
  cases g with
  | known => trivial
  | solid => exact hv.grows h.builder
  | text => exact ⟨hv.1.grows h.builder, hv.2⟩

end LowerState

namespace Lower
variable {S : Register → Prop} {σ : LowerState}

/-- A step that adds code which reads what is filled, and after which the variables `names` are filled. -/
def Fills (S : Register → Prop) (x : Lower Unit) (σ : LowerState) (names : List String) : Prop :=
  Gives x σ fun _ σ' => (View.covers S).Fit σ' ∧ σ.Grows σ' ∧ ∀ y ∈ names, σ'.Filled S y

theorem Fills.after {x : Lower Unit} {σ₁ : LowerState} {names : List String} (h : Fills S x σ₁ names) (hσ : σ.Grows σ₁) :
    Gives x σ₁ fun _ σ' => (View.covers S).Fit σ' ∧ σ.Grows σ' ∧ ∀ y ∈ names, σ'.Filled S y :=
  h.imp fun _ _ h => ⟨h.1, hσ.trans h.2.1, h.2.2⟩

theorem Orderly.covered {α : Type} {p q : Phase} {x : Lower α} {P : α → LowerState → Prop}
    (h : Orderly (View.covers S) σ p x P q) (hσ : (View.covers S).Fit σ) :
    Gives x σ fun a σ' => σ.Covered S σ' ∧ (View.covers S).Fit σ' ∧ P a σ' :=
  (h.gives hσ).imp fun _ _ h => ⟨h.1, (View.covers S).fit h.1 hσ, h.2⟩

theorem Orderly.fills {p q : Phase} {x : Lower Unit} {names : List String}
    (h : Orderly (View.covers S) σ p x (fun _ σ' => Stored (View.covers S) σ σ' names) q) (hσ : (View.covers S).Fit σ) :
    Fills S x σ names := by
  refine (h.covered hσ).imp fun _ σ' ⟨hcovered, hfit, hstored⟩ => ⟨hfit, hcovered.toGrows, fun y hy => ?_⟩
  obtain ⟨slot, hslot, hfull⟩ := hstored y hy
  exact ⟨slot, (hcovered.lookup y).trans hslot, hfull⟩

theorem Orderly.fills_nil {p q : Phase} {x : Lower Unit} {P : Unit → LowerState → Prop}
    (h : Orderly (View.covers S) σ p x P q) (hσ : (View.covers S).Fit σ) : Fills S x σ [] :=
  (h.imp fun _ _ _ _ => by simp [Stored]).fills hσ

theorem fills_storeSlot (hσ : (View.covers S).Fit σ) {value : Lowered} (hvalue : (View.covers S).Has σ value) {slot : Slot}
    {name : Ident} (hslot : σ.frames.lookup name.name = some slot) (freesPrevious : Bool) :
    Fills S (storeSlot slot value freesPrevious name) σ [name.name] := by
  refine ((tidy_storeSlot (.inl trivial) hvalue freesPrevious name).imp fun _ _ _ hfull => ?_).fills hσ
  simpa [Stored] using ⟨slot, hslot, hfull⟩

theorem gives_grows_declareSlot (hσ : (View.covers S).Fit σ) (name : Ident) (kind : SlotKind) :
    Gives (declareSlot name kind) σ fun p σ' =>
      (View.covers S).Fit σ' ∧ σ.Grows σ' ∧ σ'.frames.lookup name.name = some p.1 := by
  have hable := ((tidy_declareSlot trivial trivial name kind).gives (V := View.acts true) hσ.1).imp fun _ _ h =>
    h.1.able hσ.1
  have hreads : Gives (declareSlot name kind) σ fun p σ' =>
      σ'.builder.Reads S ∧ σ.Grows σ' ∧ σ'.frames.lookup name.name = some p.1 := by
    refine .get_bind ?_
    split
    · rename_i slot hslot
      split
      · exact .pure ⟨hσ.2, ⟨.refl _, fun _ _ h => h⟩, hslot⟩
      · exact .throw _
    · rename_i hnone
      intro p σ' hrun
      cases hrun
      obtain ⟨hreads₁, hgrows₁, -⟩ := Builder.covers_alloca hσ.2 kind.machineType
      obtain ⟨hreads₂, hgrows₂, -⟩ := Builder.covers_initSlot hreads₁ kind.machineType (initialValue kind)
        ((Builder.alloca kind.machineType).run σ.builder).1
      refine ⟨hreads₂, ⟨hgrows₁.trans hgrows₂, fun x slot hx => ?_⟩, ?_⟩
      · show (σ.frames.register name.name _ kind).2.lookup x = some slot
        rw [Frames.lookup_register, hx, Option.some_or]
      · show (σ.frames.register name.name _ kind).2.lookup name.name = some (σ.frames.register name.name _ kind).1
        rw [Frames.lookup_register, hnone, (Frames.register_of_none hnone _ kind).1, if_pos rfl, Option.none_or]
  exact (hable.and hreads).imp fun _ _ h => ⟨⟨h.1, h.2.1⟩, h.2.2⟩

theorem fills_make (hσ : (View.covers S).Fit σ) (name : Ident) {value : Expr}
    (he : (View.covers S).Supplies σ value.variables) : Fills S (make name value) σ [name.name] := by
  refine .get_bind (((tidy_expr trivial value he).covered hσ).bind ?_)
  rintro v σ₁ ⟨h₁, hfit₁, hv⟩
  refine (gives_grows_declareSlot hfit₁ name _).bind ?_
  rintro ⟨slot, redeclared⟩ σ₂ ⟨hfit, hgrows, hslot⟩
  refine .get_bind ?_
  exact (fills_storeSlot hfit (hgrows.has hv) hslot _).after (h₁.toGrows.trans hgrows)

theorem fills_makeArray (hσ : (View.covers S).Fit σ) (name : Ident) {size : Expr}
    (he : (View.covers S).Supplies σ size.variables) : Fills S (makeArray name size) σ [] := by
  refine ((tidy_int trivial he).covered hσ).bind ?_
  rintro count σ₁ ⟨h₁, hfit₁, hcount⟩
  refine ((Builder.tidy_intOp ((View.has_operand _).1 hcount) (View.solid_int 8)).covered hfit₁).bind ?_
  rintro bytes σ₂ ⟨h₂, hfit₂, hbytes⟩
  refine ((Builder.tidy_malloc ((View.has_operand _).1 hbytes)).covered hfit₂).bind ?_
  rintro buffer σ₃ ⟨h₃, hfit₃, hbuffer⟩
  refine (gives_grows_declareSlot hfit₃ name .array).bind ?_
  rintro ⟨slot, redeclared⟩ σ₄ ⟨hfit₄, hgrows, -⟩
  have hbuffer₄ : (View.covers S).Holds .text σ₄ buffer := ⟨hbuffer.1.grows hgrows.builder, hbuffer.2⟩
  have hσ₄ : σ.Grows σ₄ := (h₁.trans (h₂.trans h₃)).toGrows.trans hgrows
  refine .get_bind ?_
  split
  · have hstore {σ₅ : LowerState} (h₅ : σ₄.Covered S σ₅) := tidy_storeText ((View.covers S).holds h₅ hbuffer₄) slot
    exact (Orderly.fills_nil (.bind (Builder.tidy_freeSlot _) fun _ _ h₅ _ => hstore h₅) hfit₄).after hσ₄
  · exact ((tidy_storeText hbuffer₄ slot).fills_nil hfit₄).after hσ₄

end Lower
end QuillLang
