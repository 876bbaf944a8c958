import QuillLang.Proofs.Signatures.Order
import Mathlib.Data.List.Forall2
/-!
# What a program asks of its signatures

A body is read in order, with the variables declared so far.  Each argument of a call asks for its type at its position, and
each return of a function for its type as the result.  A table is closed under a program when it meets all that the bodies
ask under the types that the table itself gives the parameters (`Program.Closed`).  A walk over a body merges what the body
asks, one demand after the other (`Stmt.walkAll_eq`), and greater parameters only make it ask for greater types
(`FuncDecl.demands_mono`).
-/
namespace QuillLang

mutual

/-- What a statement of the function `owner`, or of the top level, asks where the variables are `vars`. -/
def Stmt.demands (owner : Option String) (vars : VarTable) : Stmt → List Demand
  | .call callee args _ _ => args.mapIdx fun i arg => ⟨.argument callee.name i, arg.infer vars⟩
  | .ret name _ =>
    match owner with
    | some f => [⟨.result f, vars.typeOf name.name⟩]
    | none => []
  | .when _ body _ | .loop _ body _ => Stmt.demandsAll owner vars body
  | .make _ _ _ | .assign _ _ _ | .makeArray _ _ _ | .assignArray _ _ _ _ | .print _ _ | .free _ _ | .func _ _ _ _
  | .graphics _ _ => []

def Stmt.demandsAll (owner : Option String) (vars : VarTable) : List Stmt → List Demand
  | [] => []
  | s :: rest => s.demands owner vars ++ Stmt.demandsAll owner (s.declare vars) rest

end

def FuncDecl.demands (f : FuncDecl) (sigs : Signatures) : List Demand :=
  Stmt.demandsAll (some f.name.name) (f.paramTable sigs) f.body

namespace Program

def topDemands (p : Program) : List Demand := Stmt.demandsAll none Table.empty p.statements

def demands (p : Program) (sigs : Signatures) : List Demand :=
  p.topDemands ++ p.functions.flatMap (·.demands sigs)

/-- A table that meets all that a program asks under it. -/
def Closed (p : Program) (sigs : Signatures) : Prop := ∀ d ∈ p.demands sigs, sigs.Meets d

theorem closed_iff {p : Program} {sigs : Signatures} :
    p.Closed sigs ↔ (∀ d ∈ p.topDemands, sigs.Meets d) ∧ ∀ f ∈ p.functions, ∀ d ∈ f.demands sigs, sigs.Meets d := by
  simp only [Closed, demands, List.forall_mem_append, List.mem_flatMap]
  exact and_congr_right fun _ => ⟨fun h f hf d hd => h d ⟨f, hf, hd⟩, fun h d ⟨f, hf, hd⟩ => h f hf d hd⟩

end Program

/-! ## A walk merges what is asked -/

theorem Walk.arguments_eq (callee : String) : ∀ (args : List Expr) (w : Walk) (i : Nat), w.arguments callee i args =
    ⟨w.vars, w.sigs.mergeAll (args.mapIdx fun j arg => ⟨.argument callee (i + j), arg.infer w.vars⟩)⟩
  | [], _, _ => rfl
  | arg :: rest, w, i => by
    unfold Walk.arguments
    rw [Walk.arguments_eq callee rest, List.mapIdx_cons]
    have hshift : ∀ j, i + 1 + j = i + (j + 1) := fun j => by omega
    simp only [hshift]
    rfl

mutual

theorem Stmt.walk_eq (owner : Option String) : ∀ (s : Stmt) (vars : VarTable) (sigs : Signatures),
    s.walk owner ⟨vars, sigs⟩ = ⟨s.declare vars, sigs.mergeAll (s.demands owner vars)⟩
  | .call callee args _ _, vars, sigs => by
    have harguments := Walk.arguments_eq callee.name args ⟨vars, sigs⟩ 0
    simp only [Nat.zero_add] at harguments
    exact harguments
  | .ret _ _, _, _ => by cases owner <;> rfl
  | .when _ body _, vars, sigs | .loop _ body _, vars, sigs => Stmt.walkAll_eq owner body vars sigs
  | .make _ _ _, _, _ | .assign _ _ _, _, _ | .makeArray _ _ _, _, _ | .assignArray _ _ _ _, _, _ | .print _ _, _, _
  | .free _ _, _, _ | .func _ _ _ _, _, _ | .graphics _ _, _, _ => rfl

theorem Stmt.walkAll_eq (owner : Option String) : ∀ (l : List Stmt) (vars : VarTable) (sigs : Signatures),
    Stmt.walkAll owner ⟨vars, sigs⟩ l =
      ⟨Stmt.declareAll vars l, sigs.mergeAll (Stmt.demandsAll owner vars l)⟩
  | [], _, _ => rfl
  | s :: rest, vars, sigs => by
    unfold Stmt.walkAll Stmt.declareAll Stmt.demandsAll
    rw [Stmt.walk_eq owner s, Stmt.walkAll_eq owner rest, Signatures.mergeAll_append]

end

/-! ## Greater types -/

/-- The same variables, with no lesser types. -/
def VarTable.Rises (vars vars' : VarTable) : Prop := ∀ x, Option.Rel (· ≤ ·) (vars.get? x) (vars'.get? x)

namespace VarTable.Rises
variable {vars vars' : VarTable}

theorem refl (vars : VarTable) : vars.Rises vars := by
  intro x
  cases vars.get? x with
  | none => exact .none
  | some ty => exact .some (le_refl ty)

theorem typeOf (h : vars.Rises vars') (x : String) : vars.typeOf x ≤ vars'.typeOf x := by
  have hx := h x
  unfold VarTable.typeOf
  generalize vars.get? x = old, vars'.get? x = new at hx ⊢
  cases hx with
  | none => exact le_refl _
  | some hle => exact hle

theorem mem_names (h : vars.Rises vars') {x : String} : x ∈ vars'.names ↔ x ∈ vars.names := by
  have hx := h x
  rw [Table.mem_names, Table.mem_names]
  generalize vars.get? x = old, vars'.get? x = new at hx ⊢
  cases hx <;> simp

theorem declare (h : vars.Rises vars') (x : String) {ty ty' : Ty} (hty : ty ≤ ty') :
    (VarTable.declare vars x ty).Rises (VarTable.declare vars' x ty') := by
  intro y
  simp only [VarTable.declare, Table.get?_insertNew]
  by_cases hyx : y = x
  · -- a name that is there keeps its type on both sides
    have hx := h x
    rw [if_pos hyx, if_pos hyx]
    generalize vars.get? x = old, vars'.get? x = new at hx ⊢
    cases hx with
    | none => exact .some hty
    | some hle => exact .some hle
  · rw [if_neg hyx, if_neg hyx]
    exact h y

theorem declareParams : ∀ (params : List Ident) {vars vars' : VarTable} {g g' : Nat → Ty}, (∀ i, g i ≤ g' i) →
    vars.Rises vars' →
      ((params.mapIdx fun i p => (p.name, g i)).foldl (fun t d => t.declare d.1 d.2) vars).Rises
        ((params.mapIdx fun i p => (p.name, g' i)).foldl (fun t d => t.declare d.1 d.2) vars')
  | [], _, _, _, _, _, h => h
  | p :: params, vars, vars', g, g', hg, h => by
    rw [List.mapIdx_cons, List.mapIdx_cons]
    exact declareParams params (fun i => hg (i + 1)) (h.declare p.name (hg 0))

end VarTable.Rises

theorem Expr.infer_mono {vars vars' : VarTable} (h : vars.Rises vars') : ∀ e : Expr, e.infer vars ≤ e.infer vars'
  | .var x _ => h.typeOf x
  | .binary .add l r _ => Ty.join_le_join (infer_mono h l) (infer_mono h r)
  | .number _ _ | .string _ _ | .index _ _ _ | .neg _ _ | .trig _ _ _ _ | .random _ _ _ | .binary .sub _ _ _
  | .binary .mul _ _ _ | .binary .div _ _ _ | .binary .rem _ _ _ | .binary .eq _ _ _ | .binary .ne _ _ _
  | .binary .lt _ _ _ | .binary .le _ _ _ | .binary .gt _ _ _ | .binary .ge _ _ _ => le_refl _

mutual

theorem Stmt.declare_mono : ∀ (s : Stmt) {vars vars' : VarTable}, vars.Rises vars' →
    (s.declare vars).Rises (s.declare vars')
  | .make x value _, _, _, h => h.declare x.name (value.infer_mono h)
  | .makeArray x _ _, _, _, h => h.declare x.name (le_refl _)
  | .when _ body _, _, _, h | .loop _ body _, _, _, h => Stmt.declareAll_mono body h
  | .assign _ _ _, _, _, h | .assignArray _ _ _ _, _, _, h | .print _ _, _, _, h | .free _ _, _, _, h
  | .func _ _ _ _, _, _, h | .ret _ _, _, _, h | .call _ _ _ _, _, _, h | .graphics _ _, _, _, h => h

theorem Stmt.declareAll_mono : ∀ (l : List Stmt) {vars vars' : VarTable}, vars.Rises vars' →
    (Stmt.declareAll vars l).Rises (Stmt.declareAll vars' l)
  | [], _, _, h => h
  | s :: rest, _, _, h => Stmt.declareAll_mono rest (Stmt.declare_mono s h)

end

/-- **The walk for signatures and the one for scopes leave the same variables.**  Greater types at the start make no type
less, and make no names. -/
theorem Stmt.walkAll_vars (l : List Stmt) (owner : Option String) (vars : VarTable) (sigs : Signatures) :
    (Stmt.walkAll owner ⟨vars, sigs⟩ l).vars = Stmt.declareAll vars l ∧ ∀ vars', vars.Rises vars' →
      (Stmt.declareAll vars l).Rises (Stmt.declareAll vars' l) ∧
      (Stmt.walkAll owner ⟨vars, sigs⟩ l).vars.Rises (Stmt.walkAll owner ⟨vars', sigs⟩ l).vars ∧
      ∀ x, x ∈ (Stmt.declareAll vars' l).names ↔ x ∈ (Stmt.declareAll vars l).names := by
  rw [Stmt.walkAll_eq]
  refine ⟨rfl, fun vars' h => ?_⟩
  have hrises := Stmt.declareAll_mono l h
  rw [Stmt.walkAll_eq]
  exact ⟨hrises, hrises, fun _ => hrises.mem_names⟩

/-- `if x make y x + 1 endif make y 0`: the block decides on the type of `y`. -/
def Stmt.handedDown : List Stmt :=
  let here : Span := ⟨⟨1, 1, 0⟩, ⟨1, 1, 0⟩⟩
  [.when (.var "x" here) [.make ⟨"y", here⟩ (.binary .add (.var "x" here) (.number 1 here) here) here] here,
    .make ⟨"y", here⟩ (.number 0 here) here]

theorem Stmt.handedDown_rises :
    let vars := VarTable.declare Table.empty "x" .int
    let vars' := VarTable.declare Table.empty "x" .string
    (Stmt.walkAll none ⟨vars, .empty⟩ handedDown).vars.Rises (Stmt.walkAll none ⟨vars', .empty⟩ handedDown).vars ∧
      (Stmt.declareAll vars handedDown).typeOf "y" = .int ∧ (Stmt.declareAll vars' handedDown).typeOf "y" = .string := by
  have hrises := (VarTable.Rises.refl Table.empty).declare "x" (.inl rfl : Ty.int ≤ Ty.string)
  exact ⟨((Stmt.walkAll_vars handedDown none _ .empty).2 _ hrises).2.1, by decide, by decide⟩

theorem FuncDecl.paramTable_mono (f : FuncDecl) {s t : Signatures} (h : s ≤ t) : (f.paramTable s).Rises (f.paramTable t) :=
  VarTable.Rises.declareParams f.params (Signatures.paramType_mono h f.name.name) (VarTable.Rises.refl Table.empty)

theorem Demand.under_arguments {vars vars' : VarTable} (h : vars.Rises vars') (callee : String) :
    ∀ (args : List Expr) (i : Nat), List.Forall₂ Demand.Under
      (args.mapIdx fun j arg => ⟨.argument callee (i + j), arg.infer vars⟩)
      (args.mapIdx fun j arg => ⟨.argument callee (i + j), arg.infer vars'⟩)
  | [], _ => .nil
  | arg :: rest, i => by
    have hrest := under_arguments h callee rest (i + 1)
    have hshift : ∀ j, i + 1 + j = i + (j + 1) := fun j => by omega
    simp only [hshift] at hrest
    rw [List.mapIdx_cons, List.mapIdx_cons]
    exact .cons ⟨rfl, arg.infer_mono h⟩ hrest

mutual

theorem Stmt.demands_mono (owner : Option String) : ∀ (s : Stmt) {vars vars' : VarTable}, vars.Rises vars' →
    List.Forall₂ Demand.Under (s.demands owner vars) (s.demands owner vars')
  | .call callee args _ _, _, _, h => by
    have harguments := Demand.under_arguments h callee.name args 0
    simp only [Nat.zero_add] at harguments
    exact harguments
  | .ret x _, _, _, h => by
    cases owner with
    | none => exact .nil
    | some f => exact .cons ⟨rfl, h.typeOf x.name⟩ .nil
  | .when _ body _, _, _, h | .loop _ body _, _, _, h => Stmt.demandsAll_mono owner body h
  | .make _ _ _, _, _, _ | .assign _ _ _, _, _, _ | .makeArray _ _ _, _, _, _ | .assignArray _ _ _ _, _, _, _
  | .print _ _, _, _, _ | .free _ _, _, _, _ | .func _ _ _ _, _, _, _ | .graphics _ _, _, _, _ => .nil

theorem Stmt.demandsAll_mono (owner : Option String) : ∀ (l : List Stmt) {vars vars' : VarTable}, vars.Rises vars' →
    List.Forall₂ Demand.Under (Stmt.demandsAll owner vars l) (Stmt.demandsAll owner vars' l)
  | [], _, _, _ => .nil
  | s :: rest, _, _, h =>
    List.rel_append (Stmt.demands_mono owner s h) (Stmt.demandsAll_mono owner rest (Stmt.declare_mono s h))

end

/-- **Under greater signatures a function asks for greater types, at the same places.** -/
theorem FuncDecl.demands_mono (f : FuncDecl) {s t : Signatures} (h : s ≤ t) :
    List.Forall₂ Demand.Under (f.demands s) (f.demands t) :=
  Stmt.demandsAll_mono _ f.body (f.paramTable_mono h)

end QuillLang
