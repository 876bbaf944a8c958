import QuillLang.Proofs.Meaning.Basic
import QuillLang.Typing.Infer
/-!
# Types in programs of numbers

A program without string literals has no texts: whatever inference records in it, of a variable, of a parameter or of a
result, is a number (`Signatures.allInt_infer`).
-/
namespace QuillLang

/-! ## Variables -/

namespace VarTable

def AllInt (t : VarTable) : Prop := ∀ name ty, t.get? name = some ty → ty = .int

variable {t : VarTable}

theorem AllInt.typeOf (h : t.AllInt) (name : String) : t.typeOf name = .int := by
  unfold VarTable.typeOf
  cases hname : t.get? name with
  | none => rfl
  | some ty => exact h name ty hname

theorem AllInt.declare (h : t.AllInt) (name : String) : (t.declare name .int).AllInt := by
  intro other ty hty
  unfold VarTable.declare Table.insertNew at hty
  rw [Table.get?_alter] at hty
  split at hty
  · cases hname : t.get? name with
    | none =>
      rw [hname] at hty
      cases hty
      rfl
    | some old =>
      rw [hname] at hty
      cases hty
      exact h name old hname
  · exact h other ty hty

end VarTable

theorem Expr.infer_of_isNumeric {t : VarTable} (h : t.AllInt) : ∀ e : Expr, e.isNumeric = true → e.infer t = .int
  | .number _ _, _ => rfl
  | .var x _, _ => h.typeOf x
  | .binary op left right _, he => by
    obtain ⟨hleft, hright⟩ := Bool.and_eq_true_iff.1 he
    cases op with
    | add =>
      show (left.infer t).join (right.infer t) = .int
      rw [infer_of_isNumeric h left hleft, infer_of_isNumeric h right hright]
      rfl
    | sub | mul | div | rem | eq | ne | lt | le | gt | ge => rfl
  | .neg _ _, _ | .random _ _ _, _ => rfl
  | .string _ _, he | .index _ _ _, he | .trig _ _ _ _, he => by cases he

mutual

theorem Stmt.allInt_declare : ∀ (s : Stmt) {t : VarTable}, s.isNumeric = true → t.AllInt → (s.declare t).AllInt
  | .make x value _, t, hs, ht => by
    show (VarTable.declare t x.name (value.infer t)).AllInt
    rw [Expr.infer_of_isNumeric ht value hs]
    exact ht.declare x.name
  | .when _ body _, _, hs, ht | .loop _ body _, _, hs, ht =>
    Stmt.allInt_declareAll body (Bool.and_eq_true_iff.1 hs).2 ht
  | .assign _ _ _, _, _, ht | .print _ _, _, _, ht | .free _ _, _, _, ht | .func _ _ _ _, _, _, ht
  | .ret _ _, _, _, ht | .call _ _ _ _, _, _, ht => ht
  | .makeArray _ _ _, _, hs, _ | .assignArray _ _ _ _, _, hs, _ | .graphics _ _, _, hs, _ => by cases hs

theorem Stmt.allInt_declareAll : ∀ (l : List Stmt) {t : VarTable}, Stmt.areNumeric l = true → t.AllInt →
    (Stmt.declareAll t l).AllInt
  | [], _, _, ht => ht
  | s :: rest, _, hl, ht =>
    have h := Bool.and_eq_true_iff.1 hl
    Stmt.allInt_declareAll rest h.2 (Stmt.allInt_declare s h.1 ht)

end

/-! ## Signatures -/

namespace Signatures

structure AllInt (sigs : Signatures) : Prop where
  params : ∀ f tys, sigs.params.get? f = some tys → ∀ ty ∈ tys, ty = .int
  returns : ∀ f ty, sigs.returns.get? f = some ty → ty = .int

variable {sigs : Signatures}

theorem allInt_empty : empty.AllInt where
  params _ _ h := by cases h
  returns _ _ h := by cases h

theorem mergeAt_int : ∀ (tys : List Ty) (i : Nat), (∀ ty ∈ tys, ty = .int) → ∀ ty ∈ Ty.mergeAt tys i .int, ty = .int
  | [], 0, _ => by simp [Ty.mergeAt]
  | [], i + 1, h => by
    have ih := mergeAt_int [] i h
    simpa [Ty.mergeAt] using ih
  | t :: tys, 0, h => by
    have ht := h t List.mem_cons_self
    have htys : ∀ ty ∈ tys, ty = .int := fun ty hty => h ty (List.mem_cons_of_mem _ hty)
    simpa [Ty.mergeAt, ht, Ty.join] using htys
  | t :: tys, i + 1, h => by
    have ht := h t List.mem_cons_self
    have ih := mergeAt_int tys i fun ty hty => h ty (List.mem_cons_of_mem _ hty)
    simpa [Ty.mergeAt, ht] using ih

theorem AllInt.mergeParam (h : sigs.AllInt) (f : String) (i : Nat) : (sigs.mergeParam f i .int).AllInt := by
  refine ⟨fun g tys hg => ?_, h.returns⟩
  unfold Signatures.mergeParam at hg
  rw [Table.get?_alter] at hg
  split at hg
  · cases hg
    refine mergeAt_int _ i ?_
    cases hf : sigs.params.get? f with
    | none => simp
    | some old => exact h.params f old hf
  · exact h.params g tys hg

theorem AllInt.mergeReturn (h : sigs.AllInt) (f : String) : (sigs.mergeReturn f .int).AllInt := by
  refine ⟨h.params, fun g ty hg => ?_⟩
  unfold Signatures.mergeReturn at hg
  rw [Table.get?_alter] at hg
  split at hg
  · cases hf : sigs.returns.get? f with
    | none =>
      rw [hf] at hg
      cases hg
      rfl
    | some old =>
      rw [hf, h.returns f old hf] at hg
      cases hg
      rfl
  · exact h.returns g ty hg

theorem AllInt.paramType (h : sigs.AllInt) (f : String) (i : Nat) : sigs.paramType f i = .int := by
  unfold Signatures.paramType Signatures.recorded?
  cases hf : sigs.params.get? f with
  | none => rfl
  | some tys =>
    cases hi : tys[i]? with
    | none => simp [hi]
    | some ty => simp [hi, h.params f tys hf ty (List.mem_of_getElem? hi)]

theorem AllInt.returnType (h : sigs.AllInt) (f : String) : sigs.returnType f = .int := by
  unfold Signatures.returnType
  cases hf : sigs.returns.get? f with
  | none => rfl
  | some ty => exact h.returns f ty hf

theorem AllInt.paramTypes (h : sigs.AllInt) (f : String) (arity : Nat) : ∀ ty ∈ sigs.paramTypes f arity, ty = .int := by
  intro ty hty
  obtain ⟨i, -, rfl⟩ := List.mem_map.1 hty
  exact h.paramType f i

end Signatures

theorem VarTable.allInt_empty : VarTable.AllInt Table.empty := fun _ _ h => by cases h

theorem VarTable.allInt_ofDeclarations {ds : List (String × Ty)} (h : ∀ d ∈ ds, d.2 = .int) :
    (VarTable.ofDeclarations ds).AllInt := by
  unfold VarTable.ofDeclarations
  refine List.foldlRecOn ds _ VarTable.allInt_empty fun t ht d hd => ?_
  rw [h d hd]
  exact ht.declare d.1

theorem FuncDecl.allInt_paramTable (f : FuncDecl) {sigs : Signatures} (h : sigs.AllInt) : (f.paramTable sigs).AllInt := by
  refine VarTable.allInt_ofDeclarations fun d hd => ?_
  obtain ⟨i, hi, rfl⟩ := List.mem_mapIdx.1 hd
  exact h.paramType _ i

/-! ## Walks -/

structure Walk.AllInt (w : Walk) : Prop where
  vars : w.vars.AllInt
  sigs : w.sigs.AllInt

theorem Walk.AllInt.arguments : ∀ (args : List Expr) {w : Walk}, w.AllInt → args.all Expr.isNumeric = true →
    ∀ (callee : String) (i : Nat), (w.arguments callee i args).AllInt
  | [], _, hw, _, _, _ => hw
  | arg :: rest, w, hw, hargs, callee, i => by
    rw [List.all_cons, Bool.and_eq_true] at hargs
    have hinfer := Expr.infer_of_isNumeric hw.vars arg hargs.1
    have hnext : Walk.AllInt { w with sigs := w.sigs.mergeParam callee i (arg.infer w.vars) } :=
      ⟨hw.vars, by rw [hinfer]; exact hw.sigs.mergeParam callee i⟩
    exact Walk.AllInt.arguments rest hnext hargs.2 callee (i + 1)

mutual

theorem Stmt.allInt_walk (owner : Option String) : ∀ (s : Stmt) {w : Walk}, s.isNumeric = true → w.AllInt →
    (s.walk owner w).AllInt
  | .make x value _, w, hs, hw => by
    refine ⟨?_, hw.sigs⟩
    show (VarTable.declare w.vars x.name (value.infer w.vars)).AllInt
    rw [Expr.infer_of_isNumeric hw.vars value hs]
    exact hw.vars.declare x.name
  | .call callee args _ _, _, hs, hw => hw.arguments args hs callee.name 0
  | .ret x _, w, _, hw => by
    cases owner with
    | none => exact hw
    | some f =>
      refine ⟨hw.vars, ?_⟩
      show (w.sigs.mergeReturn f (w.vars.typeOf x.name)).AllInt
      rw [hw.vars.typeOf x.name]
      exact hw.sigs.mergeReturn f
  | .when _ body _, _, hs, hw | .loop _ body _, _, hs, hw =>
    Stmt.allInt_walkAll owner body (Bool.and_eq_true_iff.1 hs).2 hw
  | .assign _ _ _, _, _, hw | .print _ _, _, _, hw | .free _ _, _, _, hw | .func _ _ _ _, _, _, hw => hw
  | .makeArray _ _ _, _, hs, _ | .assignArray _ _ _ _, _, hs, _ | .graphics _ _, _, hs, _ => by cases hs

theorem Stmt.allInt_walkAll (owner : Option String) : ∀ (l : List Stmt) {w : Walk}, Stmt.areNumeric l = true →
    w.AllInt → (Stmt.walkAll owner w l).AllInt
  | [], _, _, hw => hw
  | s :: rest, _, hl, hw =>
    have h := Bool.and_eq_true_iff.1 hl
    Stmt.allInt_walkAll owner rest h.2 (Stmt.allInt_walk owner s h.1 hw)

end

mutual

theorem Stmt.areNumeric_of_functions {f : FuncDecl} : ∀ s : Stmt, s.isNumeric = true → f ∈ s.functions →
    Stmt.areNumeric f.body = true
  | .func _ _ body _, hs, hf => by
    rcases List.mem_cons.1 hf with rfl | hf
    · exact hs
    · exact Stmt.areNumeric_of_blockFunctions body hs hf
  | .when _ body _, hs, hf | .loop _ body _, hs, hf =>
    Stmt.areNumeric_of_blockFunctions body (Bool.and_eq_true_iff.1 hs).2 hf
  | .make _ _ _, _, hf | .assign _ _ _, _, hf | .makeArray _ _ _, _, hf | .assignArray _ _ _ _, _, hf
  | .print _ _, _, hf | .free _ _, _, hf | .ret _ _, _, hf | .call _ _ _ _, _, hf | .graphics _ _, _, hf => by
    simp [Stmt.functions] at hf

theorem Stmt.areNumeric_of_blockFunctions {f : FuncDecl} : ∀ l : List Stmt, Stmt.areNumeric l = true →
    f ∈ Stmt.blockFunctions l → Stmt.areNumeric f.body = true
  | [], _, hf => by simp [Stmt.blockFunctions] at hf
  | s :: rest, hl, hf => by
    have h := Bool.and_eq_true_iff.1 hl
    rcases List.mem_append.1 hf with hf | hf
    · exact Stmt.areNumeric_of_functions s h.1 hf
    · exact Stmt.areNumeric_of_blockFunctions rest h.2 hf

end

theorem Program.areNumeric_body {p : Program} (hp : p.isNumeric = true) {f : FuncDecl} (hf : f ∈ p.functions) :
    Stmt.areNumeric f.body = true :=
  Stmt.areNumeric_of_blockFunctions p.statements hp hf

namespace Signatures
variable {sigs : Signatures}

theorem AllInt.walkProgram {p : Program} (hp : p.isNumeric = true) (h : sigs.AllInt) : (walkProgram p sigs).AllInt := by
  unfold Signatures.walkProgram
  refine List.foldlRecOn p.functions _ ?_ fun s hs f hf => ?_
  · exact (Stmt.allInt_walkAll none p.statements hp ⟨VarTable.allInt_empty, h⟩).sigs
  · exact (Stmt.allInt_walkAll _ f.body (Program.areNumeric_body hp hf) ⟨f.allInt_paramTable hs, hs⟩).sigs

theorem AllInt.settle {f : Signatures → Signatures} (hf : ∀ s : Signatures, s.AllInt → (f s).AllInt) : ∀ (n : Nat)
    {s : Signatures}, s.AllInt → (settle f n s).AllInt
  | 0, _, hs => hs
  | n + 1, s, hs => by
    unfold Signatures.settle
    split
    · exact hs
    · exact AllInt.settle hf n (hf s hs)

/-- **In a program of numbers every inferred type is that of numbers.** -/
theorem allInt_infer {p : Program} (hp : p.isNumeric = true) : (infer p).AllInt :=
  AllInt.settle (fun _ hs => hs.walkProgram hp) _ allInt_empty

end Signatures

theorem FuncDecl.allInt_scope {f : FuncDecl} {sigs : Signatures} (h : sigs.AllInt) (hf : Stmt.areNumeric f.body = true) :
    (f.scope sigs).AllInt :=
  Stmt.allInt_declareAll f.body hf (f.allInt_paramTable h)

end QuillLang
