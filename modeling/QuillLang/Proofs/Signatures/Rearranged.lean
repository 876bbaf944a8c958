import QuillLang.Proofs.Signatures.Least
import QuillLang.Proofs.Writing.Basic
/-!
# Programs rearranged

What a program asks of its signatures is the same, up to order, when two calls that stand side by side trade places, and
when a function is declared elsewhere: at the top level, in a block, or inside another function.  The closed tables are then
the same ones, and so is the least of them.
-/
namespace QuillLang

/-! ## Rearrangements -/

namespace Stmt

/-- A block and what it becomes by a change to itself or to one block inside it. -/
inductive Inside (change : List Stmt → List Stmt → Prop) : List Stmt → List Stmt → Prop where
  | here {b b' : List Stmt} (h : change b b') : Inside change b b'
  | later {s : Stmt} {b b' : List Stmt} (h : Inside change b b') : Inside change (s :: b) (s :: b')
  | when {test : Expr} {b b' rest : List Stmt} {span : Span} (h : Inside change b b') :
      Inside change (.when test b span :: rest) (.when test b' span :: rest)
  | loop {test : Expr} {b b' rest : List Stmt} {span : Span} (h : Inside change b b') :
      Inside change (.loop test b span :: rest) (.loop test b' span :: rest)
  | func {name : Ident} {params : List Ident} {b b' rest : List Stmt} {span : Span} (h : Inside change b b') :
      Inside change (.func name params b span :: rest) (.func name params b' span :: rest)

inductive Swap : List Stmt → List Stmt → Prop where
  | calls (callee callee' : Ident) (args args' : List Expr) (result result' : Option Ident) (span span' : Span)
      (rest : List Stmt) :
      Swap (.call callee args result span :: .call callee' args' result' span' :: rest)
        (.call callee' args' result' span' :: .call callee args result span :: rest)

inductive TakeOut (f : FuncDecl) : List Stmt → List Stmt → Prop where
  | declaration (rest : List Stmt) : TakeOut f (.func f.name f.params f.body f.span :: rest) rest

end Stmt

/-- The same program but for spans, for the order of calls that stand side by side, and for where functions are
declared. -/
inductive Program.Rearranged : Program → Program → Prop where
  | respan {p q : Program} (h : p.bare = q.bare) : Rearranged p q
  | swap {p q : Program} (h : Stmt.Inside Stmt.Swap p.statements q.statements) : Rearranged p q
  | move {p q : Program} {f : FuncDecl} {rest : List Stmt} (hp : Stmt.Inside (Stmt.TakeOut f) p.statements rest)
      (hq : Stmt.Inside (Stmt.TakeOut f) q.statements rest) : Rearranged p q
  | trans {p q r : Program} (hpq : Rearranged p q) (hqr : Rearranged q r) : Rearranged p r

/-! ## What a changed block asks -/

/-- One block declares and asks what another does, and the functions in it ask for `more`. -/
structure Stmt.Exceeds (sigs : Signatures) (more : List Demand) (b b' : List Stmt) : Prop where
  declares : ∀ vars, Stmt.declareAll vars b = Stmt.declareAll vars b'
  asks : ∀ owner vars, (Stmt.demandsAll owner vars b).Perm (Stmt.demandsAll owner vars b')
  functions : ((Stmt.blockFunctions b).flatMap (·.demands sigs)).Perm
    (more ++ (Stmt.blockFunctions b').flatMap (·.demands sigs))

namespace Stmt.Exceeds
variable {sigs : Signatures} {more : List Demand} {b b' rest : List Stmt}

theorem later (h : Exceeds sigs more b b') (s : Stmt) : Exceeds sigs more (s :: b) (s :: b') where
  declares vars := h.declares (s.declare vars)
  asks owner vars := (h.asks owner (s.declare vars)).append_left (s.demands owner vars)
  functions := by
    simp only [Stmt.blockFunctions, List.flatMap_append]
    exact (h.functions.append_left _).trans (List.perm_append_comm_assoc _ _ _)

/-- A change inside the block of a test or of a loop, whose statements are read as if they stood outside. -/
theorem block {s s' : Stmt} (h : Exceeds sigs more b b') (hdeclare : ∀ vars, s.declare vars = Stmt.declareAll vars b)
    (hdeclare' : ∀ vars, s'.declare vars = Stmt.declareAll vars b')
    (hasks : ∀ owner vars, s.demands owner vars = Stmt.demandsAll owner vars b)
    (hasks' : ∀ owner vars, s'.demands owner vars = Stmt.demandsAll owner vars b')
    (hfunctions : s.functions = Stmt.blockFunctions b) (hfunctions' : s'.functions = Stmt.blockFunctions b') :
    Exceeds sigs more (s :: rest) (s' :: rest) where
  declares vars := by rw [Stmt.declareAll, Stmt.declareAll, hdeclare, hdeclare', h.declares]
  asks owner vars := by
    rw [Stmt.demandsAll, Stmt.demandsAll, hasks, hasks', hdeclare, hdeclare', h.declares]
    exact (h.asks owner vars).append_right _
  functions := by
    simp only [Stmt.blockFunctions, List.flatMap_append, hfunctions, hfunctions', ← List.append_assoc]
    exact h.functions.append_right _

theorem func (h : Exceeds sigs more b b') (name : Ident) (params : List Ident) (span : Span) :
    Exceeds sigs more (.func name params b span :: rest) (.func name params b' span :: rest) where
  declares _ := rfl
  asks _ _ := .refl _
  functions := by
    -- the function itself asks the same, in another order; the functions declared in it ask for more
    have hself := h.asks (some name.name) (FuncDecl.paramTable ⟨name, params, b, span⟩ sigs)
    have hinside := hself.append h.functions
    simp only [Stmt.blockFunctions, Stmt.functions, List.cons_append, List.flatMap_cons, List.flatMap_append]
    have hall := (hinside.trans (List.perm_append_comm_assoc _ _ _)).append_right
      ((Stmt.blockFunctions rest).flatMap (·.demands sigs))
    simp only [List.append_assoc] at hall
    exact hall

theorem inside {change : List Stmt → List Stmt → Prop} (hchange : ∀ b b', change b b' → Exceeds sigs more b b') :
    ∀ {b b' : List Stmt}, Inside change b b' → Exceeds sigs more b b'
  | _, _, .here h => hchange _ _ h
  | _, _, .later h => (inside hchange h).later _
  | _, _, .when h | _, _, .loop h =>
    (inside hchange h).block (fun _ => rfl) (fun _ => rfl) (fun _ _ => rfl) (fun _ _ => rfl) rfl rfl
  | _, _, .func h => (inside hchange h).func _ _ _

theorem of_swap : ∀ b b', Swap b b' → Exceeds sigs [] b b'
  | _, _, .calls _ _ _ _ _ _ _ _ _ => ⟨fun _ => rfl, fun _ _ => List.perm_append_comm_assoc _ _ _, .refl _⟩

theorem of_takeOut {f : FuncDecl} : ∀ b b', TakeOut f b b' →
    Exceeds sigs (f.demands sigs ++ (Stmt.blockFunctions f.body).flatMap (·.demands sigs)) b b'
  | _, _, .declaration rest => by
    refine ⟨fun _ => rfl, fun _ _ => .refl _, ?_⟩
    simp only [Stmt.blockFunctions, Stmt.functions, List.cons_append, List.flatMap_cons, List.flatMap_append,
      List.append_assoc]
    exact .refl _

end Stmt.Exceeds

/-! ## Spans are not read -/

theorem Expr.infer_bare (vars : VarTable) : ∀ e : Expr, e.bare.infer vars = e.infer vars
  | .binary .add l r _ => by rw [bare, infer, infer, infer_bare vars l, infer_bare vars r]
  | .var _ _ | .number _ _ | .string _ _ | .index _ _ _ | .neg _ _ | .trig _ _ _ _ | .random _ _ _ | .binary .sub _ _ _
  | .binary .mul _ _ _ | .binary .div _ _ _ | .binary .rem _ _ _ | .binary .eq _ _ _ | .binary .ne _ _ _
  | .binary .lt _ _ _ | .binary .le _ _ _ | .binary .gt _ _ _ | .binary .ge _ _ _ => rfl

mutual

theorem Stmt.declare_bare : ∀ (s : Stmt) (vars : VarTable), s.bare.declare vars = s.declare vars
  | .make x value _, vars => by
    rw [Stmt.bare, Stmt.declare, Stmt.declare, Expr.infer_bare]
    rfl
  | .when _ body _, vars | .loop _ body _, vars => Stmt.declareAll_bareAll body vars
  | .makeArray _ _ _, _ | .assign _ _ _, _ | .assignArray _ _ _ _, _ | .print _ _, _ | .free _ _, _ | .func _ _ _ _, _
  | .ret _ _, _ | .call _ _ _ _, _ | .graphics _ _, _ => rfl

theorem Stmt.declareAll_bareAll : ∀ (l : List Stmt) (vars : VarTable),
    Stmt.declareAll vars (Stmt.bareAll l) = Stmt.declareAll vars l
  | [], _ => rfl
  | s :: rest, vars => by
    rw [Stmt.bareAll, Stmt.declareAll, Stmt.declareAll, Stmt.declare_bare s, Stmt.declareAll_bareAll rest]

end

mutual

theorem Stmt.demands_bare (owner : Option String) : ∀ (s : Stmt) (vars : VarTable),
    s.bare.demands owner vars = s.demands owner vars
  | .call _ args _ _, vars => by
    simp only [Stmt.bare, Stmt.demands, List.mapIdx_eq_zipIdx_map, List.zipIdx_map, List.map_map]
    apply List.map_congr_left
    intro arg _
    exact congrArg (Demand.mk _) (Expr.infer_bare vars arg.1)
  | .ret _ _, _ => by cases owner <;> rfl
  | .when _ body _, vars | .loop _ body _, vars => Stmt.demandsAll_bareAll owner body vars
  | .make _ _ _, _ | .assign _ _ _, _ | .makeArray _ _ _, _ | .assignArray _ _ _ _, _ | .print _ _, _ | .free _ _, _
  | .func _ _ _ _, _ | .graphics _ _, _ => rfl

theorem Stmt.demandsAll_bareAll (owner : Option String) : ∀ (l : List Stmt) (vars : VarTable),
    Stmt.demandsAll owner vars (Stmt.bareAll l) = Stmt.demandsAll owner vars l
  | [], _ => rfl
  | s :: rest, vars => by
    rw [Stmt.bareAll, Stmt.demandsAll, Stmt.demandsAll, Stmt.demands_bare owner s, Stmt.declare_bare s,
      Stmt.demandsAll_bareAll owner rest]

end

theorem FuncDecl.demands_bareAll (sigs : Signatures) (name : Ident) (params : List Ident) (body : List Stmt)
    (span span' : Span) : FuncDecl.demands ⟨name.bare, params.map Ident.bare, Stmt.bareAll body, span⟩ sigs =
      FuncDecl.demands ⟨name, params, body, span'⟩ sigs := by
  have hparams : FuncDecl.paramTable ⟨name.bare, params.map Ident.bare, Stmt.bareAll body, span⟩ sigs =
      FuncDecl.paramTable ⟨name, params, body, span'⟩ sigs := by
    simp only [FuncDecl.paramTable, List.mapIdx_eq_zipIdx_map, List.zipIdx_map, List.map_map]
    rfl
  rw [FuncDecl.demands, hparams, Stmt.demandsAll_bareAll]
  rfl

mutual

theorem Stmt.functions_bare (sigs : Signatures) : ∀ s : Stmt,
    s.bare.functions.flatMap (·.demands sigs) = s.functions.flatMap (·.demands sigs)
  | .func name params body span => by
    rw [Stmt.bare, Stmt.functions, Stmt.functions, List.flatMap_cons, List.flatMap_cons,
      Stmt.blockFunctions_bareAll sigs body, FuncDecl.demands_bareAll]
  | .when _ body _ | .loop _ body _ => Stmt.blockFunctions_bareAll sigs body
  | .make _ _ _ | .assign _ _ _ | .makeArray _ _ _ | .assignArray _ _ _ _ | .print _ _ | .free _ _ | .ret _ _
  | .call _ _ _ _ | .graphics _ _ => rfl

theorem Stmt.blockFunctions_bareAll (sigs : Signatures) : ∀ l : List Stmt,
    (Stmt.blockFunctions (Stmt.bareAll l)).flatMap (·.demands sigs) = (Stmt.blockFunctions l).flatMap (·.demands sigs)
  | [] => rfl
  | s :: rest => by
    rw [Stmt.bareAll, Stmt.blockFunctions, Stmt.blockFunctions, List.flatMap_append, List.flatMap_append,
      Stmt.functions_bare sigs s, Stmt.blockFunctions_bareAll sigs rest]

end

theorem Program.demands_bare (p : Program) (sigs : Signatures) : p.bare.demands sigs = p.demands sigs := by
  have htop := Stmt.demandsAll_bareAll none p.statements Table.empty
  have hfunctions := Stmt.blockFunctions_bareAll sigs p.statements
  rw [demands, demands, topDemands, topDemands, functions, functions, bare, htop, hfunctions]

/-! ## The same signatures -/

namespace Program
variable {p q : Program}

theorem demands_perm {sigs : Signatures} {more : List Demand} {rest : List Stmt}
    (h : Stmt.Exceeds sigs more p.statements rest) :
    (p.demands sigs).Perm
      (Stmt.demandsAll none Table.empty rest ++ (more ++ (Stmt.blockFunctions rest).flatMap (·.demands sigs))) :=
  (h.asks none Table.empty).append h.functions

/-- **A rearranged program asks for the same.** -/
theorem Rearranged.demands_perm (h : p.Rearranged q) (sigs : Signatures) : (p.demands sigs).Perm (q.demands sigs) := by
  induction h with
  | @respan p q h => rw [← p.demands_bare, ← q.demands_bare, h]
  | swap h => exact Program.demands_perm (Stmt.Exceeds.inside Stmt.Exceeds.of_swap h)
  | move hp hq =>
    have hp : Stmt.Exceeds sigs _ _ _ := Stmt.Exceeds.inside Stmt.Exceeds.of_takeOut hp
    have hq : Stmt.Exceeds sigs _ _ _ := Stmt.Exceeds.inside Stmt.Exceeds.of_takeOut hq
    exact (Program.demands_perm hp).trans (Program.demands_perm hq).symm
  | trans _ _ ihpq ihqr => exact ihpq.trans ihqr

theorem Rearranged.closed_iff (h : p.Rearranged q) (sigs : Signatures) : p.Closed sigs ↔ q.Closed sigs := by
  unfold Closed
  exact forall_congr' fun d => imp_congr_left (h.demands_perm sigs).mem_iff

end Program

theorem Signatures.infer_of_rearranged {p q : Program} (h : p.Rearranged q) : infer q = infer p := by
  have hsame : {s | p.Closed s} = {s | q.Closed s} := Set.ext fun s => h.closed_iff s
  have hp := infer_isLeast p
  rw [hsame] at hp
  exact (infer_isLeast q).unique hp

end QuillLang
