import QuillLang.Proofs.Meaning.Code
import QuillLang.Proofs.Sketch.Expr
/-!
# Expressions of numbers

Lowering an expression of numbers emits straight code that computes its value (`Lower.computes_expr`).  Comparisons give one
bit, which is widened where a number is wanted and taken as it is where a test is.
-/
namespace QuillLang

/-! ## Emitting -/

namespace Builder

/-- Code goes into the open block and takes registers up to `n`. -/
def emitted (b : Builder) (is : List Instr) (n : Nat) : Builder :=
  { b with nextRegister := n, block := b.block.map fun k => { k with instrs := k.instrs ++ is } }

theorem emitted_nil (b : Builder) : b.emitted [] b.nextRegister = b := by
  obtain ⟨_, _, _, _, _, block, _, _, _, _, _⟩ := b
  cases block <;> simp [emitted]

@[simp] theorem emitted_emitted (b : Builder) (is js : List Instr) (n k : Nat) :
    (b.emitted is n).emitted js k = b.emitted (is ++ js) k := by
  obtain ⟨_, _, _, _, _, block, _, _, _, _, _⟩ := b
  cases block <;> simp [emitted]

@[simp] theorem nextRegister_emitted (b : Builder) (is : List Instr) (n : Nat) : (b.emitted is n).nextRegister = n := rfl

theorem run_bind {α β : Type} (x : Build Nat α) (f : α → Build Nat β) (b : Builder) :
    (x >>= f).run b = (f (x.run b).1).run (x.run b).2 := rfl

theorem run_emitResult (operation : Operation) (b : Builder) : (emitResult operation).run b =
    (.register ⟨b.nextRegister⟩, b.emitted [⟨some ⟨b.nextRegister⟩, operation⟩] (b.nextRegister + 1)) := rfl

theorem run_callVariadic {b : Builder} {callee : String} {sig : CallSignature} (hsig : b.signatures.get? callee = some sig)
    (hret : sig.ret ≠ .void) (fixed : List Operand) (extra : List (MachineType × Operand)) :
    (callVariadic callee fixed extra).run b = (.register ⟨b.nextRegister⟩,
      b.emitted [⟨some ⟨b.nextRegister⟩, .call callee sig.ret (typeArgs sig.params fixed ++ extra)
        (if sig.isVariadic then some sig.params else none)⟩] (b.nextRegister + 1)) := by
  have hget : (get : Build Nat Builder).run b = (b, b) := rfl
  unfold callVariadic
  rw [run_bind, hget]
  simp only [hsig, Option.getD_some]
  rw [if_neg hret]
  exact run_emitResult _ b

end Builder

namespace LowerState

def emitted (σ : LowerState) (is : List Instr) (n : Nat) : LowerState := { σ with builder := σ.builder.emitted is n }

theorem emitted_nil (σ : LowerState) : σ.emitted [] σ.builder.nextRegister = σ := by
  unfold emitted
  rw [Builder.emitted_nil]

@[simp] theorem emitted_emitted (σ : LowerState) (is js : List Instr) (n k : Nat) :
    (σ.emitted is n).emitted js k = σ.emitted (is ++ js) k := by
  unfold emitted
  rw [Builder.emitted_emitted]

end LowerState

namespace Lowered

/-- A value stands for a number; a bit for one or zero. -/
def Denotes : Lowered → Registers → Int64 → Prop
  | .int o, regs, v => o.Denotes regs (.i64 v)
  | .bool o, regs, v => ∃ b, o.Denotes regs (.i1 b) ∧ v = if b then 1 else 0
  | .text _, _, _ => False

def Below (n : Nat) : Lowered → Prop
  | .int o | .bool o => o.Below n
  | .text _ => False

theorem Denotes.congr {regs regs' : Registers} {v : Int64} {n : Nat} {l : Lowered} (h : l.Denotes regs v)
    (hn : l.Below n) (hregs : ∀ r : Register, r.index < n → regs' r = regs r) : l.Denotes regs' v := by
  cases l with
  | int o => exact Operand.Denotes.congr h hn hregs
  | bool o =>
    obtain ⟨b, hb, hv⟩ := h
    exact ⟨b, hb.congr hn hregs, hv⟩
  | text t => cases h

theorem Below.mono {n n' : Nat} {l : Lowered} (h : l.Below n) (hn : n ≤ n') : l.Below n' := by
  cases l with
  | int o => exact Operand.Below.mono h hn
  | bool o => exact Operand.Below.mono h hn
  | text t => cases h

theorem Below.isText {n : Nat} {l : Lowered} (h : l.Below n) : l.isText = false := by
  cases l with
  | int o => rfl
  | bool o => rfl
  | text t => cases h

end Lowered

/-! ## Operators -/

/-- What an instruction makes of two numbers is what is meant. -/
def ArithOp.Means (op : ArithOp) (x y : Int64) (e : Effect Int64) : Prop :=
  e = .fail .undefined ∨ ∃ v, e = pure v ∧ ∀ w, op.apply w x y = v

theorem ArithOp.means_quotient {op : ArithOp} {divide : Int64 → Int64 → Int64} {x y : Int64}
    (h : ∀ w, undefinedQuotient x y = false → op.apply w x y = divide x y) :
    op.Means x y (BinaryOp.quotient divide x y) := by
  unfold BinaryOp.quotient
  by_cases hxy : y = 0 ∨ (x = Int64.minValue ∧ y = -1)
  · exact .inl (if_pos hxy)
  · refine .inr ⟨divide x y, if_neg hxy, fun w => h w ?_⟩
    unfold undefinedQuotient
    simpa using hxy

theorem CompareOp.holds_toInt (x y : Int64) :
    CompareOp.holds .eq x.toInt y.toInt = decide (x = y) ∧ CompareOp.holds .ne x.toInt y.toInt = decide (x ≠ y) ∧
    CompareOp.holds .slt x.toInt y.toInt = decide (x < y) ∧ CompareOp.holds .sle x.toInt y.toInt = decide (x ≤ y) ∧
    CompareOp.holds .sgt x.toInt y.toInt = decide (y < x) ∧ CompareOp.holds .sge x.toInt y.toInt = decide (y ≤ x) := by
  simp only [CompareOp.holds, Int64.lt_iff_toInt_lt, Int64.le_iff_toInt_le, ← Int64.toInt_inj, ne_eq, bne]
  simp
  rfl

theorem BinaryOp.means (op : BinaryOp) :
    (∃ o, op.operatorClass = .arith o ∧ ∀ x y, o.Means x y (op.value x y)) ∨
      ∃ o, op.operatorClass = .compare o ∧
        ∀ x y, op.value x y = pure (if CompareOp.holds o x.toInt y.toInt then 1 else 0) := by
  have hc := CompareOp.holds_toInt
  cases op with
  | add => exact .inl ⟨.add, rfl, fun x y => .inr ⟨_, rfl, fun _ => rfl⟩⟩
  | sub => exact .inl ⟨.sub, rfl, fun x y => .inr ⟨_, rfl, fun _ => rfl⟩⟩
  | mul => exact .inl ⟨.mul, rfl, fun x y => .inr ⟨_, rfl, fun _ => rfl⟩⟩
  | div => exact .inl ⟨.sdiv, rfl, fun x y => ArithOp.means_quotient fun w h => by simp [ArithOp.apply, h]⟩
  | rem => exact .inl ⟨.srem, rfl, fun x y => ArithOp.means_quotient fun w h => by simp [ArithOp.apply, h]⟩
  | eq => exact .inr ⟨.eq, rfl, fun x y => by simp [value, truth, hc x y]⟩
  | ne => exact .inr ⟨.ne, rfl, fun x y => by simp [value, truth, hc x y]⟩
  | lt => exact .inr ⟨.slt, rfl, fun x y => by simp [value, truth, hc x y]⟩
  | le => exact .inr ⟨.sle, rfl, fun x y => by simp [value, truth, hc x y]⟩
  | gt => exact .inr ⟨.sgt, rfl, fun x y => by simp [value, truth, hc x y]⟩
  | ge => exact .inr ⟨.sge, rfl, fun x y => by simp [value, truth, hc x y]⟩

namespace Code
variable {F : Frame} {n : Nat}

theorem arith {op : ArithOp} {x y : Int64} {e : Effect Int64} (hop : op.Means x y e) (l r : Operand) :
    Code F n (n + 1) (fun regs => l.Denotes regs (.i64 x) ∧ r.Denotes regs (.i64 y))
      [⟨some ⟨n⟩, .arith op .i64 l r⟩] (fun _ => e) fun regs v => regs ⟨n⟩ = some (.i64 v) := by
  refine .result fun a m vars _ hp => ?_
  rcases hop with hxy | ⟨v, hxy, hv⟩
  · exact .inl hxy
  · refine .inr ⟨v, hxy, fun w => ?_⟩
    have hl : m.eval a .i64 l = .ok (.i64 x) := hp.1.eval
    have hr : m.eval a .i64 r = .ok (.i64 y) := hp.2.eval
    simp [Machine.perform, hl, hr, Value.arith, hv, bind, Except.bind]

theorem compare (op : CompareOp) (l r : Operand) (x y : Int64) :
    Code F n (n + 1) (fun regs => l.Denotes regs (.i64 x) ∧ r.Denotes regs (.i64 y))
      [⟨some ⟨n⟩, .compare op .i64 l r⟩] (fun _ => pure (op.holds x.toInt y.toInt))
      fun regs b => regs ⟨n⟩ = some (.i1 b) := by
  refine .result fun a m vars _ hp => .inr ⟨_, rfl, fun w => ?_⟩
  have hl : m.eval a .i64 l = .ok (.i64 x) := hp.1.eval
  have hr : m.eval a .i64 r = .ok (.i64 y) := hp.2.eval
  simp [Machine.perform, hl, hr, Value.compare, bind, Except.bind]

theorem widen (o : Operand) (b : Bool) :
    Code F n (n + 1) (fun regs => o.Denotes regs (.i1 b)) [⟨some ⟨n⟩, .cast .zext o .i1 .i64⟩]
      (fun _ => pure (if b then (1 : Int64) else 0)) fun regs v => regs ⟨n⟩ = some (.i64 v) := by
  refine .result fun a m vars _ hp => .inr ⟨_, rfl, fun w => ?_⟩
  have ho : m.eval a .i1 o = .ok (.i1 b) := hp.eval
  simp [Machine.perform, ho, Value.cast, bind, Except.bind]

theorem narrow (o : Operand) (v : Int64) :
    Code F n (n + 1) (fun regs => o.Denotes regs (.i64 v)) [⟨some ⟨n⟩, .cast .trunc o .i64 .i32⟩]
      (fun _ => pure v) fun regs v => regs ⟨n⟩ = some (.i32 v.toInt32) := by
  refine .result (g := fun v : Int64 => .i32 v.toInt32) fun a m vars _ hp => .inr ⟨_, rfl, fun w => ?_⟩
  have ho : m.eval a .i64 o = .ok (.i64 v) := hp.eval
  simp [Machine.perform, ho, Value.cast, bind, Except.bind]

theorem load {slot : Slot} (hslot : slot ∈ F) :
    Code F n (n + 1) (fun _ => True) [⟨some ⟨n⟩, .load .i64 (.register slot.register)⟩]
      (fun vars => pure (vars slot.name)) fun regs v => regs ⟨n⟩ = some (.i64 v) := by
  refine .result fun a m vars hholds _ => .inr ⟨_, rfl, fun w => ?_⟩
  obtain ⟨hreg, hvalue⟩ := hholds slot hslot
  simp [Machine.perform, Machine.pointer, Machine.eval, Machine.read, hreg, hvalue, Value.type, bind, Except.bind]

end Code

/-! ## Steps of building -/

/-- A step of building emits code that, for each of several conditions on the registers, computes an effect. -/
def Build.Turns {ι α β : Type} (F : Frame) (step : Build Nat β) (b : Builder) (pre : ι → Registers → Prop)
    (x : ι → Effect α) (below : Nat → β → Prop) (post : β → Registers → α → Prop) : Prop :=
  ∃ o is n, step.run b = (o, b.emitted is n) ∧ b.nextRegister ≤ n ∧ below n o ∧
    ∀ i, Code F b.nextRegister n (pre i) is (fun _ => x i) (post o)

def Operand.Number (o : Operand) (regs : Registers) (v : Int64) : Prop := o.Denotes regs (.i64 v)

namespace Builder
variable {F : Frame} {b : Builder}

theorem turns_asInt {l : Lowered} (hl : l.Below b.nextRegister) :
    Build.Turns F (asInt l) b (fun v regs => l.Denotes regs v) pure Operand.Below Operand.Number := by
  cases l with
  | int o => exact ⟨o, [], _, by rw [b.emitted_nil]; rfl, Nat.le_refl _, hl, fun v => .pure fun _ h => h⟩
  | bool o =>
    refine ⟨_, _, _, run_emitResult _ b, Nat.le_succ _, Nat.lt_succ_self _, fun v => ?_⟩
    intro a bound m vars rest hrest hholds hp
    obtain ⟨bit, hbit, rfl⟩ := hp
    exact Code.widen o bit a bound m vars rest hrest hholds hbit
  | text t => cases hl

theorem turns_operatorClass (op : BinaryOp) {l r : Operand} :
    Build.Turns F (match op.operatorClass with
      | .arith o => do return Lowered.int (← intOp o l r)
      | .compare o => do return Lowered.bool (← compare o .i64 l r)) b
      (fun (p : Int64 × Int64) regs => l.Number regs p.1 ∧ r.Number regs p.2) (fun p => op.value p.1 p.2)
      Lowered.Below Lowered.Denotes := by
  rcases op.means with ⟨o, ho, hmeans⟩ | ⟨o, ho, hvalue⟩
  · rw [ho]
    exact ⟨_, _, _, rfl, Nat.le_succ _, Nat.lt_succ_self _, fun p => .arith (hmeans p.1 p.2) l r⟩
  · rw [ho]
    refine ⟨_, _, _, rfl, Nat.le_succ _, Nat.lt_succ_self _, fun p => ?_⟩
    have hcode := (Code.compare (F := F) (n := b.nextRegister) o l r p.1 p.2).map
      (R := Lowered.Denotes (.bool (.register ⟨b.nextRegister⟩))) fun regs c hc => ⟨c, hc, rfl⟩
    have heq : (fun _ : Vars => op.value p.1 p.2) =
        fun _ => pure (o.holds p.1.toInt p.2.toInt) >>= fun c => pure (if c then (1 : Int64) else 0) := by
      funext
      exact hvalue p.1 p.2
    show Code F b.nextRegister (b.nextRegister + 1) _ _ (fun _ => op.value p.1 p.2) _
    rw [heq]
    exact hcode

theorem turns_numberOperator (hF : F.Below b.nextRegister) (op : BinaryOp) {l r : Lowered}
    (hl : l.Below b.nextRegister) (hr : r.Below b.nextRegister) :
    Build.Turns F (numberOperator op l r) b (fun (p : Int64 × Int64) regs => l.Denotes regs p.1 ∧ r.Denotes regs p.2)
      (fun p => op.value p.1 p.2) Lowered.Below Lowered.Denotes := by
  obtain ⟨o₁, is₁, n₁, hrun₁, hn₁, ho₁, hcode₁⟩ := turns_asInt (F := F) hl
  obtain ⟨o₂, is₂, n₂, hrun₂, hn₂, ho₂, hcode₂⟩ := turns_asInt (F := F) (b := b.emitted is₁ n₁) (hr.mono hn₁)
  obtain ⟨o₃, is₃, n₃, hrun₃, hn₃, ho₃, hcode₃⟩ :=
    turns_operatorClass (F := F) (b := (b.emitted is₁ n₁).emitted is₂ n₂) op (l := o₁) (r := o₂)
  have hF₁ : F.Below n₁ := fun x hx => Nat.lt_of_lt_of_le (hF x hx) hn₁
  refine ⟨o₃, is₁ ++ (is₂ ++ is₃), n₃, ?_, Nat.le_trans hn₁ (Nat.le_trans hn₂ hn₃), ho₃, fun p => ?_⟩
  · unfold numberOperator
    rw [Build.run_bind, hrun₁]
    show Build.run (do let r ← asInt r; _) (b.emitted is₁ n₁) = _
    rw [Build.run_bind, hrun₂, ← emitted_emitted, ← emitted_emitted]
    exact hrun₃
  · have h₁ := (hcode₁ p.1).frame (P := fun regs => r.Denotes regs p.2) fun _ _ hregs h => h.congr hr hregs
    refine Code.under (.bind (y := fun x _ => do let y ← pure p.2; op.value x y) hF hn₁ (Nat.le_trans hn₂ hn₃) h₁
      fun x => ?_) fun _ h => h.symm
    have h₂ := (hcode₂ p.2).frame (P := fun regs => o₁.Number regs x) fun _ _ hregs h => h.congr ho₁ hregs
    exact Code.under (.bind (y := fun y _ => op.value x y) hF₁ hn₂ hn₃ h₂ fun y => hcode₃ (x, y)) fun _ h => h.symm

theorem turns_binaryOperator (hF : F.Below b.nextRegister) (op : BinaryOp) {l r : Lowered}
    (hl : l.Below b.nextRegister) (hr : r.Below b.nextRegister) :
    Build.Turns F (binaryOperator op l r) b (fun (p : Int64 × Int64) regs => l.Denotes regs p.1 ∧ r.Denotes regs p.2)
      (fun p => op.value p.1 p.2) Lowered.Below Lowered.Denotes := by
  have heq : binaryOperator op l r = numberOperator op l r := by
    unfold binaryOperator
    rw [hl.isText, hr.isText]
    rfl
  rw [heq]
  exact turns_numberOperator hF op hl hr

theorem turns_negate (o : Operand) :
    Build.Turns F (intOp .sub (.int 0) o) b (fun v regs => o.Number regs v) (fun v => pure (-v)) Operand.Below
      Operand.Number := by
  refine ⟨_, _, _, rfl, Nat.le_succ _, Nat.lt_succ_self _, fun v => ?_⟩
  have hmeans : ArithOp.Means .sub 0 v (pure (-v)) := .inr ⟨-v, rfl, fun _ => by simp [ArithOp.apply]⟩
  exact (Code.arith hmeans (.int 0) o).under fun _ h => ⟨rfl, h⟩

def randomCode (n : Nat) (seed limit : Operand) : List Instr :=
  [⟨some ⟨n⟩, .arith .mul .i64 seed (.int 1103515245)⟩] ++
    ([⟨some ⟨n + 1⟩, .arith .add .i64 (.register ⟨n⟩) (.int 12345)⟩] ++
    ([⟨some ⟨n + 2⟩, .arith .lshr .i64 (.register ⟨n + 1⟩) (.int 16)⟩] ++
    ([⟨some ⟨n + 3⟩, .arith .and .i64 (.register ⟨n + 2⟩) (.int 0x7FFF)⟩] ++
    [⟨some ⟨n + 4⟩, .arith .srem .i64 (.register ⟨n + 3⟩) limit⟩])))

theorem run_random (b : Builder) (seed limit : Operand) : (random seed limit).run b =
    (.register ⟨b.nextRegister + 4⟩, b.emitted (randomCode b.nextRegister seed limit) (b.nextRegister + 5)) := by
  simp only [random, randomCode, intOp, arith, run_bind, run_emitResult, nextRegister_emitted, emitted_emitted,
    List.append_assoc]

theorem turns_random (hF : F.Below b.nextRegister) (seed : Operand) {limit : Operand} (hlimit : limit.Below b.nextRegister) :
    Build.Turns F (random seed limit) b (fun (p : Int64 × Int64) regs => seed.Number regs p.1 ∧ limit.Number regs p.2)
      (fun p => BinaryOp.quotient (· % ·) (randomBits p.1) p.2) Operand.Below Operand.Number := by
  refine ⟨_, _, _, run_random b seed limit, Nat.le_add_right _ 5, Nat.lt_succ_self _, fun p => ?_⟩
  have hbelow : ∀ i, F.Below (b.nextRegister + i) := fun i x hx => Nat.lt_add_right i (hF x hx)
  -- an instruction with a constant leaves the limit alone
  have hconst : ∀ (i : Nat) (op : ArithOp) (x c v : Int64) (o : Operand), op.Means x c (pure v) →
      Code F (b.nextRegister + i) (b.nextRegister + i + 1) (fun regs => limit.Number regs p.2 ∧ o.Number regs x)
        [⟨some ⟨b.nextRegister + i⟩, .arith op .i64 o (.int c)⟩] (fun _ => pure v)
        fun regs v => limit.Number regs p.2 ∧ regs ⟨b.nextRegister + i⟩ = some (.i64 v) := by
    intro i op x c v o hop
    refine ((Code.arith hop o (.int c)).frame (P := fun regs => limit.Number regs p.2) fun _ _ hregs h =>
      h.congr (hlimit.mono (Nat.le_add_right _ i)) hregs).under ?_
    exact fun regs h => ⟨h.1, h.2, rfl⟩
  have hcode : Code F b.nextRegister (b.nextRegister + 5) (fun regs => limit.Number regs p.2 ∧ seed.Number regs p.1)
      (randomCode b.nextRegister seed limit) (fun _ => do
        let x ← pure (p.1 * 1103515245)
        let y ← pure (x + 12345)
        let z ← pure (y.toUInt64 >>> 16).toInt64
        let u ← pure (z &&& 0x7FFF)
        BinaryOp.quotient (· % ·) u p.2)
      (Operand.Number (.register ⟨b.nextRegister + 4⟩)) := by
    have h₀ := hconst 0 .mul p.1 1103515245 (p.1 * 1103515245) seed (.inr ⟨_, rfl, fun _ => rfl⟩)
    refine .bind hF (Nat.le_succ _) (by omega) h₀ fun x => ?_
    have h₁ := hconst 1 .add x 12345 (x + 12345) (.register ⟨b.nextRegister⟩) (.inr ⟨_, rfl, fun _ => rfl⟩)
    refine .bind (hbelow 1) (Nat.le_succ _) (by omega) h₁ fun y => ?_
    have h₂ := hconst 2 .lshr y 16 (y.toUInt64 >>> 16).toInt64 (.register ⟨b.nextRegister + 1⟩)
      (.inr ⟨_, rfl, fun _ => rfl⟩)
    refine .bind (hbelow 2) (Nat.le_succ _) (by omega) h₂ fun z => ?_
    have h₃ := hconst 3 .and z 0x7FFF (z &&& 0x7FFF) (.register ⟨b.nextRegister + 2⟩) (.inr ⟨_, rfl, fun _ => rfl⟩)
    refine .bind (hbelow 3) (Nat.le_succ _) (by omega) h₃ fun u => ?_
    have hmeans : ArithOp.Means .srem u p.2 (BinaryOp.quotient (· % ·) u p.2) :=
      ArithOp.means_quotient fun w h => by simp [ArithOp.apply, h]
    have h₄ := Code.arith (F := F) (n := b.nextRegister + 4) hmeans (.register ⟨b.nextRegister + 3⟩) limit
    exact h₄.under fun _ h => h.symm
  exact hcode.under fun _ h => h.symm

end Builder

/-! ## Steps of lowering -/

namespace LowerState

/-- All variables are numbers, and their slots are numbered below the next register. -/
structure Plain (σ : LowerState) : Prop where
  below : σ.frames.current.Below σ.builder.nextRegister
  kinds : ∀ x ∈ σ.frames.current, x.kind = .int

theorem Plain.emitted {σ : LowerState} (h : σ.Plain) {n : Nat} (hn : σ.builder.nextRegister ≤ n) (is : List Instr) :
    (σ.emitted is n).Plain :=
  ⟨fun x hx => Nat.lt_of_lt_of_le (h.below x hx) hn, h.kinds⟩

end LowerState

namespace Lower
variable {α β γ δ : Type} {σ : LowerState}

/-- A step of lowering does nothing but emit code that computes an effect. -/
def Computes (x : Lower β) (σ : LowerState) (e : Vars → Effect α) (below : Nat → β → Prop)
    (post : β → Registers → α → Prop) : Prop :=
  Gives x σ fun o σ' => ∃ is n, σ' = σ.emitted is n ∧ σ.builder.nextRegister ≤ n ∧ below n o ∧
    Code σ.frames.current σ.builder.nextRegister n (fun _ => True) is e (post o)

/-- What holds of registers below a number goes on to hold when others change. -/
structure Lasts (below : Nat → β → Prop) (post : β → Registers → α → Prop) : Prop where
  mono : ∀ {o n n'}, below n o → n ≤ n' → below n' o
  congr : ∀ {o n v} {regs regs' : Registers}, below n o → (∀ r : Register, r.index < n → regs' r = regs r) →
    post o regs v → post o regs' v

theorem lasts_operand : Lasts Operand.Below Operand.Number :=
  ⟨fun h hn => h.mono hn, fun hn hregs h => Operand.Denotes.congr h hn hregs⟩

theorem lasts_lowered : Lasts Lowered.Below Lowered.Denotes :=
  ⟨fun h hn => h.mono hn, fun hn hregs h => h.congr hn hregs⟩

namespace Computes
variable {x : Lower β} {e : Vars → Effect α} {below : Nat → β → Prop} {post : β → Registers → α → Prop}

theorem turn (hσ : σ.Plain) (h : Computes x σ e below post) {step : β → Build Nat δ} {d : α → Effect γ}
    {below' : Nat → δ → Prop} {post' : δ → Registers → γ → Prop}
    (hstep : ∀ o b, σ.frames.current.Below b.nextRegister → below b.nextRegister o →
      Build.Turns σ.frames.current (step o) b (fun v regs => post o regs v) d below' post') :
    Computes (x >>= fun o => build (step o)) σ (fun vars => e vars >>= d) below' post' := by
  refine h.bind ?_
  rintro o _ ⟨is, n, rfl, hn, hbelow, hcode⟩
  refine .build ?_
  obtain ⟨o', js, n', hrun, hn', hbelow', hcode'⟩ :=
    hstep o (σ.builder.emitted is n) (hσ.emitted hn is).below hbelow
  have hrun' : (step o).run (σ.emitted is n).builder = (o', (σ.builder.emitted is n).emitted js n') := hrun
  rw [hrun']
  refine ⟨is ++ js, n', ?_, Nat.le_trans hn hn', hbelow', .bind hσ.below hn hn' hcode hcode'⟩
  rw [Builder.emitted_emitted]
  rfl

theorem map (h : Computes x σ e below post) {g : β → δ} {k : α → γ} {B : Nat → δ → Prop} {R : δ → Registers → γ → Prop}
    (hB : ∀ {n o}, below n o → B n (g o)) (hR : ∀ {o regs v}, post o regs v → R (g o) regs (k v)) :
    Computes (x >>= fun o => pure (g o)) σ (fun vars => e vars >>= fun v => pure (k v)) B R := by
  refine h.bind ?_
  rintro o σ' ⟨is, n, hσ', hn, hbelow, hcode⟩
  exact .pure ⟨is, n, hσ', hn, hB hbelow, hcode.map fun _ _ hv => hR hv⟩

theorem pair (hσ : σ.Plain) (hlasts : Lasts below post) (hx : Computes x σ e below post) {y : Lower δ}
    {d : Vars → Effect γ} {below' : Nat → δ → Prop} {post' : δ → Registers → γ → Prop}
    (hy : ∀ is n, σ.builder.nextRegister ≤ n → Computes y (σ.emitted is n) d below' post') :
    Computes (do let o ← x; let u ← y; pure (o, u)) σ (fun vars => do let v ← e vars; let w ← d vars; pure (v, w))
      (fun n p => below n p.1 ∧ below' n p.2) (fun p regs v => post p.1 regs v.1 ∧ post' p.2 regs v.2) := by
  refine hx.bind ?_
  rintro o _ ⟨is, n, rfl, hn, hbelow, hcode⟩
  refine (hy is n hn).bind ?_
  rintro u _ ⟨js, n', rfl, hn', hbelow', hcode'⟩
  have hn' : n ≤ n' := hn'
  refine .pure ⟨is ++ js, n', σ.emitted_emitted is js n n', Nat.le_trans hn hn', ⟨hlasts.mono hbelow hn', hbelow'⟩, ?_⟩
  refine .bind hσ.below hn hn' hcode fun v => ?_
  have hframe := hcode'.frame (P := fun regs => post o regs v) fun _ _ hregs h => hlasts.congr hbelow hregs h
  exact .map (hframe.under fun _ h => ⟨h, trivial⟩) fun _ _ h => h

end Computes

/-! ## Expressions -/

theorem computes_loadSlot (hσ : σ.Plain) {slot : Slot} (hslot : slot ∈ σ.frames.current) (span : Span) :
    Computes (loadSlot slot span) σ (fun vars => pure (vars slot.name)) Lowered.Below Lowered.Denotes := by
  unfold loadSlot
  rw [hσ.kinds slot hslot]
  refine Gives.bind (.build (Q := fun o σ' => o = _ ∧ σ' = _) ⟨rfl, rfl⟩) ?_
  rintro _ _ ⟨rfl, rfl⟩
  exact .pure ⟨_, _, rfl, Nat.le_succ _, Nat.lt_succ_self _, .load hslot⟩

theorem computes_var (hσ : σ.Plain) (x : String) (span : Span) :
    Computes (expr (.var x span)) σ (fun vars => pure (vars x)) Lowered.Below Lowered.Denotes := by
  refine (gives_slotOf ⟨x, span⟩).bind ?_
  rintro slot _ ⟨rfl, hslot, hname⟩
  obtain rfl : slot.name = x := hname
  exact computes_loadSlot hσ hslot span

theorem Computes.int (hσ : σ.Plain) {x : Lower Lowered} {e : Vars → Effect Int64}
    (h : Computes x σ e Lowered.Below Lowered.Denotes) :
    Computes (x >>= fun l => build (Builder.asInt l)) σ e Operand.Below Operand.Number := by
  have hturn := h.turn hσ (d := pure) fun l b _ hl => Builder.turns_asInt hl
  have heq : (fun vars => e vars >>= pure) = e := by
    funext vars
    exact bind_pure (e vars)
  rw [heq] at hturn
  exact hturn

theorem Computes.number {x : Lower Operand} {e : Vars → Effect Int64} (h : Computes x σ e Operand.Below Operand.Number) :
    Computes (x >>= fun o => pure (.int o)) σ e Lowered.Below Lowered.Denotes :=
  h.bind fun _ _ ho => .pure ho

/-- **An expression of numbers is lowered to code that computes its value.** -/
theorem computes_expr : ∀ (e : Expr), e.isNumeric = true → ∀ {σ : LowerState}, σ.Plain →
    Computes (expr e) σ (fun vars => e.value vars) Lowered.Below Lowered.Denotes
  | .number v _, _, σ, hσ =>
    .pure ⟨[], _, σ.emitted_nil.symm, Nat.le_refl _, trivial, .pure fun _ _ => rfl⟩
  | .var x span, _, σ, hσ => computes_var hσ x span
  | .binary op left right _, he, σ, hσ => by
    obtain ⟨hleft, hright⟩ := Bool.and_eq_true_iff.1 he
    have hpair := (computes_expr left hleft hσ).pair hσ lasts_lowered fun is n hn =>
      computes_expr right hright (hσ.emitted hn is)
    have hturn := hpair.turn hσ fun p b hF hp => Builder.turns_binaryOperator hF op hp.1 hp.2
    simp only [bind_assoc, pure_bind] at hturn
    exact hturn
  | .neg operand _, he, σ, hσ => by
    have hturn := ((computes_expr operand he hσ).int hσ).turn hσ fun o b _ _ => Builder.turns_negate o
    have hnumber := hturn.number
    simp only [bind_assoc] at hnumber
    exact hnumber
  | .random seed limit _, he, σ, hσ => by
    obtain ⟨hseed, hlimit⟩ := Bool.and_eq_true_iff.1 he
    have hpair := ((computes_expr seed hseed hσ).int hσ).pair hσ lasts_operand fun is n hn =>
      (computes_expr limit hlimit (hσ.emitted hn is)).int (hσ.emitted hn is)
    have hnumber := (hpair.turn hσ fun p b hF hp => Builder.turns_random hF p.1 hp.2).number
    simp only [bind_assoc, pure_bind] at hnumber
    exact hnumber
  | .string _ _, he, _, _ | .index _ _ _, he, _, _ | .trig _ _ _ _, he, _, _ => by cases he

theorem computes_int {e : Expr} (he : e.isNumeric = true) (hσ : σ.Plain) :
    Computes (int e) σ (fun vars => e.value vars) Operand.Below Operand.Number :=
  (computes_expr e he hσ).int hσ

/-! ## Tests -/

def bitOf (l : Lowered) : Build Nat Operand :=
  match l with
  | .bool o => pure o
  | other => do
    let n ← Builder.asInt other
    Builder.compare .ne .i64 n (.int 0)

theorem turns_bitOf {F : Frame} {b : Builder} {l : Lowered} (hl : l.Below b.nextRegister) :
    Build.Turns F (bitOf l) b (fun v regs => l.Denotes regs v) (fun v => pure (decide (v ≠ 0))) Operand.Below
      fun o regs c => o.Denotes regs (.i1 c) := by
  cases l with
  | int o =>
    refine ⟨_, _, _, rfl, Nat.le_succ _, Nat.lt_succ_self _, fun v => ?_⟩
    have hne : CompareOp.holds .ne v.toInt (0 : Int64).toInt = decide (v ≠ 0) := (CompareOp.holds_toInt v 0).2.1
    have hcode := Code.compare (F := F) (n := b.nextRegister) .ne o (.int 0) v 0
    rw [hne] at hcode
    exact hcode.under fun _ h => ⟨h, rfl⟩
  | bool o =>
    refine ⟨o, [], _, by rw [b.emitted_nil]; rfl, Nat.le_refl _, hl, fun v => .pure ?_⟩
    rintro regs ⟨bit, hbit, rfl⟩
    cases bit <;> exact hbit
  | text t => cases hl

theorem computes_condition {e : Expr} (he : e.isNumeric = true) (hσ : σ.Plain) :
    Computes (condition e) σ (fun vars => e.value vars >>= fun v => pure (decide (v ≠ 0))) Operand.Below
      fun o regs c => o.Denotes regs (.i1 c) := by
  have heq : condition e = expr e >>= fun l => build (bitOf l) := by
    unfold condition
    congr 1
    funext l
    cases l <;> rfl
  rw [heq]
  exact (computes_expr e he hσ).turn hσ fun l b _ hl => turns_bitOf hl

/-! ## Arguments -/

/-- Operands stand for numbers, one for one. -/
def Numbers : List Operand → Registers → List Int64 → Prop
  | [], _, [] => True
  | o :: os, regs, v :: vs => o.Number regs v ∧ Numbers os regs vs
  | _, _, _ => False

theorem Numbers.length_eq {regs : Registers} : ∀ {os : List Operand} {vs : List Int64}, Numbers os regs vs →
    os.length = vs.length
  | [], [], _ => rfl
  | _ :: _, _ :: _, h => congrArg Nat.succ (Numbers.length_eq h.2)

theorem Numbers.eval {a : Assembly} {m : Machine} : ∀ {os : List Operand} {vs : List Int64} {tys : List MachineType},
    Numbers os m.running.registers vs → (∀ ty ∈ tys, ty = .i64) →
    ((Builder.typeArgs tys os).mapM fun x => m.eval a x.1 x.2) = .ok (vs.map .i64)
  | [], [], _, _, _ => by
    unfold Builder.typeArgs
    rfl
  | o :: os, v :: vs, tys, h, htys => by
    have ho : m.eval a .i64 o = .ok (.i64 v) := Operand.Denotes.eval h.1
    cases tys with
    | nil =>
      have hrest : ((Builder.typeArgs [] os).mapM fun x => m.eval a x.1 x.2) = .ok (vs.map .i64) := Numbers.eval h.2 htys
      simp [Builder.typeArgs, ho, hrest, bind, Except.bind, pure, Except.pure]
    | cons ty tys =>
      have hrest := Numbers.eval (a := a) h.2 fun ty hty => htys ty (List.mem_cons_of_mem _ hty)
      simp [Builder.typeArgs, htys ty, ho, hrest, bind, Except.bind, pure, Except.pure]

theorem computes_arguments : ∀ (args : List Expr) (tys : List Ty), args.all Expr.isNumeric = true →
    (∀ ty ∈ tys, ty = .int) → args.length = tys.length → ∀ {σ : LowerState}, σ.Plain →
    Computes (arguments args tys) σ (fun vars => Expr.values vars args) (fun _ p => p.1.length = tys.length ∧ p.2 = [])
      (fun p regs vs => Numbers p.1 regs vs)
  | [], [], _, _, _, σ, hσ =>
    .pure ⟨[], _, σ.emitted_nil.symm, Nat.le_refl _, ⟨rfl, rfl⟩, .pure fun _ _ => trivial⟩
  | e :: args, ty :: tys, he, htys, hlen, σ, hσ => by
    obtain rfl : ty = .int := htys ty List.mem_cons_self
    rw [List.all_cons, Bool.and_eq_true] at he
    have hpair := (computes_int he.1 hσ).pair hσ lasts_operand fun is n hn =>
      computes_arguments args tys he.2 (fun ty hty => htys ty (List.mem_cons_of_mem _ hty)) (Nat.succ.inj hlen)
        (hσ.emitted hn is)
    have hmap := hpair.map (g := fun p : Operand × List Operand × List TextHandle => (p.1 :: p.2.1, p.2.2))
      (k := fun v : Int64 × List Int64 => v.1 :: v.2)
      (B := fun _ p => p.1.length = (Ty.int :: tys).length ∧ p.2 = []) (R := fun p regs vs => Numbers p.1 regs vs)
      (fun hb => ⟨congrArg Nat.succ hb.2.1, hb.2.2⟩) fun hp => hp
    simp only [bind_assoc, pure_bind] at hmap
    simp only [int, bind_assoc] at hmap
    exact hmap
  | [], _ :: _, _, _, hlen, _, _ | _ :: _, [], _, _, hlen, _, _ => by cases hlen

end Lower
end QuillLang
