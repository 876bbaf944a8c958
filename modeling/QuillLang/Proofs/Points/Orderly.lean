import QuillLang.Proofs.Points.Basic
import QuillLang.Proofs.Ssa
/-!
# Calls in order

Of all that lowering knows, most steps change the code alone: the slots, the scopes, the functions and the type to be
returned stay as they are.  Only a declaration gives a variable a slot.

The code is changed by calls of the builder.  It is between routines, or a block is open, or the open block has its
terminator, and it takes any call at any time.  `Lower.Orderly` says that a step of lowering is made of calls that come when
their time has come: first a routine, then code, then a terminator, then another block or the end of the routine.  Apart from
these calls, the step does not see the builder.

What a step does to the code, to the slots or to what is known of the operands in hand are questions about the same calls.
Each of them is a `View`: it says what may be handed to a call and what holds after it.  A step is walked through once, for
all views, and what a view says of the calls holds of the step (`Lower.Orderly.gives`).
-/
namespace QuillLang

/-- All but the slots of the body at hand, the code and the place in it is the same. -/
structure LowerState.Stays (σ σ' : LowerState) : Prop where
  outer : σ'.frames.outer = σ.frames.outer
  scopes : σ'.scopes = σ.scopes
  functions : σ'.functions = σ.functions
  ret : σ'.ret = σ.ret

/-- All but the code and the place in it is the same. -/
structure LowerState.Kept (σ σ' : LowerState) : Prop extends σ.Stays σ' where
  current : σ'.frames.current = σ.frames.current

namespace LowerState
variable {σ σ' σ'' : LowerState}

theorem Stays.refl (σ : LowerState) : σ.Stays σ := ⟨rfl, rfl, rfl, rfl⟩

theorem Stays.trans (h : σ.Stays σ') (h' : σ'.Stays σ'') : σ.Stays σ'' :=
  ⟨h'.outer.trans h.outer, h'.scopes.trans h.scopes, h'.functions.trans h.functions, h'.ret.trans h.ret⟩

theorem Kept.refl (σ : LowerState) : σ.Kept σ := ⟨.refl σ, rfl⟩

theorem Kept.trans (h : σ.Kept σ') (h' : σ'.Kept σ'') : σ.Kept σ'' :=
  ⟨h.toStays.trans h'.toStays, h'.current.trans h.current⟩

theorem Kept.frames (h : σ.Kept σ') : σ'.frames = σ.frames := by
  have htable : σ'.frames.table = σ.frames.table := SlotTable.ext_slots h.current
  show Frames.mk σ'.frames.table σ'.frames.outer = σ.frames
  rw [htable, h.outer]

end LowerState

namespace Lower
variable {α β : Type}

def Keeps (x : Lower α) : Prop := ∀ σ, Gives x σ fun _ σ' => σ.Kept σ'

namespace Keeps
variable {x : Lower α} {f : α → Lower β}

@[grind ←] theorem pure (a : α) : Keeps (Pure.pure a) := fun σ => .pure (.refl σ)

@[grind ←] theorem bind (hx : Keeps x) (hf : ∀ a, Keeps (f a)) : Keeps (x >>= f) :=
  fun σ => (hx σ).bind fun a σ₁ h => (hf a σ₁).imp fun _ _ h' => h.trans h'

@[grind ←] theorem build (step : Build Nat α) : Keeps (build step) := fun _ => .build ⟨⟨rfl, rfl, rfl, rfl⟩, rfl⟩

@[grind ←] theorem get : Keeps (get : Lower LowerState) := by
  intro σ v σ' hrun
  cases hrun
  exact .refl σ

theorem modify {g : LowerState → LowerState} (h : ∀ σ : LowerState, σ.Kept (g σ)) : Keeps (modify g : Lower Unit) :=
  fun σ => .modify (h σ)

end Keeps

end Lower

/-! ## Calls -/

namespace Block

def names : List String :=
  ["if.cond", "if.then", "if.end", "while.cond", "while.body", "while.end", "return.dead", "poll.quit", "poll.continue"]

def Labels (id : BlockId) (label : String) : Prop := ∃ name ∈ names, label = name ++ "." ++ Decimal.ofNat id.index

end Block

/-- Does the operation do nothing but compute a value from its operands? -/
def Operation.computes : Operation → Bool
  | .element _ _ _ | .arith _ _ _ _ | .compare _ _ _ _ | .cast _ _ _ _ => true
  | .alloca _ | .load _ _ | .store _ _ _ | .call _ _ _ _ => false

namespace Builder

/-- What the builder can be called for, by the answer. -/
inductive Call : Type → Type where
  | store (ty : MachineType) (value address : Operand) : Call Unit
  | load (ty : MachineType) (address : Operand) : Call Operand
  | compute (operation : Operation) : Call Operand
  | invoke (callee : String) (fixed : List Operand) (extra : List (MachineType × Operand)) : Call Operand
  | terminate (t : Terminator) : Call Unit
  | createBlock (name : String) : Call (BlockId × String)
  | startBlock (id : BlockId) (label : String) : Call Unit
  /-- Leave the program here, and go on in another block. -/
  | quit (id : BlockId) (label : String) : Call Unit
  | alloca (ty : MachineType) : Call Register
  | initSlot (kind : SlotKind) (slot : Register) : Call Unit
  | stringConstant (content : String) : Call String
  | declareExternal (name : String) (sig : CallSignature) : Call Unit
  | register (name : String) (params : List MachineType) (ret : MachineType) : Call Unit
  | startRoutine (name : String) (params : List MachineType) (ret : MachineType) : Call (List Register)
  | finishRoutine : Call Unit

inductive Phase where
  | idle
  | isOpen
  | ended
  deriving DecidableEq

/-- What a step may do. -/
structure Permit where
  /-- Call drawing routines. -/
  Draws : Prop
  /-- Store null where a text was. -/
  Frees : Prop
  /-- Refuse the program. -/
  Refuses : Prop
  /-- End blocks and begin others. -/
  Branches : Prop
  /-- Give slots to variables. -/
  Declares : Prop
  /-- Begin and end bodies. -/
  Bodies : Prop

def Permit.all : Permit := ⟨True, True, True, True, True, True⟩

namespace Call
variable {α : Type}

def run : Call α → Build Nat α
  | store ty value address => Builder.store ty value address
  | load ty address => Builder.load ty address
  | compute operation => Builder.emitResult operation
  | invoke callee fixed extra => Builder.callVariadic callee fixed extra
  | terminate t => Builder.terminate t
  | createBlock name => Builder.createBlock name
  | startBlock id label => Builder.startBlock id label
  | quit id label => do
    let _ ← Builder.call "exit" [.int 0]
    Builder.unreachable
    Builder.startBlock id label
  | alloca ty => Builder.alloca ty
  | initSlot kind slot => Builder.initSlot kind.machineType (Lower.initialValue kind) slot
  | stringConstant content => Builder.stringConstant content
  | declareExternal name sig => Builder.declareExternal name sig
  | register name params ret => Builder.register name params ret
  | startRoutine name params ret => Builder.startRoutine name params ret
  | finishRoutine => Builder.finishRoutine

/-- The phase that a call leads to if it is in place.  What is defined elsewhere is declared before. -/
def next? (p : Phase) : Call α → Option Phase
  | store _ _ _ | load _ _ | compute _ | invoke _ _ _ | quit _ _ => if p = .isOpen then some .isOpen else none
  | terminate _ => if p = .isOpen then some .ended else none
  | startRoutine _ _ _ => if p = .idle then some .isOpen else none
  | finishRoutine => if p = .ended then some .idle else none
  | startBlock _ _ => if p = .ended then some .isOpen else none
  | declareExternal _ _ => none
  | createBlock _ | alloca _ | initSlot _ _ | stringConstant _ | register _ _ _ => some p

def Permitted (m : Permit) : Call α → Prop
  | terminate _ | createBlock _ | startBlock _ _ | quit _ _ => m.Branches
  | alloca _ | initSlot _ _ => m.Declares
  | register _ _ _ | startRoutine _ _ _ | finishRoutine => m.Bodies
  | declareExternal _ _ => False
  | store _ _ _ | load _ _ | compute _ | invoke _ _ _ | stringConstant _ => True

end Call
end Builder

open Builder (Call Permit Phase)

def LowerState.called {α : Type} (σ : LowerState) (c : Call α) : LowerState :=
  { σ with builder := (c.run.run σ.builder).2 }

@[grind =] def External.draws (name : String) : Bool := "gfx_".toList.isPrefixOf name.toList

/-- No function of the program is called by the name of a drawing routine. -/
def LowerState.CallsPlain (s : LowerState) : Prop :=
  ∀ name info, s.functions.get? name = some info → External.draws info.symbol = false

/-! ## Views -/

/-- What an operand is good for. -/
inductive Grade where
  /-- To compute with. -/
  | known
  /-- To be handed on. -/
  | solid
  /-- To be read as a text. -/
  | text

/-- What is looked at along a run: which states come after which, and what is known of the operands in them. -/
structure Sight where
  may : Permit
  /-- Steps begin in such states. -/
  Fit : LowerState → Prop
  Le : LowerState → LowerState → Prop
  Holds : Grade → LowerState → Operand → Prop
  /-- The slot has a text. -/
  Full : LowerState → Register → Prop
  Calls : String → Prop
  /-- The routine has a result. -/
  Answers : LowerState → String → Prop
  /-- The register can be a slot. -/
  Taken : LowerState → Register → Prop

/-- If the variable is a text, its slot has one. -/
def Sight.Ready (V : Sight) (σ : LowerState) (x : String) : Prop :=
  ∀ slot, σ.frames.lookup x = some slot → slot.kind = .string → V.Full σ slot.register

namespace Builder.Call
variable {α : Type}

/-- What is handed to the call may be. -/
def Sound (V : Sight) (σ : LowerState) : Call α → Prop
  | store ty v address => V.Holds .solid σ v ∧ V.Holds .known σ address ∧ (ty = .ptr → v = .null → V.may.Frees)
  | load _ address => V.Holds .known σ address
  | compute operation => operation.computes = true ∧ ∀ v ∈ operation.operands, V.Holds .known σ v
  | invoke callee fixed extra => V.Calls callee ∧
      ∀ v ∈ fixed ++ extra.map Prod.snd, V.Holds (if callee = "free" then .known else .solid) σ v
  | createBlock name => name ∈ Block.names
  | startBlock id label | quit id label => Block.Labels id label
  | terminate _ | alloca _ | initSlot _ _ | stringConstant _ | declareExternal _ _ | register _ _ _ | startRoutine _ _ _
  | finishRoutine => True

/-- What holds of the answer, if the call was made in the state `σ`. -/
def Result (V : Sight) (σ : LowerState) : Call α → α → LowerState → Prop
  | store ty v address, _, σ' => ∀ s, address = .register s → ty = .ptr → V.Holds .text σ v → V.Full σ' s
  | load ty address, v, σ' => V.Holds .known σ' v ∧ (ty ≠ .ptr → V.Holds .solid σ' v) ∧
      ∀ s, address = .register s → V.Full σ s → V.Holds .text σ' v
  | compute _, v, σ' => V.Holds .solid σ' v
  | invoke callee _ _, v, σ' => V.Holds .solid σ' v ∧ (callee = "malloc" ∨ V.Answers σ callee → V.Holds .text σ' v)
  | createBlock _, block, _ => Block.Labels block.1 block.2
  | stringConstant _, g, σ' => V.Holds .text σ' (.global g)
  | startRoutine _ _ _, regs, σ' => ∀ r ∈ regs, V.Holds .text σ' (.register r)
  | alloca _, reg, σ' => V.Taken σ' reg
  | terminate _, _, _ | startBlock _ _, _, _ | quit _ _, _, _ | initSlot _ _, _, _ | declareExternal _ _, _, _
  | register _ _ _, _, _ | finishRoutine, _, _ => True

end Builder.Call

/-- A view of lowering that each of its calls bears out. -/
structure View extends Sight where
  refl : ∀ σ, Le σ σ
  trans : ∀ {σ σ' σ''}, Le σ σ' → Le σ' σ'' → Le σ σ''
  fit : ∀ {σ σ'}, Le σ σ' → Fit σ → Fit σ'
  /-- What is known is not forgotten. -/
  holds : ∀ {σ σ' g v}, Le σ σ' → Holds g σ v → Holds g σ' v
  answers : ∀ {σ σ' callee}, Le σ σ' → Answers σ callee → Answers σ' callee
  taken : ∀ {σ σ' reg}, Le σ σ' → Taken σ reg → Taken σ' reg
  ready : ∀ {σ σ' x}, Le σ σ' → toSight.Ready σ x → toSight.Ready σ' x
  solid_of_text : ∀ {σ v}, Holds .text σ v → Holds .solid σ v
  known_of_solid : ∀ {σ v}, Holds .solid σ v → Holds .known σ v
  /-- Null is no text, if it is not put in the place of one. -/
  null : ∀ {σ}, Holds .text σ .null → may.Frees
  register : ∀ σ r, Holds .known σ (.register r)
  literal : ∀ {σ v}, (∀ r, v ≠ .register r) → (∀ name, v ≠ .global name) → Holds .solid σ v
  calls : ∀ {callee}, callee ≠ "exit" → may.Draws ∨ External.draws callee = false → Calls callee
  linked : ∀ {σ name info}, Fit σ → σ.functions.get? name = some info → Calls info.symbol ∧ Answers σ info.symbol
  /-- Where blocks branch, it is not known which slots have texts. -/
  full : ∀ σ r, may.Branches → Full σ r
  marks : ∀ {σ σ'}, σ.Kept σ' → σ'.builder = σ.builder → Le σ σ'
  declares : ∀ {σ reg} name kind, may.Declares → Taken σ reg → Le σ { σ with frames := (σ.frames.register name reg kind).2 }
  bodies : ∀ {σ σ'}, may.Bodies → σ'.builder = σ.builder → (σ.CallsPlain → σ'.CallsPlain) → Le σ σ'
  call : ∀ {α} (c : Call α) {σ}, Fit σ → c.Permitted may → c.Sound toSight σ →
    Le σ (σ.called c) ∧ c.Result toSight σ (c.run.run σ.builder).1 (σ.called c)

theorem Block.labels_createBlock {name : String} (h : name ∈ Block.names) (b : Builder) :
    Block.Labels ((Builder.createBlock name).run b).1.1 ((Builder.createBlock name).run b).1.2 := ⟨name, h, rfl⟩

/-- A view of states alone: nothing is asked of operands. -/
def View.ofStates (may : Permit) (Fit : LowerState → Prop) (Le : LowerState → LowerState → Prop) (Calls : String → Prop)
    (frees : may.Frees) (refl : ∀ σ, Le σ σ) (trans : ∀ {σ σ' σ''}, Le σ σ' → Le σ' σ'' → Le σ σ'')
    (fit : ∀ {σ σ'}, Le σ σ' → Fit σ → Fit σ')
    (calls : ∀ {callee}, may.Draws ∨ External.draws callee = false → Calls callee)
    (linked : ∀ {σ name info}, Fit σ → σ.functions.get? name = some info → Calls info.symbol)
    (marks : ∀ {σ σ'}, σ.Kept σ' → σ'.builder = σ.builder → Le σ σ')
    (declares : ∀ {σ reg} name kind, may.Declares → Le σ { σ with frames := (σ.frames.register name reg kind).2 })
    (bodies : ∀ {σ σ'}, may.Bodies → σ'.builder = σ.builder → (σ.CallsPlain → σ'.CallsPlain) → Le σ σ')
    (call : ∀ {α : Type} (c : Call α) {σ}, Fit σ → c.Permitted may → Le σ (σ.called c)) : View where
  may := may
  Fit := Fit
  Le := Le
  Holds _ _ _ := True
  Full _ _ := True
  Calls := Calls
  Answers _ _ := True
  Taken _ _ := True
  refl := refl
  trans := trans
  fit := fit
  holds _ _ := trivial
  answers _ _ := trivial
  taken _ _ := trivial
  ready _ _ _ _ _ := trivial
  solid_of_text _ := trivial
  known_of_solid _ := trivial
  null _ := frees
  register _ _ := trivial
  literal _ _ := trivial
  calls _ h := calls h
  linked h hinfo := ⟨linked h hinfo, trivial⟩
  full _ _ _ := trivial
  marks := marks
  declares name kind h _ := declares name kind h
  bodies := bodies
  call c σ hσ hmay hsound := by
    refine ⟨call c hσ hmay, ?_⟩
    cases c with
    | createBlock name => exact Block.labels_createBlock hsound σ.builder
    | _ => simp [Builder.Call.Result]

namespace Lower
variable {α β : Type} {V : View} {σ : LowerState} {p q r : Phase} {x : Lower α} {f : α → Lower β}
  {P : α → LowerState → Prop} {Q : β → LowerState → Prop}

/-- Begun in the state `σ`, the step is made of calls in order, and leads from one phase to another unless the program is
refused.  Then `Q` holds of its result. -/
inductive Orderly (V : View) : {α : Type} → LowerState → Phase → Lower α → (α → LowerState → Prop) → Phase → Prop where
  | pure {α : Type} {σ : LowerState} {p : Phase} {Q : α → LowerState → Prop} {a : α} (h : Q a σ) : Orderly V σ p (pure a) Q p
  | throw {α : Type} {σ : LowerState} {p : Phase} {Q : α → LowerState → Prop} {e : LowerError} (may : V.may.Refuses)
      (h : ∀ span, e ≠ .graphicsDisabled span) : Orderly V σ p (throw e : Lower α) Q p
  | call {α : Type} {σ : LowerState} {p q : Phase} {Q : α → LowerState → Prop} (c : Call α) (next : c.next? p = some q)
      (may : c.Permitted V.may) (sound : c.Sound V.toSight σ)
      (rest : ∀ a σ', V.Le σ σ' → c.Result V.toSight σ a σ' → Q a σ') : Orderly V σ p (build c.run) Q q
  | bind {α β : Type} {σ : LowerState} {p r q : Phase} {x : Lower α} {f : α → Lower β} {P : α → LowerState → Prop}
      {Q : β → LowerState → Prop} (first : Orderly V σ p x P r)
      (rest : ∀ a σ', V.Le σ σ' → P a σ' → Orderly V σ' r (f a) Q q) : Orderly V σ p (x >>= f) Q q
  | imp {α : Type} {σ : LowerState} {p q : Phase} {x : Lower α} {P Q : α → LowerState → Prop} (h : Orderly V σ p x P q)
      (rest : ∀ a σ', V.Le σ σ' → P a σ' → Q a σ') : Orderly V σ p x Q q
  | get_bind {β : Type} {σ : LowerState} {p q : Phase} {f : LowerState → Lower β} {Q : β → LowerState → Prop}
      (same : ∀ s b, f { s with builder := b } = f s) (rest : Orderly V σ p (f σ) Q q) : Orderly V σ p (get >>= f) Q q
  | modifyGet {α : Type} {σ : LowerState} {p : Phase} {g : LowerState → α × LowerState} {Q : α → LowerState → Prop}
      (same : ∀ s b, g { s with builder := b } = ((g s).1, { (g s).2 with builder := b })) (le : V.Le σ (g σ).2)
      (h : Q (g σ).1 (g σ).2) : Orderly V σ p (modifyGet g) Q p
  | functionInfo {β : Type} {σ : LowerState} {p q : Phase} {f : FuncInfo → Lower β} {Q : β → LowerState → Prop}
      (may : V.may.Refuses) (name : Ident)
      (rest : ∀ info, V.Calls info.symbol → V.Answers σ info.symbol → Orderly V σ p (f info) Q q) :
      Orderly V σ p (functionInfo name >>= f) Q q
  /-- Whether the open block has its terminator tells the phase. -/
  | isTerminated {β : Type} {σ : LowerState} {q : Phase} {f : LowerState → Lower β} {Q : β → LowerState → Prop}
      (same : ∀ s b, b.isTerminated = s.builder.isTerminated → f { s with builder := b } = f s)
      (isOpen : σ.builder.isTerminated = false → Orderly V σ .isOpen (f σ) Q q)
      (ended : σ.builder.isTerminated = true → Orderly V σ .ended (f σ) Q q) : Orderly V σ .isOpen (get >>= f) Q q

theorem run_functionInfo (callee : Ident) (σ : LowerState) : (functionInfo callee).run σ =
    (σ.functions.get? callee.name).elim (.error (.undefinedFunction callee.name callee.span)) fun info => .ok (info, σ) := by
  rw [functionInfo, run_bind]
  simp only [run_get, pure_bind]
  cases σ.functions.get? callee.name <;> rfl

namespace Orderly

/-- **What a view says of the calls holds of the step**, which is refused only if it may be. -/
theorem ends (h : Orderly V σ p x P q) (hσ : V.Fit σ) : (V.may.Refuses ∧ ∃ e, x.run σ = .error e) ∨
    ∃ a σ', x.run σ = .ok (a, σ') ∧ V.Le σ σ' ∧ P a σ' := by
  induction h with
  | pure h => exact .inr ⟨_, _, rfl, V.refl _, h⟩
  | throw may => exact .inl ⟨may, _, rfl⟩
  | call c _ may sound rest =>
    obtain ⟨hle, hresult⟩ := V.call c hσ may sound
    exact .inr ⟨_, _, rfl, hle, rest _ _ hle hresult⟩
  | bind _ _ ihx ihf =>
    rw [run_bind]
    obtain ⟨may, e, he⟩ | ⟨a, σ₁, hrun, hle, hP⟩ := ihx hσ
    · rw [he]
      exact .inl ⟨may, e, rfl⟩
    · rw [hrun]
      obtain hrefused | ⟨b, σ₂, hrun', hle', hQ⟩ := ihf a σ₁ hle hP (V.fit hle hσ)
      · exact .inl hrefused
      · exact .inr ⟨b, σ₂, hrun', V.trans hle hle', hQ⟩
  | imp _ rest ih => exact (ih hσ).imp_right fun ⟨a, σ', hrun, hle, hP⟩ => ⟨a, σ', hrun, hle, rest a σ' hle hP⟩
  | get_bind _ _ ih => exact ih hσ
  | modifyGet _ le h => exact .inr ⟨_, _, rfl, le, h⟩
  | @functionInfo _ σ _ _ _ _ may name _ ih =>
    rw [run_bind, run_functionInfo]
    cases hinfo : σ.functions.get? name.name with
    | none => exact .inl ⟨may, _, rfl⟩
    | some info =>
      obtain ⟨hcalls, hanswers⟩ := V.linked hσ hinfo
      exact ih info hcalls hanswers hσ
  | @isTerminated _ σ _ _ _ _ _ _ ihopen ihended =>
    cases hs : σ.builder.isTerminated with
    | false => exact ihopen hs hσ
    | true => exact ihended hs hσ

theorem gives (h : Orderly V σ p x P q) (hσ : V.Fit σ) : Gives x σ fun a σ' => V.Le σ σ' ∧ P a σ' := by
  intro a σ' hrun
  obtain ⟨-, e, he⟩ | ⟨_, _, hrun', hle, hP⟩ := h.ends hσ
  · rw [hrun] at he
    cases he
  · cases hrun.symm.trans hrun'
    exact ⟨hle, hP⟩

protected theorem modify {g : LowerState → LowerState} {Q : Unit → LowerState → Prop}
    (same : ∀ s b, g { s with builder := b } = { g s with builder := b }) (le : V.Le σ (g σ)) (h : Q () (g σ)) :
    Orderly V σ p (modify g : Lower Unit) Q p := .modifyGet (fun s b => congrArg _ (same s b)) le h

theorem mark {g : LowerState → LowerState} {Q : Unit → LowerState → Prop}
    (same : ∀ s b, g { s with builder := b } = { g s with builder := b }) (kept : σ.Kept (g σ)) (h : Q () (g σ)) :
    Orderly V σ p (modify g : Lower Unit) Q p :=
  .modify same (V.marks kept (congrArg (·.builder) (same σ σ.builder))) h

theorem build_bind {x : Build Nat α} {f : α → Build Nat β} (hx : Orderly V σ p (build x) P r)
    (hf : ∀ a σ', V.Le σ σ' → P a σ' → Orderly V σ' r (build (f a)) Q q) : Orderly V σ p (build (x >>= f)) Q q := .bind hx hf

end Orderly
end Lower

/-! ## States -/

namespace View
open Lower
variable {α : Type} {x : Lower α} {P : LowerState → α → LowerState → Prop} {p q : Phase}

/-- Steps that change the code alone. -/
def kept (refuses : Prop) : View :=
  .ofStates { Permit.all with Refuses := refuses, Declares := False, Bodies := False } (fun _ => True) LowerState.Kept
    (fun _ => True) trivial .refl .trans (fun _ _ => trivial) (fun _ => trivial) (fun _ _ => trivial) (fun h _ => h)
    (fun _ _ h => h.elim) (fun h => h.elim) fun _ _ _ _ => ⟨⟨rfl, rfl, rfl, rfl⟩, rfl⟩

theorem keeps (h : ∀ σ, Orderly (kept True) σ p x (P σ) q) : Keeps x :=
  fun σ => ((h σ).gives trivial).imp fun _ _ h' => h'.1

end View

/-- Every call of the builder keeps it. -/
def Builder.Invariant (I : Builder → Prop) : Prop := ∀ {α : Type} (c : Call α) (b : Builder), I b → I (c.run.run b).2

namespace View

/-- What every call keeps. -/
def following {I : Builder → Prop} (hI : Builder.Invariant I) : View :=
  .ofStates .all (fun σ => I σ.builder) (fun σ σ' => I σ.builder → I σ'.builder) (fun _ => True) trivial (fun _ h => h)
    (fun h h' hσ => h' (h hσ)) (fun h hσ => h hσ) (fun _ => trivial) (fun _ _ => trivial) (fun _ hb hσ => hb ▸ hσ)
    (fun _ _ _ hσ => hσ) (fun _ hb _ hσ => hb ▸ hσ) fun c _ _ _ hσ => hI c _ hσ

/-- Nothing but which routines are called. -/
def plain (draws : Prop) : View :=
  .ofStates { Permit.all with Draws := draws } (fun σ => draws ∨ σ.CallsPlain) (fun σ σ' => σ.CallsPlain → σ'.CallsPlain)
    (fun callee => draws ∨ External.draws callee = false) trivial (fun _ h => h) (fun h h' hσ => h' (h hσ))
    (fun h hσ => hσ.imp_right h) (fun h => h) (fun h hinfo => h.imp_right fun h => h _ _ hinfo)
    (fun hk _ hσ name info h => hσ name info (hk.functions ▸ h)) (fun _ _ _ hσ => hσ) (fun _ _ h => h)
    fun _ _ _ _ hσ => hσ

end View
end QuillLang
