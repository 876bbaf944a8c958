import QuillLang.Proofs.WellFormed
/-!
# Lowered programs are well-typed code in single-assignment form

Beyond what the check looks at:
- no register of a routine is written twice;
- an operand is defined before its use, in the same block, unless it is a slot, or an argument used in the first block;
- slots are made at the head of the first block only, each with its first value;
- every operand has the type its place requires.

All four are read off the plan that a routine fits.
-/
namespace QuillLang

/-! ## Operands and types -/

namespace Operation

def operands : Operation → List Operand
  | alloca _ => []
  | load _ address => [address]
  | store _ value address => [value, address]
  | element _ base index => [base, index]
  | arith _ _ lhs rhs | compare _ _ lhs rhs => [lhs, rhs]
  | cast _ value _ _ => [value]
  | call _ _ args _ => args.map Prod.snd

def resultType : Operation → MachineType
  | alloca _ | element _ _ _ => .ptr
  | load ty _ | arith _ ty _ _ => ty
  | store _ _ _ => .void
  | compare _ _ _ _ => .i1
  | cast _ _ _ target => target
  | call _ ret _ _ => ret

end Operation

def Terminator.operands : Terminator → List Operand
  | ret (some (_, value)) => [value]
  | condBr cond _ _ => [cond]
  | ret none | br _ | unreachable => []

namespace Routine

def typings (r : Routine) : List (Register × MachineType) :=
  r.params ++ r.instrs.filterMap fun i => i.result.map fun x => (x, i.operation.resultType)

def HasType (r : Routine) : Operand → MachineType → Prop
  | .register x, ty => (x, ty) ∈ r.typings
  | .int _, ty => ty = .i64 ∨ ty = .i32
  | .float _, ty => ty = .double
  | .null, ty | .global _, ty => ty = .ptr

/-- The operand is the address of a slot of the type, or of an element of an array of the type. -/
def Addresses (r : Routine) : Operand → MachineType → Prop
  | .register x, ty =>
    ⟨some x, .alloca ty⟩ ∈ r.instrs ∨ ∃ base index, ⟨some x, .element ty base index⟩ ∈ r.instrs
  | _, _ => False

def slots (r : Routine) : List Register := (r.blocks.head?.elim [] Block.instrs).filterMap Instr.slot?

/-- May a register be used in block `k`, after the code `before`? -/
def InScope (r : Routine) (k : Block) (before : List Instr) (x : Register) : Prop :=
  x ∈ before.filterMap Instr.result ∨
    (r.blocks.head? = some k ∧ x ∈ r.params.map Prod.fst) ∨ (r.blocks.head? ≠ some k ∧ x ∈ r.slots)

def WellTyped (a : Assembly) (r : Routine) : Operation → Prop
  | .alloca ty => ty ≠ .void
  | .load ty address => r.Addresses address ty
  | .store ty value address => r.HasType value ty ∧ r.Addresses address ty
  | .element _ base index => r.HasType base .ptr ∧ r.HasType index .i64
  | .arith op ty lhs rhs => ty = op.type ∧ r.HasType lhs ty ∧ r.HasType rhs ty
  | .compare _ ty lhs rhs => (ty = .i64 ∨ ty = .i32) ∧ r.HasType lhs ty ∧ r.HasType rhs ty
  | .cast op value source target => source = op.source ∧ target = op.target ∧ r.HasType value source
  | .call callee ret args variadic => ∃ f, a.routine? callee = some f ∧ ret = f.ret ∧
      f.params.map Prod.snd <+: args.map Prod.fst ∧ (f.isVariadic = false → args.length = f.params.length) ∧
      (variadic = if f.isVariadic then some (f.params.map Prod.snd) else none) ∧ ∀ x ∈ args, r.HasType x.2 x.1

def EndsWell (r : Routine) : Terminator → Prop
  | .ret (some (ty, value)) => ty = r.ret ∧ r.HasType value ty
  | .ret none => False
  | .condBr cond _ _ => r.HasType cond .i1
  | .br _ | .unreachable => True

/-- Well-typed code in single-assignment form. -/
structure IsSsa (a : Assembly) (r : Routine) : Prop where
  single : (r.params.map Prod.fst ++ r.instrs.filterMap Instr.result).Nodup
  uses : ∀ k ∈ r.blocks, ∀ before i after, k.instrs = before ++ i :: after →
    ∀ x, .register x ∈ i.operation.operands → r.InScope k before x
  uses_end : ∀ k ∈ r.blocks, ∀ e, k.terminator = some e → ∀ x, .register x ∈ e.operands → r.InScope k k.instrs x
  prologue : ∃ (entry : Block) (rest : List Block) (F : Frame) (code : List Instr), r.blocks = entry :: rest ∧
    entry.instrs = F.flatMap Slot.prologue ++ code ∧ ∀ i ∈ code ++ rest.flatMap Block.instrs, i.slot? = none
  result : ∀ i ∈ r.instrs, i.result = none ↔ i.operation.resultType = .void
  typed : ∀ i ∈ r.instrs, r.WellTyped a i.operation
  typed_end : ∀ k ∈ r.blocks, ∃ e, k.terminator = some e ∧ r.EndsWell e

end Routine

/-! ## One step -/

namespace Setting
variable {S : Setting} {t t' : Known} {i : Instr}

theorem Step.content_cases (h : S.Step t i t') {x : Register} {c : Content} (hx : t'.content x = some c) :
    (∃ c₀, t.content x = some c₀ ∧ c.type = c₀.type ∧ ∀ s, c = .cell s → c₀ = .cell s) ∨
      (i.result = some x ∧ c.type = i.operation.resultType ∧
        ∀ s, c = .cell s → ∃ base index, i.operation = .element .i64 base index) := by
  have keep : ∀ {c : Content}, t.content x = some c →
      ∃ c₀, t.content x = some c₀ ∧ c.type = c₀.type ∧ ∀ s, c = .cell s → c₀ = .cell s := fun h => ⟨_, h, rfl, fun _ => id⟩
  have forget : ∀ {v : Known} {s : Register} {c : Content}, (v.forget s).content x = some c →
      ∃ c₀, v.content x = some c₀ ∧ c.type = c₀.type ∧ ∀ s, c = .cell s → c₀ = .cell s := by
    intro v s c hv
    rw [Known.content_forget] at hv
    split at hv
    · rename_i hold
      cases hv
      rcases hold with hold | hold
      · exact ⟨_, hold, rfl, fun _ h => by cases h⟩
      · exact ⟨_, hold, rfl, fun _ h => by cases h⟩
    · exact ⟨c, hv, rfl, fun _ => id⟩
  have define : ∀ {r : Register} {d c : Content}, (t.define r d).content x = some c →
      (x = r ∧ c = d) ∨ t.content x = some c := by
    intro r d c hd
    rw [Known.content_define] at hd
    split at hd
    · cases hd
      exact .inl ⟨‹_›, rfl⟩
    · exact .inr hd
  cases h with
  | alloca | storeNumber | storeNull | storeCell | exit => exact .inl (keep hx)
  | storeOwned _ _ owned =>
    obtain ⟨c₀, h₀, hty, hcell⟩ := forget hx
    rcases define h₀ with ⟨rfl, rfl⟩ | h₀
    · exact .inl ⟨_, owned, hty, fun s hs => absurd (hcell s hs) (by simp)⟩
    · exact .inl ⟨c₀, h₀, hty, hcell⟩
  | freeOwned _ owned =>
    rcases define hx with ⟨rfl, rfl⟩ | h₀
    · exact .inl ⟨_, owned, rfl, fun s hs => by cases hs⟩
    · exact .inl (keep h₀)
  | freeView => exact .inl (forget hx)
  | @external _ _ _ _ _ result =>
    cases result with
    | none => exact .inl (keep hx)
    | some r =>
      rcases define hx with ⟨rfl, rfl⟩ | h₀
      · exact .inr ⟨rfl, rfl, fun s hs => by cases hs⟩
      · exact .inl (keep h₀)
  | element =>
    rcases define hx with ⟨rfl, rfl⟩ | h₀
    · exact .inr ⟨rfl, rfl, fun _ _ => ⟨_, _, rfl⟩⟩
    · exact .inl (keep h₀)
  | @function _ _ ret =>
    rcases define hx with ⟨rfl, rfl⟩ | h₀
    · refine .inr ⟨rfl, ?_, fun s hs => ?_⟩
      · by_cases hret : ret = .ptr
        · rw [if_pos hret, hret]
          rfl
        · rw [if_neg hret]
          rfl
      · split at hs <;> cases hs
    · exact .inl (keep h₀)
  | loadNumber | loadPointer | loadCell | arith | compare | cast | malloc =>
    rcases define hx with ⟨rfl, rfl⟩ | h₀
    · exact .inr ⟨rfl, rfl, fun s hs => by cases hs⟩
    · exact .inl (keep h₀)

theorem Step.present_cases (h : S.Step t i t') {x : Register} (hx : t'.status x ≠ .absent) :
    t.status x ≠ .absent ∨ i.slot? = some x := by
  have set : ∀ {s : Register} {st : SlotStatus}, t.status s ≠ .absent →
      (if x = s then st else t.status x) ≠ .absent → t.status x ≠ .absent := by
    intro s st hs hx
    split at hx
    · rename_i he
      rw [he]
      exact hs
    · exact hx
  cases h with
  | alloca =>
    simp only [Known.status_setStatus] at hx
    split at hx
    · rename_i he
      exact .inr (by rw [he]; rfl)
    · exact .inl hx
  | storeNumber _ _ present => exact .inl (set present hx)
  | storeNull _ _ stale => exact .inl (set (by rw [stale]; simp) hx)
  | storeOwned _ _ _ vacant =>
    refine .inl (set ?_ hx)
    rcases vacant with hs | ⟨hs, -⟩ <;> rw [hs] <;> simp
  | freeView _ _ _ ready => exact .inl (set (by rw [ready]; simp) hx)
  | @external _ _ _ _ _ result => cases result <;> exact .inl hx
  | storeCell | freeOwned | loadNumber | loadPointer | element | loadCell | arith | compare | cast | malloc | exit
  | function => exact .inl hx

theorem Step.slot?_eq_none (h : S.Step t i t') (hp : ∀ s, t.status s ≠ .absent) : i.slot? = none := by
  cases h with
  | alloca _ absent => exact absurd absent (hp _)
  | storeNumber | storeNull | storeOwned | storeCell | freeOwned | freeView | loadNumber | loadPointer | element | loadCell
  | arith | compare | cast | malloc | exit | external | function => rfl

theorem Steps.slot?_eq_none {is : List Instr} (h : S.Steps t is t') (hp : ∀ s, t.status s ≠ .absent) :
    ∀ i ∈ is, i.slot? = none := by
  induction is generalizing t with
  | nil => simp
  | cons i is ih =>
    obtain ⟨u, hstep, hrest⟩ := h
    intro j hj
    rcases List.mem_cons.1 hj with rfl | hj
    · exact hstep.slot?_eq_none hp
    · exact ih hrest (hstep.present hp) j hj

theorem Step.result_iff (h : S.Step t i t') : i.result = none ↔ i.operation.resultType = .void := by
  cases h with
  | @external _ _ ret _ _ result _ _ _ _ _ gives =>
    cases result with
    | none => exact ⟨fun _ => gives, fun _ => rfl⟩
    | some r => exact ⟨(fun h => by cases h), fun h => absurd h gives.1⟩
  | @function _ _ ret _ _ _ _ _ _ ret_type =>
    refine ⟨(fun h => by cases h), fun h => ?_⟩
    obtain rfl : ret = .void := h
    rcases ret_type with h | h <;> cases h
  | @arith op => cases op <;> simp [Operation.resultType, ArithOp.type]
  | @cast op => cases op <;> simp [Operation.resultType, CastOp.target]
  | alloca | storeNumber | storeNull | storeOwned | storeCell | freeOwned | freeView | loadNumber | loadPointer | element
  | loadCell | compare | malloc | exit => simp [Operation.resultType]

end Setting

/-! ## A whole block -/

/-- What is known after the code `before` of a block agrees with the routine. -/
structure Tracks (F : Frame) (r : Routine) (k : Block) (before : List Instr) (t : Known) : Prop where
  typed : ∀ x c, t.content x = some c → (x, c.type) ∈ r.typings
  scope : ∀ x c, t.content x = some c → r.InScope k before x
  cell : ∀ x s, t.content x = some (.cell s) → ∃ base index, ⟨some x, .element .i64 base index⟩ ∈ r.instrs
  slot : ∀ slot ∈ F, t.status slot.register ≠ .absent → r.InScope k before slot.register

namespace Routine.InScope
variable {r : Routine} {k : Block} {before : List Instr} {i : Instr} {x : Register}

theorem snoc (h : r.InScope k before x) : r.InScope k (before ++ [i]) x := by
  rcases h with h | h
  · exact .inl (by simp [h])
  · exact .inr h

theorem of_result (h : i.result = some x) : r.InScope k (before ++ [i]) x := .inl (by simp [h])

end Routine.InScope

theorem Routine.mem_typings_of_result {r : Routine} {i : Instr} (hi : i ∈ r.instrs) {x : Register}
    (hx : i.result = some x) : (x, i.operation.resultType) ∈ r.typings := by
  refine List.mem_append_right _ (List.mem_filterMap.2 ⟨i, hi, ?_⟩)
  rw [hx]
  rfl

namespace Tracks
variable {S : Setting} {r : Routine} {k : Block} {before : List Instr} {t t' : Known} {i : Instr}

theorem step (h : Tracks S.frame r k before t) (hi : i ∈ r.instrs) (hs : S.Step t i t') :
    Tracks S.frame r k (before ++ [i]) t' := by
  refine ⟨fun x c hx => ?_, fun x c hx => ?_, fun x s hx => ?_, fun slot hslot hp => ?_⟩
  · rcases hs.content_cases hx with ⟨c₀, h₀, hty, -⟩ | ⟨hres, hty, -⟩
    · rw [hty]
      exact h.typed x c₀ h₀
    · rw [hty]
      exact Routine.mem_typings_of_result hi hres
  · rcases hs.content_cases hx with ⟨c₀, h₀, -, -⟩ | ⟨hres, -, -⟩
    · exact (h.scope x c₀ h₀).snoc
    · exact .of_result hres
  · rcases hs.content_cases hx with ⟨c₀, h₀, -, hcell⟩ | ⟨hres, -, hcell⟩
    · rw [hcell s rfl] at h₀
      exact h.cell x s h₀
    · obtain ⟨base, index, hop⟩ := hcell s rfl
      refine ⟨base, index, ?_⟩
      rw [← hres, ← hop]
      exact hi
  · rcases hs.present_cases hp with hp | hmade
    · exact (h.slot slot hslot hp).snoc
    · refine .of_result ?_
      unfold Instr.slot? at hmade
      split at hmade
      · exact hmade
      · cases hmade

theorem hasType (h : Tracks S.frame r k before t) {v : Operand} {ty : MachineType} (hv : t.HasType v ty) :
    r.HasType v ty := by
  cases v with
  | register x =>
    obtain ⟨c, hc, rfl⟩ := hv
    exact h.typed x c hc
  | int | float | null | global => exact hv

theorem scope_of_hasType (h : Tracks S.frame r k before t) {x : Register} {ty : MachineType}
    (hx : t.HasType (.register x) ty) : r.InScope k before x := by
  obtain ⟨c, hc, -⟩ := hx
  exact h.scope x c hc

/-- **The operands of the next instruction are in scope.** -/
theorem uses (h : Tracks S.frame r k before t) (hs : S.Step t i t') {x : Register}
    (hx : .register x ∈ i.operation.operands) : r.InScope k before x := by
  have typed : ∀ {v : Operand} {ty : MachineType}, t.HasType v ty → .register x = v → r.InScope k before x := by
    intro v ty hv he
    rw [← he] at hv
    exact h.scope_of_hasType hv
  have known : ∀ {y : Register} {c : Content}, t.content y = some c → .register x = Operand.register y →
      r.InScope k before x := fun hc he => typed (.register hc) he
  have slot : ∀ {slot : Slot}, slot ∈ S.frame → t.status slot.register ≠ .absent →
      .register x = Operand.register slot.register → r.InScope k before x := by
    intro slot hmem hp he
    cases he
    exact h.slot slot hmem hp
  have args : ∀ {args : List (MachineType × Operand)}, (∀ y ∈ args, t.HasType y.2 y.1) →
      .register x ∈ args.map Prod.snd → r.InScope k before x := by
    intro args hargs hmem
    obtain ⟨y, hy, he⟩ := List.mem_map.1 hmem
    exact typed (hargs y hy) he.symm
  cases hs with
  | alloca => cases hx
  | storeNumber mem _ present value =>
    rcases List.mem_pair.1 hx with hx | hx
    · exact typed value hx
    · exact slot mem present hx
  | storeNull mem _ stale =>
    rcases List.mem_pair.1 hx with hx | hx
    · cases hx
    · exact slot mem (by rw [stale]; simp) hx
  | storeOwned mem _ owned vacant =>
    rcases List.mem_pair.1 hx with hx | hx
    · exact known owned hx
    · refine slot mem ?_ hx
      rcases vacant with hs | ⟨hs, -⟩ <;> rw [hs] <;> simp
  | loadNumber mem _ ready | loadPointer mem _ ready =>
    exact slot mem (by rw [ready]; simp) (List.mem_singleton.1 hx)
  | element view index =>
    rcases List.mem_pair.1 hx with hx | hx
    · exact known view hx
    · exact typed index hx
  | loadCell cell => exact known cell (List.mem_singleton.1 hx)
  | storeCell cell value =>
    rcases List.mem_pair.1 hx with hx | hx
    · exact typed value hx
    · exact known cell hx
  | arith left right | compare _ left right =>
    rcases List.mem_pair.1 hx with hx | hx
    · exact typed left hx
    · exact typed right hx
  | cast value | malloc _ value | exit _ value => exact typed value (List.mem_singleton.1 hx)
  | freeOwned _ owned => exact known owned (List.mem_singleton.1 hx)
  | freeView _ _ _ _ view => exact known view (List.mem_singleton.1 hx)
  | external calls | function calls => exact args calls.typed hx

/-- **The next instruction is well-typed.** -/
theorem wellTyped {p : Program} {sigs : Signatures} {a : Assembly} {es : List External} {fs : List Routine}
    {main : Routine} (ha : Assembled p sigs a es fs main S.signature) (h : Tracks S.frame r k before t)
    (hslots : ∀ slot ∈ S.frame, ⟨some slot.register, .alloca slot.kind.machineType⟩ ∈ r.instrs)
    (hs : S.Step t i t') : r.WellTyped a i.operation := by
  have slot : ∀ {slot : Slot} {ty : MachineType}, slot ∈ S.frame → slot.kind.machineType = ty →
      r.Addresses (.register slot.register) ty := by
    intro slot ty hmem hty
    exact .inl (hty ▸ hslots slot hmem)
  have heap : ∀ {slot : Slot}, slot.kind.isHeap = true → slot.kind.machineType = .ptr := by
    intro slot hk
    cases hkind : slot.kind <;> rw [hkind] at hk
    · cases hk
    · rfl
    · rfl
  have call : ∀ {callee : String} {ret : MachineType} {args : List (MachineType × Operand)}
      {variadic : Option (List MachineType)} {sig : CallSignature}, S.Calls t callee sig ret args variadic →
      r.WellTyped a (.call callee ret args variadic) := by
    intro callee ret args variadic sig hc
    obtain ⟨f, hf, ht⟩ := ha.callee hc.known
    refine ⟨f, hf, by rw [hc.ret_eq, ht.ret], by rw [ht.params]; exact hc.fixed, fun hv => ?_, ?_,
      fun x hx => h.hasType (hc.typed x hx)⟩
    · rw [hc.arity (ht.variadic ▸ hv), ← ht.params, List.length_map]
    · rw [hc.variadic_eq, ht.variadic, ht.params]
  cases hs with
  | @alloca slot =>
    show slot.kind.machineType ≠ .void
    cases slot.kind <;> decide
  | storeNumber mem kind _ value => exact ⟨h.hasType value, slot mem (by rw [kind]; rfl)⟩
  | storeNull mem hk => exact ⟨rfl, slot mem (heap hk)⟩
  | storeOwned mem hk owned => exact ⟨h.hasType (.register owned), slot mem (heap hk)⟩
  | loadNumber mem kind => exact slot mem (by rw [kind]; rfl)
  | loadPointer mem hk => exact slot mem (heap hk)
  | element view index => exact ⟨h.hasType (.register view), h.hasType index⟩
  | loadCell cell => exact .inr (h.cell _ _ cell)
  | storeCell cell value => exact ⟨h.hasType value, .inr (h.cell _ _ cell)⟩
  | arith left right => exact ⟨rfl, h.hasType left, h.hasType right⟩
  | compare number left right => exact ⟨number, h.hasType left, h.hasType right⟩
  | cast value => exact ⟨rfl, rfl, h.hasType value⟩
  | malloc known value | exit known value => exact call (.one known value)
  | freeOwned known owned => exact call (.one known (.register owned))
  | freeView known _ _ _ view => exact call (.one known (.register view))
  | external calls | function calls => exact call calls

theorem steps (h : Tracks S.frame r k before t) : ∀ {is : List Instr} {t' : Known}, (∀ i ∈ is, i ∈ r.instrs) →
    S.Steps t is t' → Tracks S.frame r k (before ++ is) t' := by
  intro is
  induction is generalizing before t with
  | nil =>
    intro t' _ hs
    cases hs
    rw [List.append_nil]
    exact h
  | cons i is ih =>
    rintro t' hi ⟨u, hstep, hrest⟩
    have := ih (h.step (hi i (by simp)) hstep) (fun j hj => hi j (List.mem_cons_of_mem i hj)) hrest
    rwa [List.append_assoc] at this

end Tracks

/-! ## A whole routine -/

namespace Plan.Fits
variable {P : Plan} {signature : String → Option CallSignature} {r : Routine} {k : Block}

theorem head_iff (h : P.Fits signature r) (hk : k ∈ r.blocks) : r.blocks.head? = some k ↔ k.id = P.entry.id := by
  have hids := h.ids
  rw [h.blocks, Plan.blocks] at hk hids ⊢
  rw [List.map_cons, List.nodup_cons] at hids
  rw [List.head?_cons]
  rcases List.mem_cons.1 hk with rfl | hk
  · simp
  · have hne : k.id ≠ P.entry.id := fun he => hids.1 (he ▸ List.mem_map_of_mem hk)
    refine ⟨fun he => ?_, fun he => absurd he hne⟩
    cases he
    exact absurd rfl hne

theorem slot_mem (h : P.Fits signature r) {slot : Slot} (hs : slot ∈ P.frame) :
    ⟨some slot.register, .alloca slot.kind.machineType⟩ ∈ r.instrs := by
  rw [Routine.instrs, h.blocks, Plan.blocks, List.flatMap_cons]
  refine List.mem_append_left _ (List.mem_append_left _ (List.mem_flatMap.2 ⟨slot, hs, ?_⟩))
  exact List.mem_cons_self

theorem slot?_eq_none (h : P.Fits signature r) :
    ∀ i ∈ P.entry.instrs ++ P.rest.flatMap Block.instrs, i.slot? = none := by
  intro i hi
  rcases List.mem_append.1 hi with hi | hi
  · obtain ⟨n, t, e, -, hsteps, -⟩ := h.entry
    exact hsteps.slot?_eq_none (by simp [Known.ofParams]) i hi
  · obtain ⟨k, hk, hi⟩ := List.mem_flatMap.1 hi
    obtain ⟨n, t, e, -, hsteps, -⟩ := h.rest k hk
    exact hsteps.slot?_eq_none (by simp [startOf, Known.atBlock]) i hi

theorem slots_prologue (F : Frame) : (F.flatMap Slot.prologue).filterMap Instr.slot? = F.map Slot.register := by
  induction F with
  | nil => rfl
  | cons slot F ih =>
    rw [List.flatMap_cons, List.filterMap_append, ih]
    rfl

theorem slots_eq (h : P.Fits signature r) : r.slots = P.frame.map Slot.register := by
  have hnone : P.entry.instrs.filterMap Instr.slot? = [] :=
    List.filterMap_eq_nil_iff.2 fun i hi => h.slot?_eq_none i (List.mem_append_left _ hi)
  unfold Routine.slots
  rw [h.blocks, Plan.blocks, List.head?_cons, Option.elim_some, List.filterMap_append, slots_prologue, hnone,
    List.append_nil]

theorem tracks_start (h : P.Fits signature r) (hk : k ∈ r.blocks) : Tracks P.frame r k [] (P.start r.params k) := by
  unfold Plan.start
  by_cases he : k.id = P.entry.id
  · have hhead := (h.head_iff hk).2 he
    rw [if_pos he]
    have hparam : ∀ x c, (Known.atEntry r.params P.frame).content x = some c →
        (x, c.type) ∈ r.params ∧ ∀ s, c ≠ .cell s := by
      intro x c hx
      obtain ⟨p, hp, rfl⟩ := Option.map_eq_some_iff.1 hx
      obtain ⟨hmem, hx⟩ : p ∈ r.params ∧ p.1 = x := ⟨List.mem_of_find?_eq_some hp, by simpa using List.find?_some hp⟩
      obtain ⟨y, ty⟩ := p
      obtain rfl : y = x := hx
      dsimp only
      split
      · rename_i hty
        rw [hty] at hmem
        exact ⟨hmem, by simp⟩
      · exact ⟨hmem, by simp⟩
    refine ⟨fun x c hx => ?_, fun x c hx => ?_, fun x s hx => absurd rfl ((hparam x _ hx).2 s), fun slot hs hp => ?_⟩
    · exact List.mem_append_left _ (hparam x c hx).1
    · exact .inr (.inl ⟨hhead, List.mem_map_of_mem (hparam x c hx).1⟩)
    · refine absurd ?_ hp
      exact if_pos (List.mem_map_of_mem hs)
  · rw [if_neg he]
    refine ⟨by simp [startOf, Known.atBlock], by simp [startOf, Known.atBlock], by simp [startOf, Known.atBlock], ?_⟩
    intro slot hs _
    exact .inr (.inr ⟨fun hhead => he ((h.head_iff hk).1 hhead), h.slots_eq ▸ List.mem_map_of_mem hs⟩)

theorem before_instr (h : P.Fits signature r) (hk : k ∈ r.blocks) {before after : List Instr} {i : Instr}
    (hcode : k.instrs = before ++ i :: after) : ∃ t t', Tracks P.frame r k before t ∧
      (P.setting signature r.ret).Step t i t' := by
  obtain ⟨t, e, m, -, hsteps, -, -⟩ := h.block hk
  rw [hcode] at hsteps
  obtain ⟨u, hbefore, u', hstep, -⟩ := Setting.steps_append.1 hsteps
  have htracks := (h.tracks_start hk).steps (S := P.setting signature r.ret) (fun j hj => ?_) hbefore
  · exact ⟨u, u', htracks, hstep⟩
  · exact List.mem_flatMap.2 ⟨k, hk, by simp [hcode, hj]⟩

theorem at_end (h : P.Fits signature r) (hk : k ∈ r.blocks) : ∃ t e m, k.terminator = some e ∧
    Tracks P.frame r k k.instrs t ∧ (P.setting signature r.ret).Ends m t e := by
  obtain ⟨t, e, m, he, hsteps, -, hends⟩ := h.block hk
  have htracks := (h.tracks_start hk).steps (S := P.setting signature r.ret) (fun j hj => ?_) hsteps
  · exact ⟨t, e, m, he, htracks, hends⟩
  · exact List.mem_flatMap.2 ⟨k, hk, hj⟩

/-- **A routine that fits a plan is in single-assignment form.** -/
theorem isSsa {p : Program} {sigs : Signatures} {a : Assembly} {es : List External} {fs : List Routine} {main : Routine}
    (ha : Assembled p sigs a es fs main signature) (h : P.Fits signature r) : r.IsSsa a := by
  have instr : ∀ i ∈ r.instrs, ∃ k before t t', Tracks P.frame r k before t ∧ (P.setting signature r.ret).Step t i t' := by
    intro i hi
    obtain ⟨k, hk, hi⟩ := List.mem_flatMap.1 hi
    obtain ⟨before, after, hcode⟩ := List.append_of_mem hi
    obtain ⟨t, t', htracks, hstep⟩ := h.before_instr hk hcode
    exact ⟨k, before, t, t', htracks, hstep⟩
  refine ⟨h.registers, ?_, ?_, ⟨_, P.rest, P.frame, P.entry.instrs, h.blocks, rfl, h.slot?_eq_none⟩, ?_, ?_, ?_⟩
  · intro k hk before i after hcode x hx
    obtain ⟨t, t', htracks, hstep⟩ := h.before_instr hk hcode
    exact htracks.uses (S := P.setting signature r.ret) hstep hx
  · intro k hk e he x hx
    obtain ⟨t, e', m, he', htracks, hends⟩ := h.at_end hk
    obtain rfl : e' = e := Option.some.inj (he'.symm.trans he)
    cases hends with
    | condBr test =>
      obtain rfl := List.mem_singleton.1 hx
      exact htracks.scope_of_hasType (S := P.setting signature r.ret) test
    | ret value =>
      obtain rfl := List.mem_singleton.1 hx
      exact htracks.scope_of_hasType (S := P.setting signature r.ret) value
    | br | unreachable => cases hx
  · intro i hi
    obtain ⟨k, before, t, t', -, hstep⟩ := instr i hi
    exact hstep.result_iff
  · intro i hi
    obtain ⟨k, before, t, t', htracks, hstep⟩ := instr i hi
    exact htracks.wellTyped (S := P.setting signature r.ret) ha (fun slot hs => h.slot_mem hs) hstep
  · intro k hk
    obtain ⟨t, e, m, he, htracks, hends⟩ := h.at_end hk
    refine ⟨e, he, ?_⟩
    cases hends with
    | condBr test => exact htracks.hasType (S := P.setting signature r.ret) test
    | ret value => exact ⟨rfl, htracks.hasType (S := P.setting signature r.ret) value⟩
    | br | unreachable => trivial

end Plan.Fits

namespace Program

/-- **Every routine that lowering makes is well-typed code in single-assignment form.** -/
theorem lower_isSsa {p : Program} {sigs : Signatures} {options : LowerOptions} {a : Assembly}
    (h : p.lower sigs options = .ok a) {r : Routine} (hr : r ∈ a.routines) (hi : r.isExternal = false) : r.IsSsa a := by
  obtain ⟨es, fs, main, signature, ha⟩ := assembled_of_lower h
  obtain ⟨P, hP⟩ := ha.plan hr hi
  exact hP.isSsa ha

theorem greeting_isSsa : ∃ a r, greeting.lower (Signatures.infer greeting) .standard = .ok a ∧ r ∈ a.routines ∧
    r.isExternal = false ∧ r.name = "fn.greet" ∧ r.IsSsa a := by
  obtain ⟨a, ha, r, hr, hi, hname⟩ := greeting_lowers
  exact ⟨a, r, ha, hr, hi, hname, lower_isSsa ha hr hi⟩

end Program
end QuillLang
