import Mathlib.Data.List.Pairwise
import QuillLang.Proofs.Ssa
/-!
# Buffers in hand are used linearly

A register that a call gives a new buffer to is freed, stored in a slot or returned once, in the block of the call, and left
alone from then on.  What is freed out of a slot is put back before the slot is read again, or the routine returns.  Both
are read off the discipline: what a step does to a buffer in hand and to a stale slot, and from it what a block does.
-/
namespace QuillLang

/-! ## Linear use -/

namespace Instr

/-- The instruction takes the buffer of a register: it frees it, or stores it in a slot. -/
def Consumes (slots : List Register) (x : Register) (i : Instr) : Prop :=
  (i.callee? = some "free" ∧ .register x ∈ i.operation.operands) ∨
    ∃ ty, ∃ s ∈ slots, i.operation = .store ty (.register x) (.register s)

def Loads (s : Register) (i : Instr) : Prop := ∃ ty, i.operation = .load ty (.register s)

def Stores (s : Register) (i : Instr) : Prop := ∃ ty v, i.operation = .store ty v (.register s)

theorem Consumes.uses {slots : List Register} {x : Register} {i : Instr} (h : i.Consumes slots x) :
    .register x ∈ i.operation.operands := by
  rcases h with ⟨-, hx⟩ | ⟨ty, s, -, hop⟩
  · exact hx
  · rw [hop]
    exact List.mem_cons_self

end Instr

/-- The buffer of a register is consumed once by the rest of a block, and not used again. -/
def ConsumedOnce (slots : List Register) (x : Register) (is : List Instr) (e : Terminator) : Prop :=
  (∃ before i after, is = before ++ i :: after ∧ (∀ j ∈ before, ¬j.Consumes slots x) ∧ i.Consumes slots x ∧
    (∀ j ∈ after, .register x ∉ j.operation.operands) ∧ .register x ∉ e.operands) ∨
  ((∀ j ∈ is, ¬j.Consumes slots x) ∧ ∃ ty, e = .ret (some (ty, .register x)))

/-- The rest of a block stores in the slot before it loads from it, or returns without loading from it. -/
def RestoredFirst (s : Register) (is : List Instr) (e : Terminator) : Prop :=
  (∃ before i after, is = before ++ i :: after ∧ (∀ j ∈ before, ¬j.Loads s) ∧ i.Stores s) ∨
  ((∀ j ∈ is, ¬j.Loads s) ∧ ∃ value, e = .ret value)

/-! ## Buffers in hand -/

namespace Setting
variable {S : Setting} {t t' : Known} {i : Instr} {is : List Instr} {x : Register} {e : Terminator} {n : Nat}

theorem not_hasType {c : Content} {ty : MachineType} (hx : t.content x = some c) (hc : c.type = .ptr) (hty : ty ≠ .ptr) :
    ¬t.HasType (.register x) ty := by
  rintro ⟨c', hc', rfl⟩
  rw [hx] at hc'
  cases hc'
  exact hty hc

theorem Step.callee_ne_free_of_external {callee : String} (h : callee ∉ ["malloc", "free", "exit"]) :
    callee ≠ "free" := by
  rintro rfl
  exact h (by decide)

theorem Step.callee_ne_free_of_user {callee : String} (h : callee ∉ External.names) : callee ≠ "free" := by
  rintro rfl
  exact h (by decide)

/-- **A step consumes a buffer in hand or leaves it there.** -/
theorem Step.owned_cases (h : S.Step t i t') (hx : t.content x = some .owned) :
    (¬i.Consumes (S.frame.map Slot.register) x ∧ t'.content x = some .owned) ∨
      (i.Consumes (S.frame.map Slot.register) x ∧ t'.content x = some (.plain .ptr)) := by
  have define : ∀ {r : Register} {c : Content}, S.Fresh t r → (t.define r c).content x = some .owned := by
    intro r c hr
    have hne : x ≠ r := by
      rintro rfl
      rw [hr.content] at hx
      cases hx
    simp [hne, hx]
  have number : ∀ {v : Operand}, t.HasType v .i64 → v ≠ .register x := by
    rintro v hv rfl
    exact not_hasType hx rfl (by simp) hv
  cases h with
  | alloca | storeNull | exit => exact .inl ⟨by simp [Instr.Consumes, Instr.callee?], hx⟩
  | storeNumber _ _ _ value | storeCell _ value =>
    exact .inl ⟨by simp [Instr.Consumes, Instr.callee?, number value], hx⟩
  | @storeOwned slot r mem _ owned =>
    by_cases hr : x = r
    · refine .inr ⟨.inr ⟨.ptr, slot.register, List.mem_map_of_mem mem, by rw [hr]⟩, ?_⟩
      simp [Known.fill, Known.content_forget, hr]
    · refine .inl ⟨by simp [Instr.Consumes, Instr.callee?, Ne.symm hr], ?_⟩
      simp [Known.fill, Known.content_forget, hr, hx]
  | @freeOwned r =>
    by_cases hr : x = r
    · exact .inr ⟨.inl ⟨rfl, by simp [Operation.operands, hr]⟩, by simp [hr]⟩
    · exact .inl ⟨by simp [Instr.Consumes, Operation.operands, hr], by simp [hr, hx]⟩
  | @freeView slot r _ _ _ _ view =>
    have hr : x ≠ r := by
      rintro rfl
      rw [view] at hx
      cases hx
    refine .inl ⟨by simp [Instr.Consumes, Operation.operands, hr], ?_⟩
    simp [Known.release, Known.content_forget, hx]
  | loadNumber _ _ _ fresh | loadPointer _ _ _ fresh | element _ _ fresh | loadCell _ fresh | arith _ _ fresh
  | compare _ _ _ fresh | cast _ fresh =>
    exact .inl ⟨by simp [Instr.Consumes, Instr.callee?], define fresh⟩
  | malloc _ _ fresh => exact .inl ⟨by simp [Instr.Consumes, Instr.callee?], define fresh⟩
  | @external _ _ _ _ _ result _ _ other _ _ gives =>
    refine .inl ⟨by simp [Instr.Consumes, Instr.callee?, Step.callee_ne_free_of_external other], ?_⟩
    cases result with
    | none => exact hx
    | some r => exact define gives.2
  | function _ user _ _ _ fresh =>
    exact .inl ⟨by simp [Instr.Consumes, Instr.callee?, Step.callee_ne_free_of_user user], define fresh⟩

theorem Step.spent (h : S.Step t i t') (hx : t.content x = some (.plain .ptr))
    (hslot : ∀ slot ∈ S.frame, slot.register ≠ x) :
    .register x ∉ i.operation.operands ∧ t'.content x = some (.plain .ptr) := by
  have define : ∀ {r : Register} {c : Content}, S.Fresh t r → (t.define r c).content x = some (.plain .ptr) := by
    intro r c hr
    have hne : x ≠ r := by
      rintro rfl
      rw [hr.content] at hx
      cases hx
    simp [hne, hx]
  have forget : ∀ s, (t.forget s).content x = some (.plain .ptr) := fun s => by simp [Known.content_forget, hx]
  have typed : ∀ {v : Operand} {ty : MachineType}, t.HasType v ty → ty ≠ .ptr → Operand.register x ≠ v := by
    rintro v ty hv hty rfl
    exact not_hasType hx rfl hty hv
  have known : ∀ {r : Register} {c : Content}, t.content r = some c → c ≠ .plain .ptr → x ≠ r := by
    rintro r c hr hc rfl
    rw [hx] at hr
    cases hr
    exact hc rfl
  have args : ∀ {args : List (MachineType × Operand)}, (∀ y ∈ args, t.HasType y.2 y.1) →
      (∀ y ∈ args, y.1 = .ptr → t.Readable y.2) → .register x ∉ args.map Prod.snd := by
    intro args htyped hread hmem
    obtain ⟨y, hy, he⟩ := List.mem_map.1 hmem
    by_cases hptr : y.1 = .ptr
    · have hreadable := hread y hy hptr
      rw [he] at hreadable
      obtain ⟨c, hc, htext⟩ := hreadable
      rw [hx] at hc
      cases hc
      cases htext
    · exact typed (htyped y hy) hptr he.symm
  cases h with
  | alloca => exact ⟨by simp [Operation.operands], hx⟩
  | storeNumber mem _ _ value =>
    exact ⟨by simp [Operation.operands, typed value, Ne.symm (hslot _ mem)], hx⟩
  | storeNull mem => exact ⟨by simp [Operation.operands, Ne.symm (hslot _ mem)], hx⟩
  | storeOwned mem _ owned =>
    have hr := known owned (by simp)
    refine ⟨by simp [Operation.operands, hr, Ne.symm (hslot _ mem)], ?_⟩
    simp [Known.fill, Known.content_forget, hr, hx]
  | loadNumber mem _ _ fresh | loadPointer mem _ _ fresh =>
    exact ⟨by simp [Operation.operands, Ne.symm (hslot _ mem)], define fresh⟩
  | element view index_type fresh =>
    exact ⟨by simp [Operation.operands, known view, typed index_type], define fresh⟩
  | loadCell cell fresh => exact ⟨by simp [Operation.operands, known cell], define fresh⟩
  | storeCell cell value => exact ⟨by simp [Operation.operands, known cell, typed value], hx⟩
  | @arith op _ _ _ left right fresh =>
    have hty : op.type ≠ .ptr := by cases op <;> simp [ArithOp.type]
    exact ⟨by simp [Operation.operands, typed left hty, typed right hty], define fresh⟩
  | @compare _ ty _ _ _ number left right fresh =>
    have hty : ty ≠ .ptr := by rcases number with rfl | rfl <;> simp
    exact ⟨by simp [Operation.operands, typed left hty, typed right hty], define fresh⟩
  | @cast op _ _ value fresh =>
    have hty : op.source ≠ .ptr := by cases op <;> simp [CastOp.source]
    exact ⟨by simp [Operation.operands, typed value hty], define fresh⟩
  | malloc _ value fresh => exact ⟨by simp [Operation.operands, typed value], define fresh⟩
  | freeOwned _ owned =>
    have hr := known owned (by simp)
    exact ⟨by simp [Operation.operands, hr], by simp [hr, hx]⟩
  | freeView _ _ _ _ view => exact ⟨by simp [Operation.operands, known view], forget _⟩
  | exit _ value => exact ⟨by simp [Operation.operands, typed value], hx⟩
  | @external _ _ _ _ _ result calls _ _ _ readable gives =>
    refine ⟨args calls.typed readable, ?_⟩
    cases result with
    | none => exact hx
    | some r => exact define gives.2
  | function calls _ _ _ readable fresh => exact ⟨args calls.typed readable, define fresh⟩

theorem Steps.spent (h : S.Steps t is t') (hx : t.content x = some (.plain .ptr))
    (hslot : ∀ slot ∈ S.frame, slot.register ≠ x) :
    (∀ j ∈ is, .register x ∉ j.operation.operands) ∧ t'.content x = some (.plain .ptr) := by
  induction is generalizing t with
  | nil =>
    obtain rfl : t = t' := h
    exact ⟨by simp, hx⟩
  | cons i is ih =>
    obtain ⟨u, hstep, hrest⟩ := h
    obtain ⟨hi, hu⟩ := hstep.spent hx hslot
    obtain ⟨his, ht'⟩ := ih hrest hu
    exact ⟨List.forall_mem_cons.2 ⟨hi, his⟩, ht'⟩

theorem Ends.spent (h : S.Ends n t e) (hx : t.content x = some (.plain .ptr)) : .register x ∉ e.operands := by
  intro hmem
  cases h with
  | br | unreachable => cases hmem
  | condBr test =>
    obtain rfl := List.mem_singleton.1 hmem
    exact not_hasType hx rfl (by simp) test
  | ret value hands =>
    obtain rfl := List.mem_singleton.1 hmem
    by_cases hret : S.ret = .ptr
    · obtain ⟨r, c, hr, hc, hkind⟩ := hands hret
      cases hr
      rw [hx] at hc
      cases hc
      rcases hkind with hkind | ⟨s, hkind⟩ <;> cases hkind
    · exact not_hasType hx rfl hret value

theorem Ends.returns (h : S.Ends n t e) (hx : t.content x = some .owned) : ∃ ty, e = .ret (some (ty, .register x)) := by
  cases h with
  | br settled | condBr _ settled | unreachable _ settled => exact absurd hx (settled.empty x)
  | ret _ _ owned => exact ⟨S.ret, by rw [owned x hx]⟩

/-- **The rest of a block consumes a buffer in hand once.** -/
theorem Steps.consumedOnce (h : S.Steps t is t') (he : S.Ends n t' e) (hx : t.content x = some .owned)
    (hslot : ∀ slot ∈ S.frame, slot.register ≠ x) : ConsumedOnce (S.frame.map Slot.register) x is e := by
  induction is generalizing t with
  | nil =>
    obtain rfl : t = t' := h
    exact .inr ⟨by simp, he.returns hx⟩
  | cons i is ih =>
    obtain ⟨u, hstep, hrest⟩ := h
    rcases hstep.owned_cases hx with ⟨hnot, hu⟩ | ⟨hconsumes, hu⟩
    · rcases ih hrest hu with ⟨before, j, after, rfl, hbefore, hj⟩ | ⟨hall, hret⟩
      · exact .inl ⟨i :: before, j, after, rfl, List.forall_mem_cons.2 ⟨hnot, hbefore⟩, hj⟩
      · exact .inr ⟨List.forall_mem_cons.2 ⟨hnot, hall⟩, hret⟩
    · obtain ⟨hunused, ht'⟩ := hrest.spent hu hslot
      exact .inl ⟨[], i, is, rfl, by simp, hconsumes, hunused, he.spent ht'⟩

/-! ## Slots whose buffer was freed -/

variable {s y : Register}

theorem Step.views (h : S.Step t i t') (s : Register) :
    (∀ z, t.content z = some (.view s) → t'.content z = some (.view s)) ∨
      ∀ z, t.content z = some (.view s) → t'.content z = some (.plain .ptr) := by
  have define : ∀ {r : Register} {c : Content}, S.Fresh t r →
      ∀ z, t.content z = some (.view s) → (t.define r c).content z = some (.view s) := by
    intro r c hr z hz
    have hne : z ≠ r := by
      rintro rfl
      rw [hr.content] at hz
      cases hz
    simp [hne, hz]
  have forget : ∀ {u : Known} (s' : Register), (∀ z, t.content z = some (.view s) → u.content z = some (.view s)) →
      (∀ z, t.content z = some (.view s) → (u.forget s').content z = some (.view s)) ∨
        ∀ z, t.content z = some (.view s) → (u.forget s').content z = some (.plain .ptr) := by
    intro u s' hu
    by_cases hs : s = s'
    · exact .inr fun z hz => by simp [Known.content_forget, hu z hz, hs]
    · exact .inl fun z hz => by simp [Known.content_forget, hu z hz, hs]
  have owned : ∀ {r : Register} {c : Content}, t.content r = some .owned →
      ∀ z, t.content z = some (.view s) → (t.define r c).content z = some (.view s) := by
    intro r c hr z hz
    have hne : z ≠ r := by
      rintro rfl
      rw [hr] at hz
      cases hz
    simp [hne, hz]
  cases h with
  | alloca | storeNumber | storeNull | storeCell | exit => exact .inl fun _ hz => hz
  | @storeOwned slot _ _ _ hr => exact forget slot.register (owned hr)
  | freeOwned _ hr => exact .inl (owned hr)
  | @freeView slot => exact forget slot.register fun _ hz => hz
  | loadNumber _ _ _ fresh | loadPointer _ _ _ fresh | element _ _ fresh | loadCell _ fresh | arith _ _ fresh
  | compare _ _ _ fresh | cast _ fresh | malloc _ _ fresh | function _ _ _ _ _ fresh => exact .inl (define fresh)
  | @external _ _ _ _ _ result _ _ _ _ _ gives =>
    cases result with
    | none => exact .inl fun _ hz => hz
    | some r => exact .inl (define gives.2)

/-- What was read from a slot lasts as long as one register that was read from it. -/
theorem Steps.views (h : S.Steps t is t') (hslot : ∀ slot ∈ S.frame, slot.register ≠ y)
    (hy : t.content y = some (.view s)) (hy' : t'.content y = some (.view s)) :
    ∀ z, t.content z = some (.view s) → t'.content z = some (.view s) := by
  induction is generalizing t with
  | nil =>
    obtain rfl : t = t' := h
    exact fun _ hz => hz
  | cons i is ih =>
    obtain ⟨u, hstep, hrest⟩ := h
    rcases hstep.views s with hkeep | hforget
    · exact fun z hz => ih hrest (hkeep y hy) z (hkeep z hz)
    · have hspent := (hrest.spent (hforget y hy) hslot).2
      rw [hy'] at hspent
      cases hspent

theorem Steps.not_loads (h : S.Steps t is t') (hslot : ∀ slot ∈ S.frame, slot.register ≠ y)
    (hy : t.content y = some (.view s)) (hy' : t'.content y = some (.view s))
    (hlatest : ∀ z, t'.content z = some (.view s) → z.index ≤ y.index) :
    ∀ i ∈ is, i.operation ≠ .load .ptr (.register s) := by
  induction is generalizing t with
  | nil => simp
  | cons i is ih =>
    obtain ⟨u, hstep, hrest⟩ := h
    have hu : u.content y = some (.view s) := by
      rcases hstep.views s with hkeep | hforget
      · exact hkeep y hy
      · have hspent := (hrest.spent (hforget y hy) hslot).2
        rw [hy'] at hspent
        cases hspent
    refine List.forall_mem_cons.2 ⟨fun hop => ?_, ih hrest hu⟩
    cases hstep with
    | @loadPointer slot z _ _ _ fresh =>
      obtain rfl : slot.register = s := by simpa using hop
      have hz := hrest.views hslot hu hy' z (by simp)
      have hlt := fresh.newest y _ hy
      have hle := hlatest z hz
      omega
    | loadNumber | loadCell => simp at hop
    | alloca | storeNumber | storeNull | storeOwned | storeCell | freeOwned | freeView | element | arith | compare | cast
    | malloc | exit | external | function => cases hop

/-- **A stale slot is stored to or stays stale**, and is not read meanwhile. -/
theorem Step.stale_cases (h : S.Step t i t') (hs : t.status s = .stale) :
    i.Stores s ∨ (i.operation ≠ .load .ptr (.register s) ∧ t'.status s = .stale) := by
  have other : ∀ {slot : Slot} {st : SlotStatus}, slot.register ≠ s → (t.setStatus slot.register st).status s = .stale := by
    intro slot st hne
    simp [Ne.symm hne, hs]
  cases h with
  | @alloca slot _ absent =>
    have hne : slot.register ≠ s := by
      rintro rfl
      rw [absent] at hs
      cases hs
    exact .inr ⟨by simp, other hne⟩
  | @storeNumber slot v | @storeNull slot =>
    by_cases he : slot.register = s
    · exact .inl ⟨_, _, by rw [he]⟩
    · exact .inr ⟨by simp, other he⟩
  | @storeOwned slot r =>
    by_cases he : slot.register = s
    · exact .inl ⟨_, _, by rw [he]⟩
    · exact .inr ⟨by simp, by simp [Known.fill, Ne.symm he, hs]⟩
  | @freeView slot r _ _ _ ready =>
    have hne : slot.register ≠ s := by
      rintro rfl
      rw [ready] at hs
      cases hs
    exact .inr ⟨by simp, by simp [Known.release, Ne.symm hne, hs]⟩
  | @loadPointer slot r _ _ ready =>
    have hne : slot.register ≠ s := by
      rintro rfl
      rw [ready] at hs
      cases hs
    exact .inr ⟨by simp [hne], hs⟩
  | @external _ _ _ _ _ result => exact .inr ⟨by simp, by cases result <;> exact hs⟩
  | loadNumber | loadCell | storeCell | freeOwned | element | arith | compare | cast | malloc | exit | function =>
    exact .inr ⟨by simp, hs⟩

/-- **A slot whose buffer was freed is filled before it is read again**, or the routine returns. -/
theorem Steps.restoredFirst (h : S.Steps t is t') (he : S.Ends n t' e) (hs : t.status s = .stale)
    (htype : ∀ i ∈ is, ∀ ty, i.operation = .load ty (.register s) → ty = .ptr) : RestoredFirst s is e := by
  induction is generalizing t with
  | nil =>
    obtain rfl : t = t' := h
    have hnot : ¬t.Settled := fun settled => by
      have := settled.ready s
      rw [hs] at this
      cases this
    cases he with
    | br settled | condBr _ settled | unreachable _ settled => exact absurd settled hnot
    | ret => exact .inr ⟨by simp, _, rfl⟩
  | cons i is ih =>
    obtain ⟨u, hstep, hrest⟩ := h
    obtain ⟨hi, his⟩ := List.forall_mem_cons.1 htype
    rcases hstep.stale_cases hs with hstores | ⟨hload, hu⟩
    · exact .inl ⟨[], i, is, rfl, by simp, hstores⟩
    · have hloads : ¬i.Loads s := by
        rintro ⟨ty, hop⟩
        exact hload (hi ty hop ▸ hop)
      rcases ih hrest hu his with ⟨before, j, after, rfl, hbefore, hj⟩ | ⟨hall, hret⟩
      · exact .inl ⟨i :: before, j, after, rfl, List.forall_mem_cons.2 ⟨hloads, hbefore⟩, hj⟩
      · exact .inr ⟨List.forall_mem_cons.2 ⟨hloads, hall⟩, hret⟩

theorem Step.frees_view (h : S.Step t i t') (hfree : i.callee? = some "free") (hmem : .register y ∈ i.operation.operands)
    (hy : t.content y = some (.view s)) :
    t'.status s = .stale ∧ ∀ z, t.content z = some (.view s) → z.index ≤ y.index := by
  cases h with
  | freeOwned _ owned =>
    obtain rfl : y = _ := by simpa [Operation.operands] using hmem
    rw [owned] at hy
    cases hy
  | freeView _ _ _ _ view latest =>
    obtain rfl : y = _ := by simpa [Operation.operands] using hmem
    rw [view] at hy
    cases hy
    exact ⟨by simp [Known.release], latest⟩
  | external _ _ other => exact absurd (Option.some.inj hfree) (callee_ne_free_of_external other)
  | function _ user => exact absurd (Option.some.inj hfree) (callee_ne_free_of_user user)
  | malloc | exit => simp [Instr.callee?] at hfree
  | alloca | storeNumber | storeNull | storeOwned | storeCell | loadNumber | loadPointer | element | loadCell | arith
  | compare | cast => cases hfree

/-- What was read from a slot is still good, or is of no use any more. -/
theorem Steps.view_cases (h : S.Steps t is t') (hslot : ∀ slot ∈ S.frame, slot.register ≠ y)
    (hy : t.content y = some (.view s)) : t'.content y = some (.view s) ∨ t'.content y = some (.plain .ptr) := by
  induction is generalizing t with
  | nil =>
    obtain rfl : t = t' := h
    exact .inl hy
  | cons i is ih =>
    obtain ⟨u, hstep, hrest⟩ := h
    rcases hstep.views s with hkeep | hforget
    · exact ih hrest (hkeep y hy)
    · exact .inr (hrest.spent (hforget y hy) hslot).2

end Setting

/-! ## Routines -/

theorem eq_of_filterMap_nodup {α β : Type} {f : α → Option β} {i j : α} {x : β} : ∀ {l : List α}, (l.filterMap f).Nodup →
    i ∈ l → j ∈ l → f i = some x → f j = some x → i = j
  | a :: l, hn, hi, hj, hix, hjx => by
    cases hfa : f a with
    | none =>
      rw [List.filterMap_cons_none hfa] at hn
      have hne : ∀ {b}, b ∈ a :: l → f b = some x → b ∈ l := by
        intro b hb hbx
        refine (List.mem_cons.1 hb).resolve_left ?_
        rintro rfl
        rw [hfa] at hbx
        cases hbx
      exact eq_of_filterMap_nodup hn (hne hi hix) (hne hj hjx) hix hjx
    | some y =>
      rw [List.filterMap_cons_some hfa, List.nodup_cons] at hn
      have hout : ∀ {b}, b ∈ l → f b ≠ some y := fun hb hby => hn.1 (List.mem_filterMap.2 ⟨_, hb, hby⟩)
      rcases List.mem_cons.1 hi with rfl | hil <;> rcases List.mem_cons.1 hj with rfl | hjl
      · rfl
      · rw [hix] at hfa
        cases hfa
        exact absurd hjx (hout hjl)
      · rw [hjx] at hfa
        cases hfa
        exact absurd hix (hout hil)
      · exact eq_of_filterMap_nodup hn.2 hil hjl hix hjx

def Assembly.GivesBuffer (a : Assembly) (callee : String) : Prop :=
  callee = "malloc" ∨ ∃ f, a.routine? callee = some f ∧ f.isExternal = false ∧ f.ret = .ptr

theorem Assembled.notMem_names {p : Program} {sigs : Signatures} {a : Assembly} {es : List External} {fs : List Routine}
    {main : Routine} {signature : String → Option CallSignature} (h : Assembled p sigs a es fs main signature)
    {callee : String} {f : Routine} (hf : a.routine? callee = some f) (hint : f.isExternal = false) :
    callee ∉ External.names := by
  obtain rfl : f.name = callee := by simpa using List.find?_some hf
  rcases h.internal_iff.1 ⟨List.mem_of_find?_eq_some hf, hint⟩ with hmem | rfl
  · obtain ⟨d, -, hb⟩ := h.function_of_mem hmem
    rw [hb.name]
    exact External.function_not_mem _
  · rw [h.main_name]
    exact External.main_not_mem

namespace Plan.Fits
variable {p : Program} {sigs : Signatures} {a : Assembly} {es : List External} {fs : List Routine} {main : Routine}
  {signature : String → Option CallSignature} {P : Plan} {r : Routine} {k : Block} {before middle after : List Instr}
  {i : Instr} {x y s : Register}

theorem eq_of_result (h : P.Fits signature r) {j : Instr} (hi : i ∈ r.instrs) (hj : j ∈ r.instrs) (hix : i.result = some x)
    (hjx : j.result = some x) : i = j :=
  eq_of_filterMap_nodup (List.nodup_append.1 h.registers).2.1 hi hj hix hjx

theorem load_type (ha : Assembled p sigs a es fs main signature) (h : P.Fits signature r) {slot : Slot}
    (hs : slot ∈ P.frame) (hi : i ∈ r.instrs) {ty : MachineType} (hop : i.operation = .load ty (.register slot.register)) :
    ty = slot.kind.machineType := by
  have htyped := (h.isSsa ha).typed i hi
  rw [hop] at htyped
  rcases htyped with halloca | ⟨base, index, helement⟩
  · cases h.eq_of_result halloca (h.slot_mem hs) rfl rfl
    rfl
  · cases h.eq_of_result helement (h.slot_mem hs) rfl rfl

theorem unused_elsewhere (ha : Assembled p sigs a es fs main signature) (h : P.Fits signature r) (hk : k ∈ r.blocks)
    (hi : i ∈ k.instrs) (hx : i.result = some x) (hslot : i.slot? = none) {k' : Block} (hk' : k' ∈ r.blocks) (hne : k' ≠ k) :
    (∀ j ∈ k'.instrs, .register x ∉ j.operation.operands) ∧
      ∀ e, k'.terminator = some e → .register x ∉ e.operands := by
  have hri : i ∈ r.instrs := List.mem_flatMap.2 ⟨k, hk, hi⟩
  obtain ⟨-, hresults, hparams⟩ := List.nodup_append.1 h.registers
  have hscope : ∀ code : List Instr, (∀ j ∈ code, j ∈ k'.instrs) → ¬r.InScope k' code x := by
    rintro code hcode (hmem | ⟨-, hmem⟩ | ⟨-, hmem⟩)
    · obtain ⟨j, hj, hjx⟩ := List.mem_filterMap.1 hmem
      unfold Routine.instrs at hresults
      rw [List.filterMap_flatMap, List.nodup_flatMap] at hresults
      have hsymm : Std.Symm (Function.onFun List.Disjoint fun k : Block => k.instrs.filterMap Instr.result) :=
        ⟨fun _ _ hd _ h h' => hd h' h⟩
      have hdisjoint := hresults.2.forall hk hk' (Ne.symm hne)
      exact hdisjoint (List.mem_filterMap.2 ⟨i, hi, hx⟩) (List.mem_filterMap.2 ⟨j, hcode j hj, hjx⟩)
    · exact hparams x hmem x (List.mem_filterMap.2 ⟨i, hri, hx⟩) rfl
    · rw [h.slots_eq] at hmem
      obtain ⟨slot, hs, rfl⟩ := List.mem_map.1 hmem
      cases h.eq_of_result hri (h.slot_mem hs) hx rfl
      cases hslot
  have hssa := h.isSsa ha
  refine ⟨fun j hj hmem => ?_, fun e he hmem => ?_⟩
  · obtain ⟨before, after, hcode⟩ := List.append_of_mem hj
    exact hscope before (fun j' hj' => by rw [hcode]; exact List.mem_append_left _ hj')
      (hssa.uses k' hk' before j after hcode x hmem)
  · exact hscope k'.instrs (fun _ hj => hj) (hssa.uses_end k' hk' e he x hmem)

/-- **A buffer that a call gives is consumed once**, in the block of the call. -/
theorem consumedOnce (ha : Assembled p sigs a es fs main signature) (h : P.Fits signature r) (hk : k ∈ r.blocks)
    {callee : String} {ret : MachineType} {args : List (MachineType × Operand)} {variadic : Option (List MachineType)}
    (hcode : k.instrs = before ++ ⟨some x, .call callee ret args variadic⟩ :: after) (hgives : a.GivesBuffer callee) :
    ∃ e, k.terminator = some e ∧ ConsumedOnce r.slots x after e := by
  obtain ⟨t, e, m, he, hsteps, -, hends⟩ := h.block hk
  rw [hcode] at hsteps
  obtain ⟨u, -, u', hstep, hrest⟩ := Setting.steps_append.1 hsteps
  have hnew : u'.content x = some .owned ∧ ∀ slot ∈ P.frame, slot.register ≠ x := by
    cases hstep with
    | malloc _ _ fresh => exact ⟨by simp, fresh.slot⟩
    | external calls mem other =>
      rcases hgives with rfl | ⟨f, hf, hint, -⟩
      · exact absurd (by decide) other
      · exact absurd (List.mem_map_of_mem mem) (ha.notMem_names hf hint)
    | function calls user _ ret_type _ fresh =>
      rcases hgives with rfl | ⟨f, hf, -, hret⟩
      · exact absurd (by decide) user
      · obtain ⟨g, hg, htakes⟩ := ha.callee calls.known
        rw [hf] at hg
        cases hg
        have hptr : ret = .ptr := calls.ret_eq.trans (htakes.ret.symm.trans hret)
        exact ⟨by simp [hptr], fresh.slot⟩
  rw [h.slots_eq]
  exact ⟨e, he, hrest.consumedOnce hends hnew.1 hnew.2⟩

/-- **A slot whose buffer is freed is filled before it is read again**, or the routine returns. -/
theorem restoredFirst (ha : Assembled p sigs a es fs main signature) (h : P.Fits signature r) (hk : k ∈ r.blocks)
    (hcode : k.instrs = before ++ ⟨some y, .load .ptr (.register s)⟩ :: (middle ++ i :: after))
    (hfree : i.callee? = some "free") (hmem : .register y ∈ i.operation.operands) :
    (∀ j ∈ middle, ¬j.Loads s) ∧ ∃ e, k.terminator = some e ∧ RestoredFirst s after e := by
  obtain ⟨t, e, m, he, hsteps, -, hends⟩ := h.block hk
  rw [hcode] at hsteps
  obtain ⟨u₀, -, u, hload, hrest⟩ := Setting.steps_append.1 hsteps
  obtain ⟨v, hmiddle, w, hstep, hafter⟩ := Setting.steps_append.1 hrest
  have hin : ∀ j ∈ middle ++ i :: after, j ∈ r.instrs := by
    intro j hj
    refine List.mem_flatMap.2 ⟨k, hk, ?_⟩
    rw [hcode]
    exact List.mem_append_right _ (List.mem_cons_of_mem _ hj)
  cases hload with
  | @loadPointer slot _ hs hheap _ fresh =>
    have htype : ∀ j ∈ middle ++ i :: after, ∀ ty, j.operation = .load ty (.register slot.register) → ty = .ptr := by
      intro j hj ty hop
      rw [h.load_type ha hs (hin j hj) hop]
      cases hkind : slot.kind with
      | int =>
        rw [hkind] at hheap
        cases hheap
      | string | array => rfl
    have hview : v.content y = some (.view slot.register) := by
      refine (hmiddle.view_cases fresh.slot (by simp)).resolve_right fun hspent => ?_
      exact (hstep.spent hspent fresh.slot).1 hmem
    obtain ⟨hstale, hlatest⟩ := hstep.frees_view hfree hmem hview
    refine ⟨fun j hj => ?_, e, he, ?_⟩
    · rintro ⟨ty, hop⟩
      obtain rfl := htype j (List.mem_append_left _ hj) ty hop
      exact hmiddle.not_loads fresh.slot (by simp) hview hlatest j hj hop
    · exact hafter.restoredFirst hends hstale fun j hj =>
        htype j (List.mem_append_right _ (List.mem_cons_of_mem _ hj))

end Plan.Fits

namespace Program
variable {p : Program} {sigs : Signatures} {options : LowerOptions} {a : Assembly} {r : Routine} {k : Block}

/-- **Lowered programs use buffers linearly.**  In every block, a register that `malloc` or a function gives a buffer to is
freed, stored in a slot or returned once by the rest of the block, and used neither after that nor in any other block.  And
when what was loaded from a slot is freed, the slot is not loaded from again before the block stores in it, or the block
returns. -/
theorem linear_of_lower (h : p.lower sigs options = .ok a) (hr : r ∈ a.routines) (hi : r.isExternal = false)
    (hk : k ∈ r.blocks) : ∃ e, k.terminator = some e ∧
      (∀ before x callee ret args variadic after, k.instrs = before ++ ⟨some x, .call callee ret args variadic⟩ :: after →
        a.GivesBuffer callee → ConsumedOnce r.slots x after e ∧
          ∀ k' ∈ r.blocks, k' ≠ k → (∀ j ∈ k'.instrs, .register x ∉ j.operation.operands) ∧
            ∀ e', k'.terminator = some e' → .register x ∉ e'.operands) ∧
      ∀ before y s middle i after, k.instrs = before ++ ⟨some y, .load .ptr (.register s)⟩ :: (middle ++ i :: after) →
        i.callee? = some "free" → .register y ∈ i.operation.operands →
          (∀ j ∈ middle, ¬j.Loads s) ∧ RestoredFirst s after e := by
  obtain ⟨es, fs, main, signature, ha⟩ := assembled_of_lower h
  obtain ⟨P, hP⟩ := ha.plan hr hi
  obtain ⟨-, e, -, he, -⟩ := hP.block hk
  refine ⟨e, he, fun before x callee ret args variadic after hcode hgives => ⟨?_, fun k' hk' hne => ?_⟩,
    fun before y s middle i after hcode hfree hmem => ?_⟩
  · obtain ⟨e', he', hconsumed⟩ := hP.consumedOnce ha hk hcode hgives
    rw [he] at he'
    cases he'
    exact hconsumed
  · have hmem : ⟨some x, .call callee ret args variadic⟩ ∈ k.instrs := by simp [hcode]
    exact hP.unused_elsewhere ha hk hmem rfl rfl hk' hne
  · obtain ⟨hmiddle, e', he', hrestored⟩ := hP.restoredFirst ha hk hcode hfree hmem
    rw [he] at he'
    cases he'
    exact ⟨hmiddle, hrestored⟩

/-- A text that is replaced by itself twice over. -/
def doubling : Program :=
  let here : Span := ⟨⟨1, 1, 0⟩, ⟨1, 1, 0⟩⟩
  ⟨[.make ⟨"s", here⟩ (.string "ab" here) here,
    .assign ⟨"s", here⟩ (.binary .add (.var "s" here) (.var "s" here) here) here], here⟩

theorem doubling_linear : ∃ a r k, doubling.lower (Signatures.infer doubling) .standard = .ok a ∧ r ∈ a.routines ∧
    k ∈ r.blocks ∧ k.instrs.countP (fun i => i.callee? == some "malloc") = 2 ∧
    (∃ before x ret args variadic after, k.instrs = before ++ ⟨some x, .call "malloc" ret args variadic⟩ :: after ∧
      ∃ e, k.terminator = some e ∧ ConsumedOnce r.slots x after e) := by
  have hany : ((doubling.lower (Signatures.infer doubling) .standard).toOption.any fun a => a.routines.any fun r =>
      !r.isExternal && r.blocks.any fun k => k.instrs.countP (fun i => i.callee? == some "malloc") == 2 &&
        k.instrs.any fun i => i.result.isSome && i.callee? == some "malloc") = true := by decide +kernel
  obtain ⟨a, ha, hany⟩ := exists_of_any hany
  obtain ⟨r, hr, hr'⟩ := List.any_eq_true.1 hany
  simp only [Bool.and_eq_true, Bool.not_eq_true'] at hr'
  obtain ⟨k, hk, hk'⟩ := List.any_eq_true.1 hr'.2
  simp only [Bool.and_eq_true, beq_iff_eq] at hk'
  obtain ⟨i, hi, hcall⟩ := List.any_eq_true.1 hk'.2
  simp only [Bool.and_eq_true, Option.isSome_iff_exists, beq_iff_eq] at hcall
  obtain ⟨e, he, hlinear, -⟩ := linear_of_lower ha hr hr'.1 hk
  obtain ⟨before, after, hcode⟩ := List.append_of_mem hi
  obtain ⟨⟨x, hx⟩, hcallee⟩ := hcall
  obtain ⟨result, operation⟩ := i
  obtain rfl : result = some x := hx
  cases operation with
  | call callee ret args variadic =>
    cases hcallee
    exact ⟨a, r, k, ha, hr, hk, hk'.1, before, x, _, _, _, after, hcode, e, he, (hlinear _ _ _ _ _ _ _ hcode (.inl rfl)).1⟩
  | _ => cases hcallee

end Program
end QuillLang
