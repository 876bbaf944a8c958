import QuillLang.Proofs.Machine.Sound
/-!
# Instructions that keep to the discipline

An instruction that the discipline allows is safe on a machine that is as it is known, and what is known after it is true
again (`Machine.perform_safe`).  A call of a function is left open here, as it does more than one thing to the machine.
-/
namespace QuillLang

variable {a : Assembly} {w : Answer} {m : Machine} {S : Setting} {t t' : Known} {id : Nat}

/-! ## Operands -/

namespace Machine

theorem eval_register {r : Register} {v : Value} (h : m.running.registers r = some v) :
    m.eval a v.type (.register r) = .ok v := by
  simp [eval, h]

theorem register_of_eval {r : Register} {ty : MachineType} {v : Value} (h : m.eval a ty (.register r) = .ok v) :
    m.running.registers r = some v := by
  cases hr : m.running.registers r with
  | none => simp [eval, hr, stuck] at h
  | some x =>
    simp only [eval, hr] at h
    split at h
    · cases h
      rfl
    · cases h

theorem pointer_register {r : Register} {p : Pointer} (h : m.running.registers r = some (.ptr p)) :
    m.pointer a (.register r) = .ok p := by
  have he := eval_register (a := a) h
  unfold pointer
  rw [show MachineType.ptr = (Value.ptr p).type from rfl, he]
  rfl

end Machine

namespace Agrees
variable {F : Frame} {birth : Register → Nat} {slots : Register → Option Value} {heap : List Buffer} {v : Operand}
  {ty : MachineType} {p : Pointer}

theorem eval_ok (h : Agrees a F birth t id m.running.registers slots heap) (hv : t.HasType v ty) (hl : a.Links v) :
    ∃ x, m.eval a ty v = .ok x ∧ x.type = ty := by
  cases v with
  | register r =>
    obtain ⟨c, hc, rfl⟩ := hv
    obtain ⟨x, hx, hty⟩ := h.typed r c hc
    exact ⟨x, hty ▸ Machine.eval_register hx, hty⟩
  | int n =>
    rcases hv with rfl | rfl
    · exact ⟨.i64 n, rfl, rfl⟩
    · exact ⟨.i32 n.toInt32, rfl, rfl⟩
  | float bits =>
    obtain rfl : ty = .double := hv
    exact ⟨.double bits, rfl, rfl⟩
  | null =>
    obtain rfl : ty = .ptr := hv
    exact ⟨.ptr .null, rfl, rfl⟩
  | global g =>
    obtain rfl : ty = .ptr := hv
    exact ⟨.ptr (.global g), if_pos ⟨rfl, hl g rfl⟩, rfl⟩

theorem number_ok (h : Agrees a F birth t id m.running.registers slots heap) (hv : t.HasType v .i64) (hl : a.Links v) :
    ∃ n, m.eval a .i64 v = .ok (.i64 n) ∧ m.number a v = .ok n := by
  obtain ⟨x, hx, hty⟩ := h.eval_ok hv hl
  obtain ⟨n, rfl⟩ := Value.eq_i64 hty
  refine ⟨n, hx, ?_⟩
  unfold Machine.number
  rw [hx]
  rfl

theorem owned_value (h : Agrees a F birth t id m.running.registers slots heap) {r : Register}
    (hr : t.content r = some .owned) : ∃ p, m.running.registers r = some (.ptr p) ∧ OwnedBy heap id p :=
  h.ledger.owned (.register r) hr

theorem view_value (h : Agrees a F birth t id m.running.registers slots heap) {r s : Register}
    (hr : t.content r = some (.view s)) :
    ∃ p, m.running.registers r = some (.ptr p) ∧ slots s = some (.ptr p) ∧ OwnedBy heap id p := by
  obtain ⟨hs, hready, he⟩ := h.view r s hr
  obtain ⟨p, hp, hown⟩ := h.ledger.owned (.slot s) ⟨hs, hready⟩
  have hp : slots s = some (.ptr p) := hp
  exact ⟨p, he.trans hp, hp, hown⟩

theorem cell_value (h : Agrees a F birth t id m.running.registers slots heap) {r s : Register}
    (hr : t.content r = some (.cell s)) :
    ∃ p n, m.running.registers r = some (.ptr (p.element n)) ∧ OwnedBy heap id p := by
  obtain ⟨hs, hready, p, n, hp, he⟩ := h.cell r s hr
  obtain ⟨q, hq, hown⟩ := h.ledger.owned (.slot s) ⟨hs, hready⟩
  have hq : slots s = some (.ptr q) := hq
  rw [hp] at hq
  cases hq
  exact ⟨p, n, he, hown⟩

theorem lent_of_readable (h : Agrees a F birth t id m.running.registers slots heap) (hv : t.Readable v) (hl : a.Links v)
    {x : Value} (hx : m.eval a .ptr v = .ok x) : ∃ p, x = .ptr p ∧ LentTo a heap (id + 1) p := by
  have hregister : ∀ {r : Register} {p : Pointer}, v = .register r → m.running.registers r = some (.ptr p) →
      x = .ptr p := by
    rintro r p rfl hp
    exact Option.some.inj ((Machine.register_of_eval hx).symm.trans hp)
  cases v with
  | register r =>
    obtain ⟨c, hc, htext⟩ := hv
    cases c with
    | owned =>
      obtain ⟨p, hp, hown⟩ := h.owned_value hc
      exact ⟨p, hregister rfl hp, hown.lentTo (by omega)⟩
    | view s =>
      obtain ⟨p, hp, -, hown⟩ := h.view_value hc
      exact ⟨p, hregister rfl hp, hown.lentTo (by omega)⟩
    | argument =>
      obtain ⟨p, hp, hlent⟩ := h.argument r hc
      exact ⟨p, hregister rfl hp, hlent.mono (by omega)⟩
    | plain | cell => cases htext
  | global g =>
    have hg := hl g rfl
    have he : m.eval a .ptr (.global g) = .ok (.ptr (.global g)) := if_pos ⟨rfl, hg⟩
    rw [he] at hx
    cases hx
    exact ⟨_, rfl, .inr (.inl ⟨g, rfl, hg⟩)⟩
  | int | float | null => exact hv.elim

theorem args_safe (h : Agrees a F birth t id m.running.registers slots heap) {args : List (MachineType × Operand)}
    (hty : ∀ x ∈ args, t.HasType x.2 x.1) (hl : ∀ x ∈ args, a.Links x.2) :
    Safe (args.mapM fun x => m.eval a x.1 x.2)
      (List.Forall₂ (fun x v => m.eval a x.1 x.2 = .ok v ∧ v.type = x.1) args) := by
  refine Safe.mapM fun x hx => ?_
  obtain ⟨v, hv, htv⟩ := h.eval_ok (hty x hx) (hl x hx)
  exact .of_eq hv ⟨hv, htv⟩

end Agrees

/-! ## Operations -/

theorem ArithOp.type_eq (op : ArithOp) : op.type = .i64 ∨ op.type = .double := by
  cases op <;> simp [ArithOp.type]

namespace Value

theorem arith_ok (w : Answer) {op : ArithOp} {x y : Value} (hx : x.type = op.type) (hy : y.type = op.type) :
    ∃ v, x.arith w op y = .ok v ∧ v.type = op.type := by
  rcases op.type_eq with he | he
  all_goals rw [he] at hx hy ⊢
  · obtain ⟨n, rfl⟩ := eq_i64 hx
    obtain ⟨k, rfl⟩ := eq_i64 hy
    exact ⟨_, rfl, rfl⟩
  · obtain ⟨n, rfl⟩ := eq_double hx
    obtain ⟨k, rfl⟩ := eq_double hy
    exact ⟨_, rfl, rfl⟩

theorem compare_ok (op : CompareOp) {ty : MachineType} {x y : Value} (hty : ty = .i64 ∨ ty = .i32) (hx : x.type = ty)
    (hy : y.type = ty) : ∃ v, x.compare op y = .ok v ∧ v.type = .i1 := by
  rcases hty with rfl | rfl
  · obtain ⟨n, rfl⟩ := eq_i64 hx
    obtain ⟨k, rfl⟩ := eq_i64 hy
    exact ⟨_, rfl, rfl⟩
  · obtain ⟨n, rfl⟩ := eq_i32 hx
    obtain ⟨k, rfl⟩ := eq_i32 hy
    exact ⟨_, rfl, rfl⟩

theorem cast_ok (w : Answer) {op : CastOp} {x : Value} (hx : x.type = op.source) :
    ∃ v, x.cast w op = .ok v ∧ v.type = op.target := by
  cases op with
  | zext =>
    obtain ⟨b, rfl⟩ := eq_i1 hx
    exact ⟨_, rfl, rfl⟩
  | trunc | sitofp =>
    obtain ⟨n, rfl⟩ := eq_i64 hx
    exact ⟨_, rfl, rfl⟩
  | fptosi =>
    obtain ⟨n, rfl⟩ := eq_double hx
    exact ⟨_, rfl, rfl⟩

end Value

/-! ## Memory -/

namespace Machine
variable {p : Pointer} {n : Int64}

theorem cell_safe (h : OwnedBy m.heap id p) : Safe (m.cell (p.element n)) fun c => m.heap[c.1]? = some c.2.1 := by
  rcases h with rfl | ⟨b, rfl, k, hk, hlive, -⟩
  · exact .inr rfl
  · show Safe (m.cell (.heap b (0 + 8 * n.toInt))) _
    simp only [cell, hk, hlive, Bool.true_eq_false, if_false]
    split
    · exact hk
    · exact .inr rfl

theorem read_cell_safe (h : OwnedBy m.heap id p) : Safe (m.read .i64 (p.element n)) fun v => v.type = .i64 := by
  have hread : m.read .i64 (p.element n) = (m.cell (p.element n) >>= fun c => .ok (.i64 (c.2.1.cells c.2.2))) := by
    rcases h with rfl | ⟨b, rfl, -⟩ <;> rfl
  rw [hread]
  exact (cell_safe h).bind fun _ _ => rfl

theorem write_cell_safe (h : OwnedBy m.heap id p) (x : Int64) :
    Safe (m.write (p.element n) (.i64 x)) (m.SameLives ·) := by
  have hwrite : m.write (p.element n) (.i64 x) = (m.cell (p.element n) >>= fun c =>
      .ok (m.setBuffer c.1 { c.2.1 with cells := fun j => if j = c.2.2 then x else c.2.1.cells j })) := by
    rcases h with rfl | ⟨b, rfl, -⟩ <;> rfl
  rw [hwrite]
  exact (cell_safe h).bind fun c hc => sameLives_setBuffer hc rfl rfl

theorem read_slot {i : Nat} {r : Register} {v : Value} (h : m.slots i r = some v) : m.read v.type (.slot i r) = .ok v := by
  simp [read, h]

theorem beside_setSlot (r : Register) (v : Value) : m.Beside (m.setSlot m.running.id r v) :=
  .of_iff rfl rfl rfl (fun _ hi => if_neg hi) fun _ _ _ => Iff.rfl

theorem slots_setSlot (r : Register) (v : Value) :
    (m.setSlot m.running.id r v).slots m.running.id = override (m.slots m.running.id) r v := if_pos rfl

theorem owns_malloc {size : Int64} {o b : Nat} :
    Owns (m.malloc w size).1.heap o b ↔ Owns m.heap o b ∨ (b = m.heap.length ∧ m.running.id = o) := Owns.append_iff rfl

theorem beside_malloc (size : Int64) : m.Beside (m.malloc w size).1 := by
  refine .of_iff rfl rfl rfl (fun _ _ => rfl) fun o b ho => ?_
  rw [owns_malloc]
  constructor
  · rintro (h | ⟨-, h⟩)
    · exact h
    · exact absurd h.symm ho
  · exact .inl

/-- **What the running activation owns may be freed.** -/
theorem free_ok (h : OwnedBy m.heap m.running.id p) : ∃ m', m.free p = .ok m' ∧ m.Beside m' ∧ m'.slots = m.slots ∧
    ∀ o b, Owns m'.heap o b ↔ Owns m.heap o b ∧ p ≠ .heap b 0 := by
  rcases h with rfl | ⟨b, rfl, hb⟩
  · exact ⟨m, rfl, (SameLives.refl m).beside, rfl, fun o c => by simp⟩
  · obtain ⟨k, hk, hlive, howner⟩ := hb
    have howns : ∀ o c, Owns (m.setBuffer b { k with live := false }).heap o c ↔
        Owns m.heap o c ∧ Pointer.heap b 0 ≠ .heap c 0 := fun o c => by
      rw [ne_eq, Pointer.heap.injEq, and_iff_left rfl]
      exact Owns.set_dead_iff rfl
    refine ⟨m.setBuffer b { k with live := false }, by simp [free, hk, hlive],
      .of_iff rfl rfl rfl (fun _ _ => rfl) (fun o c ho => ?_), rfl, howns⟩
    rw [howns]
    refine and_iff_left_of_imp fun hc hbc => ?_
    cases hbc
    exact ho (hc.unique ⟨k, hk, hlive, howner⟩)

/-! ## Instructions -/

/-- An instruction is done, and what is known after it is true of the running activation. -/
def Did (a : Assembly) (S : Setting) (t : Known) (m : Machine) (result : Option Register) (m' : Machine) : Prop :=
  ∃ m₁ v, m' = m₁.finish result v ∧ m.Beside m₁ ∧ Agrees a S.frame S.birth t m.running.id
    (result.elim m.running.registers fun r => override m.running.registers r v) (m₁.slots m.running.id) m₁.heap

def Is (a : Assembly) (S : Setting) (t : Known) (m : Machine) : Prop :=
  Agrees a S.frame S.birth t m.running.id m.running.registers (m.slots m.running.id) m.heap

theorem beside_self (m : Machine) : m.Beside m := (SameLives.refl m).beside

theorem Is.sameLives {m₁ : Machine} (h : m.Is a S t) (hm : m.SameLives m₁) :
    Agrees a S.frame S.birth t m.running.id m.running.registers (m₁.slots m.running.id) m₁.heap := by
  rw [hm.slots]
  exact h.heap_changes (fun b => hm.owns _ b) fun b o _ hb => (hm.owns o b).2 hb

theorem Is.did_define {m₁ : Machine} (h : m.Is a S t) (hm : m.SameLives m₁) {r : Register} {c : Content} {v : Value}
    (hfresh : S.Fresh t r) (hv : Agrees.Fits S.frame t (m.slots m.running.id) v c) :
    m.Did a S (t.define r c) (some r) (m₁.finish (some r) v) :=
  ⟨m₁, v, rfl, hm.beside, (h.sameLives hm).define hfresh.content hfresh.slot (by rw [hm.slots]; exact hv)⟩

theorem perform_load_slot {s r : Register} {v : Value}
    (haddress : m.running.registers s = some (.ptr (.slot m.running.id s))) (hslot : m.slots m.running.id s = some v) :
    m.perform a w ⟨some r, .load v.type (.register s)⟩ = .ok (m.finish (some r) v) := by
  unfold perform
  simp only [pointer_register haddress]
  show (m.read v.type (.slot m.running.id s) >>= fun v => Except.ok (m.finish (some r) v)) = _
  rw [read_slot hslot]
  rfl

theorem perform_store_slot {s : Register} {ty : MachineType} {value : Operand} {v : Value}
    (haddress : m.running.registers s = some (.ptr (.slot m.running.id s))) (hvalue : m.eval a ty value = .ok v) :
    m.perform a w ⟨none, .store ty value (.register s)⟩ = .ok ((m.setSlot m.running.id s v).finish none v) := by
  unfold perform
  simp only [hvalue, pointer_register haddress]
  rfl

theorem Is.load_slot (h : m.Is a S t) {slot : Slot} {v : Value} {c : Content} {r : Register} (hmem : slot ∈ S.frame)
    (hready : t.status slot.register = .ready) (hslot : m.slots m.running.id slot.register = some v)
    (hfresh : S.Fresh t r) (hv : Agrees.Fits S.frame t (m.slots m.running.id) v c) :
    Safe (m.perform a w ⟨some r, .load v.type (.register slot.register)⟩) (m.Did a S (t.define r c) (some r)) := by
  have haddress := h.address slot hmem (by rw [hready]; simp)
  exact .of_eq (perform_load_slot haddress hslot) (h.did_define (.refl m) hfresh hv)

theorem Is.store_slot (h : m.Is a S t) {slot : Slot} {v : Value} {value : Operand} (hmem : slot ∈ S.frame)
    (hpresent : t.status slot.register ≠ .absent) (hvalue : m.eval a v.type value = .ok v)
    (hagrees : Agrees a S.frame S.birth t' m.running.id m.running.registers
      (override (m.slots m.running.id) slot.register v) m.heap) :
    Safe (m.perform a w ⟨none, .store v.type value (.register slot.register)⟩) (m.Did a S t' none) := by
  have haddress := h.address slot hmem hpresent
  refine .of_eq (perform_store_slot haddress hvalue) ⟨_, v, rfl, beside_setSlot _ _, ?_⟩
  rw [slots_setSlot]
  exact hagrees

theorem Is.load_cell (h : m.Is a S t) {address s r : Register} (hcell : t.content address = some (.cell s))
    (hfresh : S.Fresh t r) :
    Safe (m.perform a w ⟨some r, .load .i64 (.register address)⟩)
      (m.Did a S (t.define r (.plain .i64)) (some r)) := by
  obtain ⟨p, n, haddress, hown⟩ := h.cell_value hcell
  unfold perform
  simp only [pointer_register haddress]
  exact (read_cell_safe hown).bind fun v hv => h.did_define (.refl m) hfresh hv

theorem Is.store_cell (h : m.Is a S t) {address s : Register} {value : Operand}
    (hcell : t.content address = some (.cell s)) (hvalue : t.HasType value .i64) (hl : a.Links value) :
    Safe (m.perform a w ⟨none, .store .i64 value (.register address)⟩) (m.Did a S t none) := by
  obtain ⟨p, n, haddress, hown⟩ := h.cell_value hcell
  obtain ⟨x, hx, -⟩ := h.number_ok hvalue hl
  unfold perform
  simp only [hx, pointer_register haddress]
  exact (write_cell_safe hown x).bind fun m₁ hm₁ => ⟨m₁, _, rfl, hm₁.beside, h.sameLives hm₁⟩

theorem Is.element_safe (h : m.Is a S t) {s base r : Register} {index : Operand} (hview : t.content base = some (.view s))
    (hindex : t.HasType index .i64) (hl : a.Links index) (hfresh : S.Fresh t r) :
    Safe (m.perform a w ⟨some r, .element .i64 (.register base) index⟩) (m.Did a S (t.define r (.cell s)) (some r)) := by
  obtain ⟨hs, hready, -⟩ := h.view base s hview
  obtain ⟨p, hp, hslot, -⟩ := h.view_value hview
  obtain ⟨n, -, hn⟩ := h.number_ok hindex hl
  have heq : m.perform a w ⟨some r, .element .i64 (.register base) index⟩ =
      .ok (m.finish (some r) (.ptr (p.element n))) := by
    unfold perform
    simp only [pointer_register hp, hn]
    rfl
  exact .of_eq heq (h.did_define (.refl m) hfresh ⟨hs, hready, p, n, hslot, rfl⟩)

theorem Is.arith_safe (h : m.Is a S t) {op : ArithOp} {lhs rhs : Operand} {r : Register} (hleft : t.HasType lhs op.type)
    (hright : t.HasType rhs op.type) (hl : ∀ v ∈ [lhs, rhs], a.Links v) (hfresh : S.Fresh t r) :
    Safe (m.perform a w ⟨some r, .arith op op.type lhs rhs⟩) (m.Did a S (t.define r (.plain op.type)) (some r)) := by
  obtain ⟨x, hx, hxty⟩ := h.eval_ok hleft (hl lhs (by simp))
  obtain ⟨y, hy, hyty⟩ := h.eval_ok hright (hl rhs (by simp))
  obtain ⟨v, hv, hvty⟩ := Value.arith_ok w hxty hyty
  have heq : m.perform a w ⟨some r, .arith op op.type lhs rhs⟩ = .ok (m.finish (some r) v) := by
    unfold perform
    simp only [hx, hy]
    show (x.arith w op y >>= fun v => Except.ok (m.finish (some r) v)) = _
    rw [hv]
    rfl
  exact .of_eq heq (h.did_define (.refl m) hfresh hvty)

theorem Is.compare_safe (h : m.Is a S t) {op : CompareOp} {ty : MachineType} {lhs rhs : Operand} {r : Register}
    (hnumber : ty = .i64 ∨ ty = .i32) (hleft : t.HasType lhs ty) (hright : t.HasType rhs ty)
    (hl : ∀ v ∈ [lhs, rhs], a.Links v) (hfresh : S.Fresh t r) :
    Safe (m.perform a w ⟨some r, .compare op ty lhs rhs⟩) (m.Did a S (t.define r (.plain .i1)) (some r)) := by
  obtain ⟨x, hx, hxty⟩ := h.eval_ok hleft (hl lhs (by simp))
  obtain ⟨y, hy, hyty⟩ := h.eval_ok hright (hl rhs (by simp))
  obtain ⟨v, hv, hvty⟩ := Value.compare_ok op hnumber hxty hyty
  have heq : m.perform a w ⟨some r, .compare op ty lhs rhs⟩ = .ok (m.finish (some r) v) := by
    unfold perform
    simp only [hx, hy]
    show (x.compare op y >>= fun v => Except.ok (m.finish (some r) v)) = _
    rw [hv]
    rfl
  exact .of_eq heq (h.did_define (.refl m) hfresh hvty)

theorem Is.cast_safe (h : m.Is a S t) {op : CastOp} {v : Operand} {r : Register} (hvalue : t.HasType v op.source)
    (hl : a.Links v) (hfresh : S.Fresh t r) : Safe (m.perform a w ⟨some r, .cast op v op.source op.target⟩)
      (m.Did a S (t.define r (.plain op.target)) (some r)) := by
  obtain ⟨x, hx, hxty⟩ := h.eval_ok hvalue hl
  obtain ⟨y, hy, hyty⟩ := Value.cast_ok w hxty
  have heq : m.perform a w ⟨some r, .cast op v op.source op.target⟩ = .ok (m.finish (some r) y) := by
    unfold perform
    simp only [hx]
    show (x.cast w op >>= fun v => Except.ok (m.finish (some r) v)) = _
    rw [hy]
    rfl
  exact .of_eq heq (h.did_define (.refl m) hfresh hyty)

/-! ## Calls of external routines -/

theorem call_external {result : Option Register} {callee : String} {ret : MachineType}
    {args : List (MachineType × Operand)} {f : Routine} (hf : a.routine? callee = some f) (hext : f.isExternal = true) :
    m.call a w result callee ret args =
      (args.mapM (fun x => m.eval a x.1 x.2) >>= fun vs => m.callExternal a w result callee ret vs) := by
  unfold call
  simp only [hf, hext, if_true]

theorem call_external_one {result : Option Register} {callee : String} {ret : MachineType} {v : Value} {x : Operand}
    {f : Routine} (hf : a.routine? callee = some f) (hext : f.isExternal = true) (hx : m.eval a v.type x = .ok v) :
    m.call a w result callee ret [(v.type, x)] = m.callExternal a w result callee ret [v] := by
  rw [call_external hf hext]
  simp only [List.mapM_cons, List.mapM_nil, hx]
  rfl

theorem free_call_ok {p : Pointer} {r : Register} {f : Routine} (hf : a.routine? "free" = some f)
    (hext : f.isExternal = true) (hr : m.running.registers r = some (.ptr p)) (hown : OwnedBy m.heap m.running.id p) :
    ∃ m₁, m.perform a w ⟨none, .call "free" .void [(.ptr, .register r)] none⟩ = .ok (m₁.finish none (.ptr .null)) ∧
      m.Beside m₁ ∧ m₁.slots = m.slots ∧ (∀ b, Owns m₁.heap m.running.id b ↔ Owns m.heap m.running.id b ∧ p ≠ .heap b 0) ∧
      ∀ b o, o < m.running.id → Owns m.heap o b → Owns m₁.heap o b := by
  obtain ⟨m₁, hfree, hm₁, hslots, howns⟩ := free_ok hown
  refine ⟨m₁, ?_, hm₁, hslots, fun b => howns _ b, fun b o ho hb => (hm₁.owns_below o b ho).2 hb⟩
  show m.call a w none "free" .void [((Value.ptr p).type, .register r)] = _
  rw [call_external_one hf hext (eval_register hr)]
  show (m.free p >>= fun m' => Except.ok (m'.finish none (.ptr .null))) = _
  rw [hfree]
  rfl

theorem Is.freeOwned_safe (h : m.Is a S t) {r : Register} {f : Routine} (hf : a.routine? "free" = some f)
    (hext : f.isExternal = true) (howned : t.content r = some .owned) :
    Safe (m.perform a w ⟨none, .call "free" .void [(.ptr, .register r)] none⟩)
      (m.Did a S (t.define r (.plain .ptr)) none) := by
  obtain ⟨p, hp, hown⟩ := h.owned_value howned
  obtain ⟨m₁, heq, hm₁, hslots, hlose, hlow⟩ := free_call_ok (w := w) hf hext hp hown
  refine .of_eq heq ⟨m₁, _, rfl, hm₁, ?_⟩
  rw [hslots]
  exact h.give_up howned hp hlose hlow

theorem Is.freeView_safe (h : m.Is a S t) {s r : Register} {f : Routine} (hf : a.routine? "free" = some f)
    (hext : f.isExternal = true) (hs : S.frame.HasHeap s) (hready : t.status s = .ready)
    (hview : t.content r = some (.view s)) :
    Safe (m.perform a w ⟨none, .call "free" .void [(.ptr, .register r)] none⟩) (m.Did a S (t.release s) none) := by
  obtain ⟨p, hp, hslot, hown⟩ := h.view_value hview
  obtain ⟨m₁, heq, hm₁, hslots, hlose, hlow⟩ := free_call_ok (w := w) hf hext hp hown
  refine .of_eq heq ⟨m₁, _, rfl, hm₁, ?_⟩
  rw [hslots]
  exact h.release hs hready hslot hlose hlow

theorem Is.exit_safe (h : m.Is a S t) {status : Operand} {f : Routine} (hf : a.routine? "exit" = some f)
    (hext : f.isExternal = true) (hvalue : t.HasType status .i32) (hl : a.Links status) {Q : Machine → Prop} :
    Safe (m.perform a w ⟨none, .call "exit" .void [(.i32, status)] none⟩) Q := by
  obtain ⟨x, hx, hxty⟩ := h.eval_ok hvalue hl
  obtain ⟨n, rfl⟩ := Value.eq_i32 hxty
  have heq : m.perform a w ⟨none, .call "exit" .void [(.i32, status)] none⟩ = .error (.exit n) := by
    show m.call a w none "exit" .void [((Value.i32 n).type, status)] = _
    rw [call_external_one hf hext hx]
    rfl
  rw [heq]
  trivial

theorem Is.malloc_safe (h : m.Is a S t) {size : Operand} {r : Register} {f : Routine} (hf : a.routine? "malloc" = some f)
    (hext : f.isExternal = true) (hsize : t.HasType size .i64) (hl : a.Links size) (hfresh : S.Fresh t r) :
    Safe (m.perform a w ⟨some r, .call "malloc" .ptr [(.i64, size)] none⟩) (m.Did a S (t.define r .owned) (some r)) := by
  obtain ⟨n, hn, -⟩ := h.number_ok hsize hl
  have hcall : m.perform a w ⟨some r, .call "malloc" .ptr [(.i64, size)] none⟩ =
      .ok ((m.malloc w n).1.finish (some r) (m.malloc w n).2) := by
    show m.call a w (some r) "malloc" .ptr [((Value.i64 n).type, size)] = _
    rw [call_external_one hf hext hn]
    rfl
  refine .of_eq hcall ⟨_, _, rfl, beside_malloc n, ?_⟩
  refine Agrees.obtain_buffer (p := .heap m.heap.length 0) h hfresh.content hfresh.slot (.inr ⟨_, rfl⟩) (fun b => ?_)
    (fun b hb hown => ?_) fun b o _ hb => owns_malloc.2 (.inl hb)
  · rw [owns_malloc]
    simp [eq_comm]
  · cases hb
    exact absurd hown.lt_length (by omega)

theorem Is.library_safe (h : m.Is a S t) {callee : String} {sig : CallSignature} {ret : MachineType}
    {args : List (MachineType × Operand)} {variadic : Option (List MachineType)} {result : Option Register} {f : Routine}
    (hf : a.routine? callee = some f) (hext : f.isExternal = true) (hl : ∀ x ∈ args, a.Links x.2)
    (hcalls : S.Calls t callee sig ret args variadic) (hmem : ⟨callee, sig⟩ ∈ External.core ++ External.graphics)
    (hother : callee ∉ ["malloc", "free", "exit"])
    (hwrites : callee ∈ External.writers →
      ∃ r, args.head?.map Prod.snd = some (.register r) ∧ t.content r = some .owned)
    (hreadable : ∀ x ∈ args, x.1 = .ptr → t.Readable x.2) (hgives : S.Result t ret result) :
    Safe (m.perform a w ⟨result, .call callee ret args variadic⟩)
      (m.Did a S (t.receive result (.plain ret)) result) := by
  show Safe (m.call a w result callee ret args) _
  rw [call_external hf hext]
  refine (h.args_safe hcalls.typed hl).bind fun vs hvs => ?_
  have htypes : vs.map Value.type = args.map Prod.fst := by
    clear hcalls hwrites hreadable hl
    induction hvs with
    | nil => rfl
    | cons hx _ ih => rw [List.map_cons, List.map_cons, hx.2, ih]
  have hlength : vs.length = args.length := hvs.length_eq.symm
  have hlent : ∀ p, .ptr p ∈ vs → LentTo a m.heap (m.running.id + 1) p := by
    intro p hp
    obtain ⟨x, hx, heval, hty⟩ := exists_of_forall₂ hvs hp
    have hptr : x.1 = .ptr := hty.symm
    rw [hptr] at heval
    obtain ⟨q, hq, hlent⟩ := h.lent_of_readable (hreadable x hx hptr) (hl x hx) heval
    cases hq
    exact hlent
  have hfirst : callee ∈ External.writers → ∃ p, vs.head? = some (.ptr p) ∧ ∃ i, OwnedBy m.heap i p := by
    intro hw
    obtain ⟨r, hhead, hr⟩ := hwrites hw
    obtain ⟨p, hp, hown⟩ := h.owned_value hr
    cases hvs with
    | nil => cases hhead
    | cons hx _ =>
      obtain ⟨heval, -⟩ := hx
      rw [show _ = Operand.register r from Option.some.inj hhead] at heval
      exact ⟨p, (register_of_eval heval).symm.trans hp, _, hown⟩
  obtain ⟨hm, hfr, hex⟩ : callee ≠ "malloc" ∧ callee ≠ "free" ∧ callee ≠ "exit" := by simpa using hother
  unfold callExternal
  rw [if_neg hm, if_neg hfr, if_neg hex]
  have hparams : sig.params <+: vs.map Value.type := by
    rw [htypes]
    exact hcalls.fixed
  have hlib := callLibrary_safe (w := w) hmem hother hparams (fun hv => hlength.trans (hcalls.arity hv)) hlent hfirst
  rw [hcalls.ret_eq] at hgives ⊢
  refine hlib.bind fun x hx => ?_
  cases result with
  | none => exact ⟨x.1, x.2, rfl, hx.1.beside, h.sameLives hx.1⟩
  | some r => exact h.did_define hx.1 hgives.2 (hx.2 hgives.1)

end Machine

structure Setting.CallsFunction (S : Setting) (t : Known) (callee : String) (sig : CallSignature) (ret : MachineType)
    (args : List (MachineType × Operand)) (variadic : Option (List MachineType)) (r : Register) : Prop where
  calls : S.Calls t callee sig ret args variadic
  user : callee ∉ External.names
  fixed : sig.isVariadic = false
  ret_type : ret = .i64 ∨ ret = .ptr
  readable : ∀ x ∈ args, x.1 = .ptr → t.Readable x.2
  fresh : S.Fresh t r

namespace Machine

/-! ## All instructions -/

/-- **Instructions are safe**: the machine goes on as it is known to, or stops at null or outside an array.  What a call of
a function does is up to `hfunction`. -/
theorem perform_safe (h : m.Is a S t) (hn : (S.frame.map Slot.register).Nodup) {i : Instr}
    (hl : ∀ v ∈ i.operation.operands, a.Links v)
    (hcallee : ∀ name sig, S.signature name = some sig → name ∈ External.names →
      ∃ f, a.routine? name = some f ∧ f.isExternal = true)
    (hstep : S.Step t i t') {Q : Machine → Prop} (hdid : ∀ m', t'.dead = t.dead → m.Did a S t' i.result m' → Q m')
    (hfunction : ∀ callee sig ret args variadic r, i = ⟨some r, .call callee ret args variadic⟩ →
      t' = t.define r (.returned ret) → S.CallsFunction t callee sig ret args variadic r → Safe (m.perform a w i) Q) :
    Safe (m.perform a w i) Q := by
  cases hstep with
  | @alloca slot hmem habsent =>
    exact hdid _ rfl ⟨m, _, rfl, beside_self m, h.alloca hmem habsent⟩
  | @storeNumber slot v hmem hkind hpresent hvalue =>
    obtain ⟨n, hv, -⟩ := h.number_ok hvalue (hl v (by simp [Operation.operands]))
    exact (h.store_slot (v := .i64 n) hmem hpresent hv (h.storeNumber hn hmem hkind hpresent n)).mono
      fun m' => hdid m' rfl
  | @storeNull slot hmem hheap hstale =>
    have hpresent : t.status slot.register ≠ .absent := by
      rw [hstale]
      simp
    exact (h.store_slot (v := .ptr .null) hmem hpresent rfl (h.storeNull hn hmem hheap hstale)).mono
      fun m' => hdid m' rfl
  | @storeOwned slot r hmem hheap howned hvacant =>
    obtain ⟨p, hp, -⟩ := h.owned_value howned
    have hpresent : t.status slot.register ≠ .absent := by
      rcases hvacant with hs | ⟨hs, -⟩ <;> rw [hs] <;> simp
    exact (h.store_slot hmem hpresent (eval_register hp) (h.fill hn hmem hheap howned hp hvacant)).mono
      fun m' => hdid m' rfl
  | @loadNumber slot r hmem hkind hready hfresh =>
    obtain ⟨n, hslot⟩ := h.number slot hmem hkind hready
    exact (h.load_slot (c := .plain .i64) hmem hready hslot hfresh rfl).mono fun m' => hdid m' rfl
  | @loadPointer slot r hmem hheap hready hfresh =>
    have hs : S.frame.HasHeap slot.register := ⟨slot, hmem, rfl, hheap⟩
    obtain ⟨p, hslot, -⟩ := h.ledger.owned (.slot slot.register) ⟨hs, hready⟩
    exact (h.load_slot (c := .view slot.register) hmem hready hslot hfresh ⟨hs, hready, hslot.symm⟩).mono
      fun m' => hdid m' rfl
  | element hview hindex hfresh =>
    exact (h.element_safe hview hindex (hl _ (by simp [Operation.operands])) hfresh).mono fun m' => hdid m' rfl
  | loadCell hcell hfresh => exact (h.load_cell hcell hfresh).mono fun m' => hdid m' rfl
  | storeCell hcell hvalue =>
    exact (h.store_cell hcell hvalue (hl _ (by simp [Operation.operands]))).mono fun m' => hdid m' rfl
  | arith hleft hright hfresh => exact (h.arith_safe hleft hright hl hfresh).mono fun m' => hdid m' rfl
  | compare hnumber hleft hright hfresh =>
    exact (h.compare_safe hnumber hleft hright hl hfresh).mono fun m' => hdid m' rfl
  | cast hvalue hfresh =>
    exact (h.cast_safe hvalue (hl _ (by simp [Operation.operands])) hfresh).mono fun m' => hdid m' rfl
  | malloc hknown hvalue hfresh =>
    obtain ⟨f, hf, hext⟩ := hcallee _ _ hknown (by decide)
    exact (h.malloc_safe hf hext hvalue (hl _ (by simp [Operation.operands])) hfresh).mono fun m' => hdid m' rfl
  | freeOwned hknown howned =>
    obtain ⟨f, hf, hext⟩ := hcallee _ _ hknown (by decide)
    exact (h.freeOwned_safe hf hext howned).mono fun m' => hdid m' rfl
  | @freeView slot r hknown hmem hheap hready hview =>
    obtain ⟨f, hf, hext⟩ := hcallee _ _ hknown (by decide)
    exact (h.freeView_safe hf hext ⟨slot, hmem, rfl, hheap⟩ hready hview).mono fun m' => hdid m' rfl
  | exit hknown hvalue =>
    obtain ⟨f, hf, hext⟩ := hcallee _ _ hknown (by decide)
    exact h.exit_safe hf hext hvalue (hl _ (by simp [Operation.operands]))
  | @external callee sig ret args variadic result hcalls hmem hother hwrites hreadable hgives =>
    obtain ⟨f, hf, hext⟩ := hcallee _ _ hcalls.known (List.mem_map_of_mem (f := External.name) hmem)
    refine (h.library_safe hf hext (fun x hx => hl x.2 (List.mem_map_of_mem hx)) hcalls hmem hother hwrites hreadable
      hgives).mono fun m' => hdid m' ?_
    cases result <;> rfl
  | function hcalls huser hfixed hret hreadable hfresh =>
    exact hfunction _ _ _ _ _ _ rfl rfl ⟨hcalls, huser, hfixed, hret, hreadable, hfresh⟩

end Machine
end QuillLang
