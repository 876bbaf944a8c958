import QuillLang.Proofs.Machine.Ledger
import QuillLang.Proofs.Discipline.Plan
import Mathlib.Data.List.Nodup
/-!
# What is known is true

An activation agrees with what the discipline knows of its registers and slots.  The buffers it owns are exactly those held
by its registers in hand and by its ready slots.  Every rule of the discipline keeps this when the machine does what the
instruction says.
-/
namespace QuillLang

def Frame.HasHeap (F : Frame) (s : Register) : Prop := ∃ slot ∈ F, slot.register = s ∧ slot.kind.isHeap = true

def Known.Holder (t : Known) (F : Frame) : Place → Prop
  | .register r => t.content r = some .owned
  | .slot s => F.HasHeap s ∧ t.status s = .ready

theorem override_self (f : Register → Option Value) (r : Register) (v : Value) :
    override f r v r = some v := if_pos rfl

theorem override_of_ne {f : Register → Option Value} {r x : Register} {v : Value} (h : x ≠ r) :
    override f r v x = f x := if_neg h

theorem Place.value_register {registers slots : Register → Option Value} {x : Place} {r : Register} {v : Value}
    (hx : x ≠ .register r) : x.value (override registers r v) slots = x.value registers slots := by
  cases x with
  | register y => exact override_of_ne (fun he => hx (by rw [he]))
  | slot s => rfl

theorem Place.value_slot {registers slots : Register → Option Value} {x : Place} {s : Register} {v : Value}
    (hx : x ≠ .slot s) : x.value registers (override slots s v) = x.value registers slots := by
  cases x with
  | register y => rfl
  | slot y => exact override_of_ne (fun he => hx (by rw [he]))

/-- The registers, slots and buffers of activation `id` are as they are known. -/
structure Agrees (a : Assembly) (F : Frame) (birth : Register → Nat) (t : Known) (id : Nat)
    (registers slots : Register → Option Value) (heap : List Buffer) : Prop where
  apart : ∀ slot ∈ F, t.content slot.register = none
  typed : ∀ r c, t.content r = some c → ∃ v, registers r = some v ∧ v.type = c.type
  address : ∀ slot ∈ F, t.status slot.register ≠ .absent → registers slot.register = some (.ptr (.slot id slot.register))
  number : ∀ slot ∈ F, slot.kind = .int → t.status slot.register = .ready → ∃ n, slots slot.register = some (.i64 n)
  vacant : ∀ s, F.HasHeap s → t.status s = .ready → t.mark ≤ birth s → slots s = some (.ptr .null)
  view : ∀ r s, t.content r = some (.view s) → F.HasHeap s ∧ t.status s = .ready ∧ registers r = slots s
  cell : ∀ r s, t.content r = some (.cell s) → F.HasHeap s ∧ t.status s = .ready ∧
    ∃ p n, slots s = some (.ptr p) ∧ registers r = some (.ptr (p.element n))
  argument : ∀ r, t.content r = some .argument → ∃ p, registers r = some (.ptr p) ∧ LentTo a heap id p
  ledger : Ledger (t.Holder F) (Place.value registers slots) id heap

namespace Agrees
variable {a : Assembly} {F : Frame} {birth : Register → Nat} {t : Known} {id : Nat}
  {registers slots : Register → Option Value} {heap heap' : List Buffer}

theorem lent_changes {p : Pointer} (h : LentTo a heap id p) (hlow : ∀ b o, o < id → Owns heap o b → Owns heap' o b) :
    LentTo a heap' id p := by
  rcases h with rfl | hg | ⟨b, o, rfl, hb, hlt⟩
  · exact .inl rfl
  · exact .inr (.inl hg)
  · exact .inr (.inr ⟨b, o, rfl, hlow b o hlt hb, hlt⟩)

theorem heap_changes (h : Agrees a F birth t id registers slots heap) (hown : ∀ b, Owns heap' id b ↔ Owns heap id b)
    (hlow : ∀ b o, o < id → Owns heap o b → Owns heap' o b) : Agrees a F birth t id registers slots heap' := by
  refine ⟨h.apart, h.typed, h.address, h.number, h.vacant, h.view, h.cell, fun r hr => ?_,
    h.ledger.congr (fun _ => Iff.rfl) (fun _ _ => rfl) hown⟩
  obtain ⟨p, hp, hlent⟩ := h.argument r hr
  exact ⟨p, hp, lent_changes hlent hlow⟩

theorem ne_slot (h : Agrees a F birth t id registers slots heap) {r : Register} {c : Content} (hr : t.content r = some c) :
    ∀ slot ∈ F, r ≠ slot.register := by
  rintro slot hslot rfl
  rw [h.apart slot hslot] at hr
  cases hr

/-! ## Registers -/

theorem content_define_cases {r x : Register} {c d : Content} (h : (t.define r c).content x = some d) :
    (x = r ∧ d = c) ∨ (x ≠ r ∧ t.content x = some d) := by
  rw [Known.content_define] at h
  split at h
  · cases h
    exact .inl ⟨‹_›, rfl⟩
  · exact .inr ⟨‹_›, h⟩

def Fits (F : Frame) (t : Known) (slots : Register → Option Value) (v : Value) : Content → Prop
  | .plain ty => v.type = ty
  | .view s => F.HasHeap s ∧ t.status s = .ready ∧ some v = slots s
  | .cell s => F.HasHeap s ∧ t.status s = .ready ∧ ∃ p n, slots s = some (.ptr p) ∧ v = .ptr (p.element n)
  | .owned | .argument => False

theorem Fits.ne_owned {v : Value} {c : Content} (h : Fits F t slots v c) : c ≠ .owned := by
  rintro rfl
  exact h

theorem define (h : Agrees a F birth t id registers slots heap) {r : Register} {c : Content} {v : Value}
    (hr : t.content r = none) (hs : ∀ slot ∈ F, slot.register ≠ r) (hv : Fits F t slots v c) :
    Agrees a F birth (t.define r c) id (override registers r v) slots heap := by
  have hself := override_self registers r v
  refine ⟨fun slot hslot => ?_, fun x d hx => ?_, fun slot hslot hp => ?_, h.number, h.vacant, fun x s hx => ?_,
    fun x s hx => ?_, fun x hx => ?_, ?_⟩
  · rw [Known.content_define, if_neg (hs slot hslot)]
    exact h.apart slot hslot
  · rcases content_define_cases hx with ⟨rfl, rfl⟩ | ⟨hne, hx⟩
    · refine ⟨v, hself, ?_⟩
      cases d with
      | plain ty => exact hv
      | view s =>
        obtain ⟨hheap, hready, hvs⟩ := hv
        obtain ⟨p, hp, -⟩ := h.ledger.owned (.slot s) ⟨hheap, hready⟩
        have : some v = some (.ptr p) := hvs.trans hp
        cases this
        rfl
      | cell s =>
        obtain ⟨-, -, p, n, -, rfl⟩ := hv
        rfl
      | owned | argument => exact hv.elim
    · rw [override_of_ne hne]
      exact h.typed x d hx
  · rw [override_of_ne (hs slot hslot)]
    exact h.address slot hslot hp
  · rcases content_define_cases hx with ⟨rfl, rfl⟩ | ⟨hne, hx⟩
    · exact ⟨hv.1, hv.2.1, hself.trans hv.2.2⟩
    · rw [override_of_ne hne]
      exact h.view x s hx
  · rcases content_define_cases hx with ⟨rfl, rfl⟩ | ⟨hne, hx⟩
    · obtain ⟨hheap, hready, p, n, hp, rfl⟩ := hv
      exact ⟨hheap, hready, p, n, hp, hself⟩
    · rw [override_of_ne hne]
      exact h.cell x s hx
  · rcases content_define_cases hx with ⟨rfl, rfl⟩ | ⟨hne, hx⟩
    · exact hv.elim
    · rw [override_of_ne hne]
      exact h.argument x hx
  · refine h.ledger.congr (fun x => ?_) (fun x hx => Place.value_register ?_) (fun _ => Iff.rfl)
    · cases x with
      | register y =>
        show (t.define r c).content y = some .owned ↔ t.content y = some .owned
        rw [Known.content_define]
        split
        · rename_i hy
          rw [hy, hr]
          simp [hv.ne_owned]
        · exact Iff.rfl
      | slot s => exact Iff.rfl
    · rintro rfl
      rw [show t.content r = some .owned from hx] at hr
      cases hr

/-- A register takes null or a buffer that is new to the activation. -/
theorem obtain_buffer (h : Agrees a F birth t id registers slots heap) {r : Register} {p : Pointer}
    (hr : t.content r = none) (hs : ∀ slot ∈ F, slot.register ≠ r) (hp : p = .null ∨ ∃ b, p = .heap b 0)
    (hgain : ∀ b, Owns heap' id b ↔ Owns heap id b ∨ p = .heap b 0) (hnew : ∀ b, p = .heap b 0 → ¬ Owns heap id b)
    (hlow : ∀ b o, o < id → Owns heap o b → Owns heap' o b) :
    Agrees a F birth (t.define r .owned) id (override registers r (.ptr p)) slots heap' := by
  have hself := override_self registers r (.ptr p)
  have hother : ∀ {x : Register} {d : Content}, d ≠ .owned → (t.define r .owned).content x = some d →
      x ≠ r ∧ t.content x = some d := by
    intro x d hd hx
    rcases content_define_cases hx with ⟨-, rfl⟩ | hx
    · exact absurd rfl hd
    · exact hx
  refine ⟨fun slot hslot => ?_, fun x d hx => ?_, fun slot hslot hpresent => ?_, h.number, h.vacant, fun x s hx => ?_,
    fun x s hx => ?_, fun x hx => ?_, ?_⟩
  · rw [Known.content_define, if_neg (hs slot hslot)]
    exact h.apart slot hslot
  · rcases content_define_cases hx with ⟨rfl, rfl⟩ | ⟨hne, hx⟩
    · exact ⟨_, hself, rfl⟩
    · rw [override_of_ne hne]
      exact h.typed x d hx
  · rw [override_of_ne (hs slot hslot)]
    exact h.address slot hslot hpresent
  · obtain ⟨hne, hx⟩ := hother (by simp) hx
    rw [override_of_ne hne]
    exact h.view x s hx
  · obtain ⟨hne, hx⟩ := hother (by simp) hx
    rw [override_of_ne hne]
    exact h.cell x s hx
  · obtain ⟨hne, hx⟩ := hother (by simp) hx
    rw [override_of_ne hne]
    obtain ⟨q, hq, hlent⟩ := h.argument x hx
    exact ⟨q, hq, lent_changes hlent hlow⟩
  · refine h.ledger.add (.register r) (fun x => ?_) ?_ (fun x hx => Place.value_register hx) hself hp hgain hnew
    · cases x with
      | register y =>
        show (t.define r .owned).content y = some .owned ↔ t.content y = some .owned ∨ Place.register y = .register r
        rw [Known.content_define]
        split
        · rename_i hy
          simp [hy]
        · rename_i hy
          simp [hy]
      | slot s => simp [Known.Holder]
    · show t.content r ≠ some .owned
      rw [hr]
      simp

/-- The buffer in a register is given away; it is null or leaves the activation. -/
theorem give_up (h : Agrees a F birth t id registers slots heap) {r : Register} {p : Pointer}
    (hr : t.content r = some .owned) (hp : registers r = some (.ptr p))
    (hlose : ∀ b, Owns heap' id b ↔ Owns heap id b ∧ p ≠ .heap b 0)
    (hlow : ∀ b o, o < id → Owns heap o b → Owns heap' o b) :
    Agrees a F birth (t.define r (.plain .ptr)) id registers slots heap' := by
  refine ⟨fun slot hslot => ?_, fun x d hx => ?_, h.address, h.number, h.vacant, fun x s hx => ?_, fun x s hx => ?_,
    fun x hx => ?_, ?_⟩
  · rw [Known.content_define, if_neg (h.ne_slot hr slot hslot).symm]
    exact h.apart slot hslot
  · rcases content_define_cases hx with ⟨rfl, rfl⟩ | ⟨-, hx⟩
    · exact ⟨_, hp, rfl⟩
    · exact h.typed x d hx
  · rcases content_define_cases hx with ⟨-, hd⟩ | ⟨-, hx⟩
    · cases hd
    · exact h.view x s hx
  · rcases content_define_cases hx with ⟨-, hd⟩ | ⟨-, hx⟩
    · cases hd
    · exact h.cell x s hx
  · rcases content_define_cases hx with ⟨-, hd⟩ | ⟨-, hx⟩
    · cases hd
    · obtain ⟨q, hq, hlent⟩ := h.argument x hx
      exact ⟨q, hq, lent_changes hlent hlow⟩
  · refine h.ledger.remove (.register r) hr hp (fun x => ?_) hlose
    cases x with
    | register y =>
      show (t.define r (.plain .ptr)).content y = some .owned ↔ t.content y = some .owned ∧ Place.register y ≠ .register r
      rw [Known.content_define]
      split
      · rename_i hy
        simp [hy]
      · rename_i hy
        simp [hy]
    | slot s => simp [Known.Holder]

/-! ## Slots -/

theorem status_set_cases {s x : Register} {st st' : SlotStatus} (h : (t.setStatus s st).status x = st') :
    (x = s ∧ st' = st) ∨ (x ≠ s ∧ t.status x = st') := by
  rw [Known.status_setStatus] at h
  split at h
  · exact .inl ⟨‹_›, h.symm⟩
  · exact .inr ⟨‹_›, h⟩

theorem alloca (h : Agrees a F birth t id registers slots heap) {slot : Slot} (hmem : slot ∈ F)
    (habsent : t.status slot.register = .absent) :
    Agrees a F birth (t.setStatus slot.register .stale) id
      (override registers slot.register (.ptr (.slot id slot.register))) slots heap := by
  have hreg : ∀ {x : Register} {c : Content}, t.content x = some c →
      override registers slot.register (.ptr (.slot id slot.register)) x = registers x :=
    fun hx => override_of_ne (h.ne_slot hx slot hmem)
  have hready : ∀ {s : Register}, (t.setStatus slot.register .stale).status s = .ready ↔ t.status s = .ready := by
    intro s
    rw [Known.status_setStatus]
    split
    · rename_i he
      rw [he, habsent]
      simp
    · exact Iff.rfl
  refine ⟨h.apart, fun x c hx => ?_, fun x hx hp => ?_, fun x hx hk hr => h.number x hx hk (hready.1 hr),
    fun s hs hr hm => h.vacant s hs (hready.1 hr) hm, fun x s hx => ?_, fun x s hx => ?_, fun x hx => ?_, ?_⟩
  · rw [hreg hx]
    exact h.typed x c hx
  · by_cases he : x.register = slot.register
    · rw [he]
      exact override_self _ _ _
    · rw [override_of_ne he]
      refine h.address x hx ?_
      rw [Known.status_setStatus, if_neg he] at hp
      exact hp
  · rw [hreg hx, hready]
    exact h.view x s hx
  · rw [hreg hx, hready]
    exact h.cell x s hx
  · rw [hreg hx]
    exact h.argument x hx
  · refine h.ledger.congr (fun x => ?_) (fun x hx => Place.value_register ?_) (fun _ => Iff.rfl)
    · cases x with
      | register y => exact Iff.rfl
      | slot s => exact and_congr_right fun _ => hready
    · rintro rfl
      exact h.ne_slot hx slot hmem rfl

theorem ne_of_kind (hn : (F.map Slot.register).Nodup) {slot : Slot} (hmem : slot ∈ F) (hk : slot.kind = .int)
    {s : Register} (hs : F.HasHeap s) : s ≠ slot.register := by
  obtain ⟨other, hother, rfl, hheap⟩ := hs
  intro he
  obtain rfl := List.inj_on_of_nodup_map hn hother hmem he
  rw [hk] at hheap
  cases hheap

theorem storeNumber (h : Agrees a F birth t id registers slots heap) (hn : (F.map Slot.register).Nodup) {slot : Slot}
    (hmem : slot ∈ F) (hk : slot.kind = .int) (hpresent : t.status slot.register ≠ .absent) (n : Int64) :
    Agrees a F birth (t.setStatus slot.register .ready) id registers (override slots slot.register (.i64 n)) heap := by
  have hstatus : ∀ {s : Register}, F.HasHeap s → (t.setStatus slot.register .ready).status s = t.status s := by
    intro s hs
    rw [Known.status_setStatus, if_neg (ne_of_kind hn hmem hk hs)]
  have hslots : ∀ {s : Register}, F.HasHeap s → override slots slot.register (.i64 n) s = slots s :=
    fun hs => override_of_ne (ne_of_kind hn hmem hk hs)
  refine ⟨h.apart, h.typed, fun x hx hp => ?_, fun x hx hkx hr => ?_, fun s hs hr hm => ?_, fun x s hx => ?_,
    fun x s hx => ?_, h.argument, ?_⟩
  · refine h.address x hx ?_
    rw [Known.status_setStatus] at hp
    split at hp
    · rename_i he
      rw [he]
      exact hpresent
    · exact hp
  · rcases status_set_cases hr with ⟨he, -⟩ | ⟨hne, hr⟩
    · rw [he]
      exact ⟨n, override_self _ _ _⟩
    · rw [override_of_ne hne]
      exact h.number x hx hkx hr
  · rw [hstatus hs] at hr
    rw [hslots hs]
    exact h.vacant s hs hr hm
  · obtain ⟨hs, hr, he⟩ := h.view x s hx
    rw [hstatus hs, hslots hs]
    exact ⟨hs, hr, he⟩
  · obtain ⟨hs, hr, he⟩ := h.cell x s hx
    rw [hstatus hs, hslots hs]
    exact ⟨hs, hr, he⟩
  · refine h.ledger.congr (fun x => ?_) (fun x hx => ?_) (fun _ => Iff.rfl)
    · cases x with
      | register y => exact Iff.rfl
      | slot s => exact and_congr_right fun hs => by rw [hstatus hs]
    · cases x with
      | register y => rfl
      | slot s => exact hslots hx.1

theorem storeNull (h : Agrees a F birth t id registers slots heap) (hn : (F.map Slot.register).Nodup) {slot : Slot}
    (hmem : slot ∈ F) (hk : slot.kind.isHeap = true) (hstale : t.status slot.register = .stale) :
    Agrees a F birth (t.setStatus slot.register .ready) id registers (override slots slot.register (.ptr .null))
      heap := by
  have hheap : F.HasHeap slot.register := ⟨slot, hmem, rfl, hk⟩
  have hne : ∀ {s : Register}, t.status s = .ready → s ≠ slot.register := by
    rintro s hs rfl
    rw [hstale] at hs
    cases hs
  have hstatus : ∀ {s : Register}, s ≠ slot.register → (t.setStatus slot.register .ready).status s = t.status s :=
    fun hs => if_neg hs
  refine ⟨h.apart, h.typed, fun x hx hp => ?_, fun x hx hkx hr => ?_, fun s hs hr hm => ?_, fun x s hx => ?_,
    fun x s hx => ?_, h.argument, ?_⟩
  · refine h.address x hx ?_
    by_cases he : x.register = slot.register
    · rw [he, hstale]
      simp
    · rw [hstatus he] at hp
      exact hp
  · have hxne : x.register ≠ slot.register := (ne_of_kind hn hx hkx hheap).symm
    rw [hstatus hxne] at hr
    rw [override_of_ne hxne]
    exact h.number x hx hkx hr
  · rcases status_set_cases hr with ⟨rfl, -⟩ | ⟨hs', hr⟩
    · exact override_self _ _ _
    · rw [override_of_ne hs']
      exact h.vacant s hs hr hm
  · obtain ⟨hs, hr, he⟩ := h.view x s hx
    rw [hstatus (hne hr), override_of_ne (hne hr)]
    exact ⟨hs, hr, he⟩
  · obtain ⟨hs, hr, he⟩ := h.cell x s hx
    rw [hstatus (hne hr), override_of_ne (hne hr)]
    exact ⟨hs, hr, he⟩
  · refine h.ledger.add (.slot slot.register) (fun x => ?_) (fun hx => hne hx.2 rfl) (fun x hx => Place.value_slot hx)
      (override_self _ _ _) (.inl rfl) (fun b => by simp) (fun b hb => by cases hb)
    cases x with
    | register y => simp [Known.Holder]
    | slot s =>
      by_cases hs : s = slot.register
      · simp [hs, Known.Holder, hheap]
      · simp [hs, Known.Holder]

theorem content_forget_cases {s x : Register} {c : Content} (h : (t.forget s).content x = some c) :
    (c = .plain .ptr ∧ (t.content x = some (.view s) ∨ t.content x = some (.cell s))) ∨
      (t.content x = some c ∧ c ≠ .view s ∧ c ≠ .cell s) := by
  rw [Known.content_forget] at h
  split at h
  · cases h
    exact .inl ⟨rfl, ‹_›⟩
  · rename_i hne
    refine .inr ⟨h, ?_, ?_⟩ <;> rintro rfl
    · exact hne (.inl h)
    · exact hne (.inr h)

theorem forget (h : Agrees a F birth t id registers slots heap) (s : Register) :
    Agrees a F birth (t.forget s) id registers slots heap := by
  have hold : ∀ {x : Register} {c : Content}, c ≠ .plain .ptr → (t.forget s).content x = some c →
      t.content x = some c := by
    intro x c hc hx
    rcases content_forget_cases hx with ⟨rfl, -⟩ | ⟨hx, -⟩
    · exact absurd rfl hc
    · exact hx
  refine ⟨fun slot hslot => ?_, fun x c hx => ?_, h.address, h.number, h.vacant,
    fun x s' hx => h.view x s' (hold (by simp) hx), fun x s' hx => h.cell x s' (hold (by simp) hx),
    fun x hx => h.argument x (hold (by simp) hx), ?_⟩
  · rw [Known.content_forget, h.apart slot hslot]
    simp
  · rcases content_forget_cases hx with ⟨rfl, hx | hx⟩ | ⟨hx, -⟩
    · exact h.typed x (.view s) hx
    · exact h.typed x (.cell s) hx
    · exact h.typed x c hx
  · refine h.ledger.congr (fun x => ?_) (fun _ _ => rfl) (fun _ => Iff.rfl)
    cases x with
    | register y =>
      refine ⟨fun hy => hold (by simp) hy, fun hy => ?_⟩
      have hy : t.content y = some .owned := hy
      show (t.forget s).content y = some .owned
      rw [Known.content_forget, hy]
      simp
    | slot s => exact Iff.rfl

def Forgotten (t : Known) (s : Register) : Prop := ∀ x, t.content x ≠ some (.view s) ∧ t.content x ≠ some (.cell s)

theorem forgotten_forget (t : Known) (s : Register) : Forgotten (t.forget s) s := by
  intro x
  constructor <;> intro hx <;> rcases content_forget_cases hx with ⟨hc, -⟩ | ⟨-, hv, hc⟩
  · cases hc
  · exact hv rfl
  · cases hc
  · exact hc rfl

theorem release (h : Agrees a F birth t id registers slots heap) {s : Register} {p : Pointer} (hs : F.HasHeap s)
    (hready : t.status s = .ready) (hp : slots s = some (.ptr p))
    (hlose : ∀ b, Owns heap' id b ↔ Owns heap id b ∧ p ≠ .heap b 0)
    (hlow : ∀ b o, o < id → Owns heap o b → Owns heap' o b) :
    Agrees a F birth (t.release s) id registers slots heap' := by
  have hf := h.forget s
  have hgone := forgotten_forget t s
  have hstatus : ∀ {x : Register}, (t.release s).status x = .ready → x ≠ s ∧ t.status x = .ready := by
    intro x hx
    rcases status_set_cases (t := t.forget s) hx with ⟨-, hst⟩ | hx
    · cases hst
    · exact hx
  have hkept : ∀ {x : Register}, x ≠ s → (t.release s).status x = t.status x := fun hx => if_neg hx
  refine ⟨hf.apart, hf.typed, fun x hx hp => h.address x hx ?_, fun x hx hk hr => h.number x hx hk (hstatus hr).2,
    fun x hx hr hm => h.vacant x hx (hstatus hr).2 hm, fun x s' hx => ?_, fun x s' hx => ?_, fun x hx => ?_, ?_⟩
  · by_cases he : x.register = s
    · rw [he, hready]
      simp
    · rw [hkept he] at hp
      exact hp
  · obtain ⟨hs', hr, he⟩ := hf.view x s' hx
    have hne : s' ≠ s := by
      rintro rfl
      exact (hgone x).1 hx
    exact ⟨hs', (hkept hne).trans hr, he⟩
  · obtain ⟨hs', hr, he⟩ := hf.cell x s' hx
    have hne : s' ≠ s := by
      rintro rfl
      exact (hgone x).2 hx
    exact ⟨hs', (hkept hne).trans hr, he⟩
  · obtain ⟨q, hq, hlent⟩ := hf.argument x hx
    exact ⟨q, hq, lent_changes hlent hlow⟩
  · refine hf.ledger.remove (.slot s) ⟨hs, hready⟩ hp (fun x => ?_) hlose
    cases x with
    | register y => simp [Known.Holder, Known.release]
    | slot y =>
      constructor
      · rintro ⟨hy, hr⟩
        exact ⟨⟨hy, (hstatus hr).2⟩, by simpa using (hstatus hr).1⟩
      · rintro ⟨⟨hy, hr⟩, hne⟩
        exact ⟨hy, (hkept (by simpa using hne)).trans hr⟩

/-- A buffer goes from a register to a slot that is stale or holds nothing yet. -/
theorem fill (h : Agrees a F birth t id registers slots heap) (hn : (F.map Slot.register).Nodup) {slot : Slot}
    {r : Register} {p : Pointer} (hmem : slot ∈ F) (hk : slot.kind.isHeap = true) (hr : t.content r = some .owned)
    (hp : registers r = some (.ptr p))
    (hvacant : t.status slot.register = .stale ∨ t.status slot.register = .ready ∧ t.mark ≤ birth slot.register) :
    Agrees a F birth (t.fill slot.register r (birth slot.register)) id registers
      (override slots slot.register (.ptr p)) heap := by
  have hheap : F.HasHeap slot.register := ⟨slot, hmem, rfl, hk⟩
  have hgone := forgotten_forget (t.define r (.plain .ptr)) slot.register
  have hkept : ∀ {x : Register}, x ≠ slot.register →
      (t.fill slot.register r (birth slot.register)).status x = t.status x := fun hx => if_neg hx
  -- what is known of a register was known before, or it holds no buffer and leads nowhere
  have hold : ∀ {x : Register} {c : Content}, c ≠ .plain .ptr →
      (t.fill slot.register r (birth slot.register)).content x = some c →
      x ≠ r ∧ t.content x = some c ∧ c ≠ .view slot.register ∧ c ≠ .cell slot.register := by
    intro x c hc hx
    rcases content_forget_cases (t := t.define r (.plain .ptr)) hx with ⟨rfl, -⟩ | ⟨hx, hv, hcell⟩
    · exact absurd rfl hc
    · rcases content_define_cases hx with ⟨-, rfl⟩ | ⟨hne, hx⟩
      · exact absurd rfl hc
      · exact ⟨hne, hx, hv, hcell⟩
  refine ⟨fun x hx => ?_, fun x c hx => ?_, fun x hx hpresent => h.address x hx ?_, fun x hx hkx hrx => ?_,
    fun s hs hrs hm => ?_, fun x s hx => ?_, fun x s hx => ?_, fun x hx => h.argument x (hold (by simp) hx).2.1, ?_⟩
  · show ((t.define r (.plain .ptr)).forget slot.register).content x.register = none
    rw [Known.content_forget, Known.content_define, if_neg (h.ne_slot hr x hx).symm, h.apart x hx]
    simp
  · rcases content_forget_cases (t := t.define r (.plain .ptr)) hx with ⟨rfl, hx | hx⟩ | ⟨hx, -⟩
    all_goals rcases content_define_cases hx with ⟨rfl, hd⟩ | ⟨-, hx⟩
    · cases hd
    · exact h.typed x (.view slot.register) hx
    · cases hd
    · exact h.typed x (.cell slot.register) hx
    · rw [hd]
      exact ⟨_, hp, rfl⟩
    · exact h.typed x c hx
  · by_cases he : x.register = slot.register
    · rw [he]
      rcases hvacant with hs | ⟨hs, -⟩ <;> rw [hs] <;> simp
    · rw [hkept he] at hpresent
      exact hpresent
  · have hxne : x.register ≠ slot.register := (ne_of_kind hn hx hkx hheap).symm
    rw [hkept hxne] at hrx
    rw [override_of_ne hxne]
    exact h.number x hx hkx hrx
  · have hm : max t.mark (birth slot.register + 1) ≤ birth s := hm
    have hne : s ≠ slot.register := by
      rintro rfl
      omega
    rw [hkept hne] at hrs
    rw [override_of_ne hne]
    exact h.vacant s hs hrs (by omega)
  · obtain ⟨-, hx, hv, -⟩ := hold (by simp) hx
    obtain ⟨hs, hrs, he⟩ := h.view x s hx
    have hne : s ≠ slot.register := by
      rintro rfl
      exact hv rfl
    rw [hkept hne, override_of_ne hne]
    exact ⟨hs, hrs, he⟩
  · obtain ⟨-, hx, -, hc⟩ := hold (by simp) hx
    obtain ⟨hs, hrs, he⟩ := h.cell x s hx
    have hne : s ≠ slot.register := by
      rintro rfl
      exact hc rfl
    rw [hkept hne, override_of_ne hne]
    exact ⟨hs, hrs, he⟩
  · refine h.ledger.move (.register r) (.slot slot.register) hr hp (fun x => ?_) (fun hx => ?_)
      (fun x hx => Place.value_slot hx) (override_self _ _ _)
    · cases x with
      | register y =>
        constructor
        · intro hy
          obtain ⟨hne, hy, -⟩ := hold (by simp) hy
          exact .inl ⟨hy, by simpa using hne⟩
        · rintro (⟨hy, hne⟩ | hy)
          · show ((t.define r (.plain .ptr)).forget slot.register).content y = some .owned
            have hne : y ≠ r := by simpa using hne
            rw [Known.content_forget, Known.content_define, if_neg hne, show t.content y = some .owned from hy]
            simp
          · cases hy
      | slot s =>
        by_cases hs : s = slot.register
        · subst hs
          simp [Known.Holder, hheap, Known.fill]
        · simp [hs, Known.Holder, hkept hs]
    · rcases hvacant with hs | ⟨hs, hm⟩
      · rw [show t.status slot.register = .ready from hx.2] at hs
        cases hs
      · exact h.vacant slot.register hheap hs hm

end Agrees
end QuillLang
