import QuillLang.Proofs.Filled.Code
import QuillLang.Proofs.MemorySafety
/-!
# Null in a run

A variable that no declaration has filled holds null.  Null comes from nowhere else: `malloc` gives a block, and what a
function is passed or returns was read from a variable or is a block of its own.  So as long as no activation reads a slot
that it has not filled, no pointer that is handed on is null.  `Machine.Firm` says this of a machine.
-/
namespace QuillLang

/-! ## Pointers that are handed on -/

/-- Does an instruction hand on what a register holds, to a routine other than `free` or to a slot? -/
def Instr.handsOn (i : Instr) (r : Register) : Bool :=
  match i.operation with
  | .call callee _ args _ => callee ≠ "free" && (.ptr, .register r) ∈ args
  | .store ty value _ => ty = .ptr && value = .register r
  | _ => false

def Block.handsOn (k : Block) (r : Register) : List Instr → Bool
  | [] => k.terminator = some (.ret (some (.ptr, .register r)))
  | i :: is => i.handsOn r || (i.result ≠ some r && k.handsOn r is)

namespace Setting
variable {S : Setting} {t t' : Known} {i : Instr} {r : Register}

theorem Step.text_of_handsOn (h : S.Step t i t') (hr : i.handsOn r = true) :
    ∃ c, t.content r = some c ∧ c.isText = true := by
  cases h with
  | storeOwned _ _ howned =>
    obtain rfl : _ = r := by simpa [Instr.handsOn] using hr
    exact ⟨_, howned, rfl⟩
  | external _ _ _ _ hreadable | function _ _ _ _ hreadable =>
    simp only [Instr.handsOn, Bool.and_eq_true, decide_eq_true_eq] at hr
    exact hreadable _ hr.2 rfl
  | storeNumber | storeNull | storeCell | malloc | freeOwned | freeView | exit => simp [Instr.handsOn] at hr
  | alloca | loadNumber | loadPointer | element | loadCell | arith | compare | cast => cases hr

theorem Step.text_before (h : S.Step t i t') (hne : i.result ≠ some r) {c : Content} (hr : t'.content r = some c)
    (hc : c.isText = true) : t.content r = some c := by
  have hdefine : ∀ {x : Register} {d : Content}, (x = r → d.isText = false) → (t.define x d).content r = some c →
      t.content r = some c := by
    intro x d hd hx
    rcases Agrees.content_define_cases hx with ⟨rfl, rfl⟩ | ⟨-, hx⟩
    · rw [hd rfl] at hc
      cases hc
    · exact hx
  have hforget : ∀ {v : Known} {s : Register}, (v.forget s).content r = some c → v.content r = some c := by
    intro v s hv
    rcases Agrees.content_forget_cases hv with ⟨rfl, -⟩ | ⟨hv, -⟩
    · cases hc
    · exact hv
  have hresult : ∀ {x : Register}, i.result = some x → x ≠ r := by
    rintro x hx rfl
    exact hne hx
  cases h with
  | alloca | storeNumber | storeNull | storeCell | exit => exact hr
  | storeOwned => exact hdefine (fun _ => rfl) (hforget hr)
  | freeOwned => exact hdefine (fun _ => rfl) hr
  | freeView => exact hforget hr
  | @external _ _ _ _ _ result =>
    cases result with
    | none => exact hr
    | some x => exact hdefine (fun _ => rfl) hr
  | loadNumber | loadPointer | element | loadCell | arith | compare | cast | malloc | function =>
    exact hdefine (fun he => absurd he (hresult rfl)) hr

/-- **What the rest of a block hands on is a text already**, or is still to be made. -/
theorem Ahead.text_of_handsOn {k : Block} : ∀ {is : List Instr} {t : Known}, S.Ahead k t is → k.handsOn r is = true →
    ∃ c, t.content r = some c ∧ c.isText = true
  | [], t, h, hr => by
    obtain ⟨e, n, he, -, hends⟩ := h.ends
    simp only [Block.handsOn, decide_eq_true_eq] at hr
    have he := Option.some.inj (he.symm.trans hr)
    cases hends with
    | ret _ hhands =>
      simp only [Terminator.ret.injEq, Option.some.injEq, Prod.mk.injEq] at he
      obtain ⟨x, c, hx, hcontent, hc⟩ := hhands he.1
      cases he.2.symm.trans hx
      refine ⟨c, hcontent, ?_⟩
      rcases hc with rfl | ⟨s, rfl⟩ <;> rfl
    | br | condBr | unreachable => cases he
  | i :: is, t, h, hr => by
    obtain ⟨t', hstep, hahead⟩ := h.next
    simp only [Block.handsOn, Bool.or_eq_true, Bool.and_eq_true, decide_eq_true_eq] at hr
    rcases hr with hr | ⟨hne, hr⟩
    · exact hstep.text_of_handsOn hr
    · obtain ⟨c, hcontent, hc⟩ := hahead.text_of_handsOn hr
      exact ⟨c, hstep.text_before hne hcontent hc, hc⟩

end Setting

/-! ## Reading and filling -/

/-- The slot whose text the running activation is about to read: it loads what the slot holds and hands it on. -/
def Machine.reads? (m : Machine) : Option Register :=
  match m.running.rest with
  | ⟨some r, .load .ptr (.register s)⟩ :: is => if m.running.block.handsOn r is then some s else none
  | _ => none

def Machine.fills? (m : Machine) : Option Register := m.running.rest.head?.bind Instr.fills?

/-- What an activation hands on from here is not null, nor is what is in a slot that it filled, and no such slot is emptied
in the rest of the block. -/
structure Activation.Firm (f : Activation) (slots : Register → Option Value) (filled : Register → Prop) : Prop where
  handed : ∀ r, f.block.handsOn r f.rest = true → f.registers r ≠ some (.ptr .null)
  slots : ∀ s, filled s → slots s ≠ some (.ptr .null)
  ahead : ∀ i ∈ f.rest, ∀ s, i.empties? = some s → ¬ filled s

/-- So for every activation; `filled` are the slots that were filled, by activation.  All other slots hold null, a number or
nothing at all. -/
structure Machine.Firm (m : Machine) (filled : Nat → Register → Prop) : Prop where
  running : m.running.Firm (m.slots m.running.id) (filled m.running.id)
  callers : ∀ f ∈ m.callers, f.Firm (m.slots f.id) (filled f.id)
  fresh : ∀ id s, filled id s → id < m.fresh
  empty : ∀ id s p, ¬ filled id s → m.slots id s = some (.ptr p) → p = .null

def Machine.filledAfter (m : Machine) (filled : Nat → Register → Prop) (id : Nat) (s : Register) : Prop :=
  filled id s ∨ id = m.running.id ∧ m.fills? = some s

structure Machine.SameStack (m m' : Machine) : Prop where
  running : m'.running = m.running
  callers : m'.callers = m.callers
  slots : m'.slots = m.slots
  fresh : m'.fresh = m.fresh

theorem Activation.Firm.mono {f : Activation} {slots : Register → Option Value} {filled filled' : Register → Prop}
    (h : f.Firm slots filled) (hf : ∀ s, filled' s → filled s) : f.Firm slots filled' :=
  ⟨h.handed, fun s hs => h.slots s (hf s hs), fun i hi s hs hfilled => h.ahead i hi s hs (hf s hfilled)⟩

theorem Activation.Firm.finish {f : Activation} {slots : Register → Option Value} {filled : Register → Prop}
    (h : f.Firm slots filled) {i : Instr} {is : List Instr} (hrest : f.rest = i :: is) {v : Value}
    (hv : ∀ r, i.result = some r → f.block.handsOn r is = true → v ≠ .ptr .null) :
    Activation.Firm { f with
      rest := f.rest.tail
      registers := i.result.elim f.registers fun r => override f.registers r v } slots filled := by
  rw [hrest, List.tail_cons]
  refine ⟨fun r hr => ?_, h.slots, fun j hj => h.ahead j (hrest ▸ List.mem_cons_of_mem i hj)⟩
  have hr : f.block.handsOn r is = true := hr
  have hbefore : i.result ≠ some r → f.registers r ≠ some (.ptr .null) := by
    intro hne
    refine h.handed r ?_
    rw [hrest, Block.handsOn]
    simp [hne, hr]
  cases hresult : i.result with
  | none => exact hbefore (by simp [hresult])
  | some x =>
    show override f.registers x v r ≠ some (.ptr .null)
    by_cases hx : r = x
    · rw [hx, override_self]
      simpa using hv x hresult (hx ▸ hr)
    · rw [override_of_ne hx]
      exact hbefore (by simp [hresult, Ne.symm hx])

theorem Machine.slots_setSlot_of_ne {m : Machine} {id i : Nat} {s : Register} {v : Value} (hi : i ≠ id) :
    (m.setSlot id s v).slots i = m.slots i := if_neg hi

theorem Machine.slots_setSlot_cases {m : Machine} {id i : Nat} {s x : Register} {v u : Value}
    (h : (m.setSlot id s v).slots i x = some u) :
    (i = id ∧ x = s ∧ v = u) ∨ ((i = id → x ≠ s) ∧ m.slots i x = some u) := by
  by_cases hi : i = id
  · rw [hi, show (m.setSlot id s v).slots id = override (m.slots id) s v from if_pos rfl] at h
    by_cases hx : x = s
    · rw [hx, override_self] at h
      exact .inl ⟨hi, hx, Option.some.inj h⟩
    · rw [override_of_ne hx] at h
      exact .inr ⟨fun _ => hx, hi ▸ h⟩
  · rw [slots_setSlot_of_ne hi] at h
    exact .inr ⟨fun he => absurd he hi, h⟩

namespace Machine.Firm
variable {m m' : Machine} {filled filled' : Nat → Register → Prop} {i : Instr} {is : List Instr} {s : Register} {v : Value}

theorem congr (h : m.Firm filled) (hf : ∀ id s, filled' id s ↔ filled id s) : m.Firm filled' :=
  ⟨h.running.mono fun s => (hf _ s).1, fun f hf' => (h.callers f hf').mono fun s => (hf _ s).1,
    fun id s hs => h.fresh id s ((hf id s).1 hs), fun id s p hs => h.empty id s p (mt (hf id s).2 hs)⟩

theorem filledAfter (h : m'.Firm filled) (hnone : m.fills? = none) : m'.Firm (m.filledAfter filled) := by
  refine h.congr fun id s => or_iff_left ?_
  rw [hnone]
  simp

theorem sameStack (h : m.Firm filled) (hm : m.SameStack m') : m'.Firm filled := by
  refine ⟨?_, ?_, ?_, ?_⟩
  · rw [hm.running, hm.slots]
    exact h.running
  · rw [hm.callers, hm.slots]
    exact h.callers
  · rw [hm.fresh]
    exact h.fresh
  · rw [hm.slots]
    exact h.empty

theorem finish (h : m.Firm filled) (hrest : m.running.rest = i :: is)
    (hv : ∀ r, i.result = some r → m.running.block.handsOn r is = true → v ≠ .ptr .null) :
    (m.finish i.result v).Firm filled :=
  ⟨h.running.finish hrest hv, h.callers, h.fresh, h.empty⟩

theorem setSlot (h : m.Firm filled) (hbelow : ∀ f ∈ m.callers, f.id < m.running.id)
    (hv : v = .ptr .null → ¬ filled m.running.id s) (hptr : ∀ p, v = .ptr p → p = .null) :
    (m.setSlot m.running.id s v).Firm filled := by
  refine ⟨⟨h.running.handed, fun x hx hnull => ?_, h.running.ahead⟩, fun f hf => ?_, h.fresh, fun id x p hx hp => ?_⟩
  · rcases Machine.slots_setSlot_cases hnull with ⟨-, rfl, hvx⟩ | ⟨-, hnull⟩
    · exact hv hvx hx
    · exact h.running.slots x hx hnull
  · rw [Machine.slots_setSlot_of_ne (Nat.ne_of_lt (hbelow f hf))]
    exact h.callers f hf
  · rcases Machine.slots_setSlot_cases hp with ⟨-, -, hv⟩ | ⟨-, hp⟩
    · exact hptr p hv
    · exact h.empty id x p hx hp

/-- A slot of the running activation is filled, and not emptied soon. -/
theorem fill (h : m.Firm filled) (hbelow : ∀ f ∈ m.callers, f.id < m.running.id) (hfresh : m.running.id < m.fresh)
    (hv : v ≠ .ptr .null) (hahead : ∀ i ∈ m.running.rest, i.empties? ≠ some s) :
    (m.setSlot m.running.id s v).Firm fun id x => filled id x ∨ id = m.running.id ∧ s = x := by
  refine ⟨⟨h.running.handed, ?_, ?_⟩, fun f hf => ?_, ?_, fun id x p hx hp => ?_⟩
  · intro x hx hnull
    rcases Machine.slots_setSlot_cases hnull with ⟨-, -, hvx⟩ | ⟨hne, hnull⟩
    · exact hv hvx
    · rcases hx with hx | ⟨-, rfl⟩
      · exact h.running.slots x hx hnull
      · exact hne rfl rfl
  · rintro i hi x hx (hfilled | ⟨-, rfl⟩)
    · exact h.running.ahead i hi x hx hfilled
    · exact hahead i hi hx
  · have hne : f.id ≠ m.running.id := Nat.ne_of_lt (hbelow f hf)
    rw [Machine.slots_setSlot_of_ne hne]
    refine (h.callers f hf).mono ?_
    rintro x (hx | ⟨hid, -⟩)
    · exact hx
    · exact absurd hid hne
  · rintro id x (hx | ⟨rfl, -⟩)
    · exact h.fresh id x hx
    · exact hfresh
  · obtain ⟨hx, hne⟩ := not_or.1 hx
    rcases Machine.slots_setSlot_cases hp with ⟨hid, rfl, -⟩ | ⟨-, hp⟩
    · exact absurd ⟨hid, rfl⟩ hne
    · exact h.empty id x p hx hp

end Machine.Firm

/-! ## Steps without a fault at null -/

/-- The run does not stop at null; if it goes on, then with `Q`. -/
def Clear {α : Type} (x : Except Halt α) (Q : α → Prop) : Prop :=
  match x with
  | .ok v => Q v
  | .error e => e ≠ .fault .nullText

namespace Clear
variable {α β : Type} {x : Except Halt α} {f : α → Except Halt β} {P : α → Prop} {Q : β → Prop}

theorem bind (hx : Clear x P) (hf : ∀ v, P v → Clear (f v) Q) : Clear (x >>= f) Q := by
  cases x with
  | ok v => exact hf v hx
  | error e => exact hx

theorem mono {P' : α → Prop} (hx : Clear x P) (h : ∀ v, P v → P' v) : Clear x P' := by
  cases x with
  | ok v => exact h v hx
  | error e => exact hx

theorem of_eq {v : α} (hx : x = .ok v) (h : P v) : Clear x P := by
  rw [hx]
  exact h

theorem stuck : Clear (stuck : Except Halt α) P := fun h => by cases h

theorem mapM {R : α → β → Prop} : ∀ {l : List α}, (∀ x ∈ l, Clear (f x) (R x)) →
    Clear (l.mapM f) fun ys => ∀ y ∈ ys, ∃ x ∈ l, R x y
  | [], _ => fun y hy => by cases hy
  | x :: l, h => by
    rw [List.mapM_cons]
    refine (h x List.mem_cons_self).bind fun y hy => ?_
    refine (mapM fun z hz => h z (List.mem_cons_of_mem x hz)).bind fun ys hys => ?_
    intro z hz
    rcases List.mem_cons.1 hz with rfl | hz
    · exact ⟨x, List.mem_cons_self, hy⟩
    · obtain ⟨u, hu, huz⟩ := hys z hz
      exact ⟨u, List.mem_cons_of_mem x hu, huz⟩

end Clear

namespace Machine
variable {a : Assembly} {w : Answer} {m : Machine} {i : Instr} {ty : MachineType} {v : Operand}

/-- An operand is null when it says so, or is a register that holds null. -/
theorem eval_clear (a : Assembly) (m : Machine) (ty : MachineType) (v : Operand) : Clear (m.eval a ty v) fun x =>
    x = .ptr .null → ty = .ptr ∧ (v = .null ∨ ∃ r, v = .register r ∧ m.running.registers r = some (.ptr .null)) := by
  cases v with
  | register r =>
    dsimp only [eval]
    split
    · rename_i x hx
      split
      · rename_i hty
        rintro rfl
        exact ⟨hty.symm, .inr ⟨r, rfl, hx⟩⟩
      · exact .stuck
    · exact .stuck
  | null =>
    dsimp only [eval]
    split
    · exact fun _ => ⟨‹_›, .inl rfl⟩
    · exact .stuck
  | int n =>
    dsimp only [eval]
    split
    · exact fun h => by cases h
    · split
      · exact fun h => by cases h
      · exact .stuck
  | float bits =>
    dsimp only [eval]
    split
    · exact fun h => by cases h
    · exact .stuck
  | global g =>
    dsimp only [eval]
    split
    · exact fun h => by cases h
    · exact .stuck

theorem pointer_clear : Clear (m.pointer a v) fun _ => True := by
  refine (eval_clear a m .ptr v).bind fun x _ => ?_
  cases x <;> first | trivial | exact .stuck

theorem number_clear : Clear (m.number a v) fun _ => True := by
  refine (eval_clear a m .i64 v).bind fun x _ => ?_
  cases x <;> first | trivial | exact .stuck

theorem cell_clear (p : Pointer) : Clear (m.cell p) fun _ => True := by
  unfold cell
  repeat' split
  all_goals first | trivial | exact fun h => by cases h

theorem read_clear (p : Pointer) : Clear (m.read ty p) fun _ => True := by
  have hcell : Clear (m.cell p >>= fun c => if ty = .i64 then .ok (Value.i64 (c.2.1.cells c.2.2)) else stuck)
      fun _ => True := by
    refine (cell_clear p).bind fun c _ => ?_
    split
    · trivial
    · exact .stuck
  cases p with
  | slot id r =>
    dsimp only [read]
    repeat' split
    all_goals first | trivial | exact .stuck
  | null | global | heap => exact hcell

theorem perform_clear (hstore : ∀ ty value address, i.operation ≠ .store ty value address)
    (hcall : ∀ callee ret args variadic, i.operation ≠ .call callee ret args variadic) :
    Clear (m.perform a w i) fun m' => ∃ v, m' = m.finish i.result v := by
  unfold perform
  split
  · split
    · rename_i r hr
      exact ⟨_, by rw [hr]⟩
    · exact .stuck
  · exact pointer_clear.bind fun p _ => (read_clear p).bind fun v _ => ⟨v, rfl⟩
  · rename_i hop
    exact absurd hop (hstore _ _ _)
  · exact pointer_clear.bind fun p _ => number_clear.bind fun n _ => ⟨_, rfl⟩
  · refine (eval_clear _ _ _ _).bind fun x _ => (eval_clear _ _ _ _).bind fun y _ => ?_
    refine Clear.bind (P := fun _ => True) ?_ fun v _ => ⟨v, rfl⟩
    unfold Value.arith
    split <;> first | trivial | exact .stuck
  · refine (eval_clear _ _ _ _).bind fun x _ => (eval_clear _ _ _ _).bind fun y _ => ?_
    refine Clear.bind (P := fun _ => True) ?_ fun v _ => ⟨v, rfl⟩
    unfold Value.compare
    split <;> first | trivial | exact .stuck
  · refine (eval_clear _ _ _ _).bind fun x _ => Clear.bind (P := fun _ => True) ?_ fun v _ => ⟨v, rfl⟩
    unfold Value.cast
    repeat' split
    all_goals first | trivial | exact .stuck
  · rename_i hop
    exact absurd hop (hcall _ _ _ _)

theorem SameStack.refl (m : Machine) : m.SameStack m := ⟨rfl, rfl, rfl, rfl⟩

theorem write_clear {p : Pointer} (hp : ∀ id r, p ≠ .slot id r) (x : Value) : Clear (m.write p x) (m.SameStack ·) := by
  cases p with
  | slot id r => exact absurd rfl (hp id r)
  | null | global | heap =>
    refine (cell_clear _).bind fun c _ => ?_
    obtain ⟨id, k, i⟩ := c
    cases x with
    | i64 n => exact ⟨rfl, rfl, rfl, rfl⟩
    | _ => exact .stuck

/-! ## The library -/

theorem text_clear {p : Pointer} (hp : p ≠ .null) : Clear (m.text a p) fun _ => True := by
  unfold text
  repeat' split
  all_goals first | trivial | exact absurd rfl hp | exact fun h => by cases h

theorem setText_clear {p : Pointer} (hp : p ≠ .null) (bytes : List UInt8) : Clear (m.setText p bytes) (m.SameStack ·) := by
  unfold setText
  repeat' split
  all_goals first | exact ⟨rfl, rfl, rfl, rfl⟩ | exact absurd rfl hp | exact fun h => by cases h

theorem callLibrary_clear {name : String} {ret : MachineType} {vs : List Value} (hvs : .ptr .null ∉ vs) :
    Clear (m.callLibrary a w name ret vs) fun y => m.SameStack y.1 := by
  have hne : ∀ p, .ptr p ∈ vs → p ≠ .null := by
    rintro p hp rfl
    exact hvs hp
  unfold callLibrary
  split
  · exact fun h => by cases h
  refine Clear.bind (P := fun _ => True) ?_ fun args _ => ?_
  · refine (Clear.mapM (R := fun _ _ => True) fun v hv => ?_).mono fun _ _ => trivial
    cases v with
    | ptr p => exact (text_clear (hne p hv)).bind fun _ _ => trivial
    | i1 | i32 | i64 | double => trivial
  split
  · exact .stuck
  refine Clear.bind (P := (m.SameStack ·)) ?_ fun m' hm' => ⟨hm'.running, hm'.callers, hm'.slots, hm'.fresh⟩
  unfold writeFirst
  split
  · exact setText_clear (hne _ List.mem_cons_self) _
  · exact .stuck
  · exact .refl m

end Machine
end QuillLang
