import QuillLang.Proofs.Texts.Instructions
/-!
# Operators on values of any kind

A value of lowering shows a datum by the facts and pieces in hand (`Lowered.Shows`): a number and an outcome by one fact, a
borrowed text by a fact and a text that was there before, an owned text by a fact and a piece.  Conversions and operators
take values that show data to a value that shows the result.  The pieces of their operands are gone then, each given back
once.
-/
namespace QuillLang

/-! ## Sizes -/

theorem toNat_size {x y : Nat} (h : x + y < maxSize) : (Int64.ofNat x + Int64.ofNat y + 1).toUInt64.toNat = x + y + 1 := by
  have hlt : x + y + 1 < UInt64.size := Nat.lt_of_le_of_lt (Nat.succ_le_of_lt h) (by decide)
  have hsum : (Int64.ofNat x + Int64.ofNat y + 1).toUInt64 = UInt64.ofNat (x + y + 1) := by
    rw [Int64.toUInt64_add, Int64.toUInt64_add, Int64.toUInt64_ofNat', Int64.toUInt64_ofNat', UInt64.ofNat_add,
      UInt64.ofNat_add]
    rfl
  rw [hsum, UInt64.toNat_ofNat_of_lt' hlt]

/-! ## Operators by their class -/

namespace BinaryOp

theorem ofNumbers_cases {op : BinaryOp} {x y : Int64} {d : Datum} (h : op.ofNumbers x y = some d) :
    (∃ o z, op.operatorClass = .arith o ∧ d = .number z ∧ ∀ w, o.apply w x y = z) ∨
      ∃ o, op.operatorClass = .compare o ∧ d = .outcome (CompareOp.holds o x.toInt y.toInt) := by
  have hc := CompareOp.holds_toInt x y
  have hquotient : ∀ {z : Int64}, (if y = 0 ∨ (x = Int64.minValue ∧ y = -1) then none else some (Datum.number z)) = some d →
      undefinedQuotient x y = false ∧ d = .number z := by
    intro z hz
    split at hz
    · cases hz
    · rename_i hxy
      cases hz
      refine ⟨?_, rfl⟩
      unfold undefinedQuotient
      simpa using hxy
  cases op with
  | add | sub | mul =>
    cases h
    exact .inl ⟨_, _, rfl, rfl, fun _ => rfl⟩
  | div | rem =>
    obtain ⟨hdefined, rfl⟩ := hquotient h
    exact .inl ⟨_, _, rfl, rfl, fun w => by simp [ArithOp.apply, hdefined]⟩
  | eq | ne | lt | le | gt | ge =>
    cases h
    exact .inr ⟨_, rfl, by simp [hc]⟩

theorem ofTexts_cases {op : BinaryOp} {x y d : Datum} (h : op.ofTexts x y = some d) :
    (op.operatorClass = .arith .add ∧ d = .text (x.toText ++ y.toText) ∧ (x.toText ++ y.toText).length < maxSize) ∨
    (∃ o, op.operatorClass = .compare o ∧ d = .outcome (CompareOp.holds o (Library.order x.toText y.toText).toInt 0)) ∨
      ∃ o, op.operatorClass = .arith o ∧ o ≠ .add ∧ op.ofNumbers x.toNumber y.toNumber = some d := by
  have hc := CompareOp.holds_order x.toText y.toText
  cases op with
  | add =>
    obtain ⟨hlength, hd⟩ := Option.ite_none_right_eq_some.1 h
    cases hd
    exact .inl ⟨rfl, rfl, hlength⟩
  | sub | mul | div | rem => exact .inr (.inr ⟨_, rfl, by decide, h⟩)
  | eq | ne | lt | le | gt | ge =>
    cases h
    exact .inr (.inl ⟨_, rfl, by simp [hc]⟩)

end BinaryOp

/-! ## Values -/

/-- A value of lowering shows a datum, by facts and with pieces. -/
inductive Lowered.Shows (a : Assembly) (m₀ : Machine) : Lowered → Datum → Facts → List Piece → Prop where
  | int (o : Operand) (n : Int64) : Shows a m₀ (.int o) (.number n) [(o, .i64 n)] []
  | bool (o : Operand) (c : Bool) : Shows a m₀ (.bool o) (.outcome c) [(o, .i1 c)] []
  | borrowed (o : Operand) {p : Pointer} {s : List UInt8} (text : m₀.text a p = .ok s) :
      Shows a m₀ (.text (.borrowed o)) (.text s) [(o, .ptr p)] []
  | owned (o : Operand) {q : Piece} {s : List UInt8} (text : q.text = s) (room : s.length < q.size) :
      Shows a m₀ (.text (.owned o)) (.text s) [(o, .ptr (.heap q.block 0))] [q]

/-- Beside other facts and pieces, a machine has a value that shows a datum. -/
def Machine.Has (a : Assembly) (m₀ : Machine) (n₀ : Nat) (v : Lowered) (d : Datum) (F : Facts) (ps : List Piece) (n : Nat)
    (m : Machine) : Prop :=
  ∃ x : Facts × List Piece, v.Shows a m₀ d x.1 x.2 ∧ Machine.InHand a m₀ n₀ (x.1 ++ F) (x.2 ++ ps) n m

namespace Machine.Has
variable {a : Assembly} {m₀ m : Machine} {n₀ n : Nat} {v : Lowered} {d : Datum} {F F' : Facts} {ps : List Piece}

theorem weaken (h : Has a m₀ n₀ v d F ps n m) (hF : F' ⊆ F) : Has a m₀ n₀ v d F' ps n m := by
  obtain ⟨x, hx, hm⟩ := h
  exact ⟨x, hx, hm.weaken (List.append_subset.2 ⟨List.subset_append_left _ _, List.subset_append_of_subset_right _ hF⟩)⟩

theorem int {o : Operand} {z : Int64} (h : InHand a m₀ n₀ ((o, .i64 z) :: F) ps n m) (hF : F' ⊆ F) :
    Has a m₀ n₀ (.int o) (.number z) F' ps n m :=
  ⟨⟨_, _⟩, .int o z, h.weaken (List.cons_subset_cons _ hF)⟩

theorem bool {o : Operand} {c : Bool} (h : InHand a m₀ n₀ ((o, .i1 c) :: F) ps n m) (hF : F' ⊆ F) :
    Has a m₀ n₀ (.bool o) (.outcome c) F' ps n m :=
  ⟨⟨_, _⟩, .bool o c, h.weaken (List.cons_subset_cons _ hF)⟩

end Machine.Has

namespace Lowered.Shows
variable {a : Assembly} {m₀ : Machine} {v : Lowered} {d : Datum} {F F' : Facts} {ps ps' : List Piece}

theorem isText_eq (h : v.Shows a m₀ d F ps) : v.isText = d.isText := by
  cases h <;> rfl

theorem readable {t : TextHandle} {s : List UInt8} (h : Shows a m₀ (.text t) (.text s) F ps) (hF : F ⊆ F') (hps : ps ⊆ ps') :
    Machine.Readable a m₀ F' ps' t.value s := by
  cases h with
  | borrowed o text => exact ⟨_, hF (List.mem_singleton.2 rfl), .inl text⟩
  | owned o text => exact ⟨_, hF (List.mem_singleton.2 rfl), .inr ⟨_, hps (List.mem_singleton.2 rfl), rfl, text⟩⟩

end Lowered.Shows

/-! ## Conversions -/

namespace Builder
open Build Machine Lowered
variable {a : Assembly} {m₀ : Machine} {n₀ : Nat} {F F' F₁ F₂ : Facts} {ps ps' ps₁ ps₂ : List Piece} {v lhs rhs : Lowered}
  {d x y : Datum}

theorem brings_release (ha : a.Supports) {t : TextHandle} {s : List UInt8} (ht : Shows a m₀ (.text t) (.text s) F' ps')
    (hF : F' ⊆ F) : Brings a (InHand a m₀ n₀ F (ps' ++ ps)) (release t) fun _ => InHand a m₀ n₀ F ps := by
  cases ht with
  | borrowed o => exact .pure fun _ _ hm => hm
  | owned o => exact (brings_free ha (hF (List.mem_singleton.2 rfl))).bind fun _ => .pure fun _ _ hm => hm

theorem brings_asInt (ha : a.Supports) (hv : v.Shows a m₀ d F' ps') (hF : F' ⊆ F) :
    Brings a (InHand a m₀ n₀ F (ps' ++ ps)) (asInt v) fun o => InHand a m₀ n₀ ((o, .i64 d.toNumber) :: F) ps := by
  cases v with
  | int o =>
    cases hv
    exact .pure fun _ _ hm => hm.weaken (List.cons_subset.2 ⟨hF (List.mem_singleton.2 rfl), List.Subset.refl F⟩)
  | bool o =>
    cases hv
    exact brings_widen (.fact (hF (List.mem_singleton.2 rfl)))
  | text t =>
    obtain ⟨s, rfl⟩ : ∃ s, d = .text s := by
      cases hv <;> exact ⟨_, rfl⟩
    have hread := hv.readable hF (List.subset_append_left ps' ps)
    refine (brings_read ha "atol" .i64 (by decide) (by decide) (by decide) hread fun _ _ => rfl).bind fun o => ?_
    exact (brings_release ha hv (List.subset_cons_of_subset _ hF)).bind fun _ => .pure fun _ _ hm => hm

theorem brings_decimalText (ha : a.Supports) {o : Operand} {n : Int64} (ho : F.Yield o (.i64 n)) :
    Brings a (InHand a m₀ n₀ F ps) (decimalText o) fun t =>
      Has a m₀ n₀ (.text t) (.text (Utf8.bytes (Decimal.ofInt64 n))) F ps := by
  have hlength := Decimal.length_bytes_ofInt64 n
  refine (brings_malloc ha (.int 21)).bind fun buffer => .of_exists (by grind) fun q hq => ?_
  have hsize : 20 < q.size := hq ▸ (by decide)
  refine (brings_stringConstant ha (by decide)).bind fun format => .of_exists (by grind) fun p hp => ?_
  have hread : Readable a m₀ ((.global format, .ptr p) :: (buffer, .ptr (.heap q.block 0)) :: F) (q :: ps)
      (.global format) (Utf8.bytes "%lld") := ⟨p, List.mem_cons_self, .inl hp⟩
  refine (brings_sprintf ha (by simp) hread (ho.mono (by simp)) hsize).bind fun _ => .pure fun k m hm => ?_
  refine ⟨⟨_, _⟩, .owned buffer (q := { q with text := _ }) rfl (Nat.lt_of_le_of_lt hlength hsize), ?_⟩
  exact hm.weaken (List.subset_cons_self _ _)

theorem brings_asText (ha : a.Supports) (hv : v.Shows a m₀ d F' ps') (hF : F' ⊆ F) :
    Brings a (InHand a m₀ n₀ F (ps' ++ ps)) (asText v) fun t => Has a m₀ n₀ (.text t) (.text d.toText) F ps := by
  cases v with
  | int o =>
    cases hv
    exact brings_decimalText ha (.fact (hF (List.mem_singleton.2 rfl)))
  | bool o =>
    cases hv
    refine (brings_widen (.fact (hF (List.mem_singleton.2 rfl)))).bind fun n => ?_
    exact (brings_decimalText ha (.fact List.mem_cons_self)).imp fun t k m hm => hm.weaken (List.subset_cons_self _ F)
  | text t =>
    obtain ⟨s, rfl⟩ : ∃ s, d = .text s := by
      cases hv <;> exact ⟨_, rfl⟩
    exact .pure fun _ _ hm => ⟨⟨F', ps'⟩, hv, hm.weaken (List.append_subset.2 ⟨hF, List.Subset.refl F⟩)⟩

/-! ## Operators -/

theorem brings_asTexts {β : Type} {S : β → Nat → Machine → Prop} (ha : a.Supports) (hl : lhs.Shows a m₀ x F₁ ps₁)
    (hr : rhs.Shows a m₀ y F₂ ps₂) (hF₁ : F₁ ⊆ F) (hF₂ : F₂ ⊆ F) {f : TextHandle → TextHandle → Build Nat β}
    (hemits : ∀ l r, Emits (f l r))
    (h : ∀ {l r : TextHandle} {F₁ F₂ F' : Facts} {ps₁ ps₂ : List Piece}, Shows a m₀ (.text l) (.text x.toText) F₁ ps₁ →
      Shows a m₀ (.text r) (.text y.toText) F₂ ps₂ → F₁ ⊆ F' → F₂ ⊆ F' → F ⊆ F' →
      Brings a (InHand a m₀ n₀ F' (ps₁ ++ (ps₂ ++ ps))) (f l r) S) :
    Brings a (InHand a m₀ n₀ F (ps₁ ++ (ps₂ ++ ps))) (do let l ← asText lhs; let r ← asText rhs; f l r) S := by
  refine (brings_asText ha hl hF₁).bind fun l => .of_exists (by grind) ?_
  rintro ⟨F₃, ps₃⟩ hl'
  have hF₂' : F₂ ⊆ F₃ ++ F := List.subset_append_of_subset_right F₃ hF₂
  refine ((brings_asText ha hr hF₂').bind fun r => .of_exists (hemits l r) ?_).under fun n m hm =>
    hm.perm (List.perm_append_comm_assoc ps₃ ps₂ ps)
  rintro ⟨F₄, ps₄⟩ hr'
  have hF₃ : F₃ ++ F ⊆ F₄ ++ (F₃ ++ F) := List.subset_append_right F₄ (F₃ ++ F)
  refine (h hl' hr' (List.append_subset.1 hF₃).1 (List.subset_append_left F₄ _) (List.append_subset.1 hF₃).2).under ?_
  exact fun n m hm => hm.perm (List.perm_append_comm_assoc ps₄ ps₃ ps)

theorem brings_concat (ha : a.Supports) {l r : TextHandle} {s t : List UInt8} (hl : Shows a m₀ (.text l) (.text s) F₁ ps₁)
    (hr : Shows a m₀ (.text r) (.text t) F₂ ps₂) (hF₁ : F₁ ⊆ F) (hF₂ : F₂ ⊆ F) (hlength : (s ++ t).length < maxSize) :
    Brings a (InHand a m₀ n₀ F (ps₁ ++ (ps₂ ++ ps))) (concat l r) fun h =>
      Has a m₀ n₀ (.text h) (.text (s ++ t)) F ps := by
  have hps₁ : ps₁ ⊆ ps₁ ++ (ps₂ ++ ps) := List.subset_append_left _ _
  have hps₂ : ps₂ ⊆ ps₁ ++ (ps₂ ++ ps) := fun q hq => List.mem_append_right _ (List.mem_append_left _ hq)
  refine (brings_read ha "strlen" .i64 (by decide) (by decide) (by decide) (hl.readable hF₁ hps₁) fun _ _ => rfl).bind
    fun m => ?_
  refine (brings_read ha "strlen" .i64 (by decide) (by decide) (by decide)
    (hr.readable (List.subset_cons_of_subset _ hF₂) hps₂) fun _ _ => rfl).bind fun n => ?_
  refine (brings_intOp (z := Int64.ofNat s.length + Int64.ofNat t.length)
    (.fact (List.mem_cons_of_mem _ List.mem_cons_self)) (.fact List.mem_cons_self) fun _ => rfl).bind fun sum => ?_
  refine (brings_intOp (z := Int64.ofNat s.length + Int64.ofNat t.length + 1) (.fact List.mem_cons_self) (.int 1)
    fun _ => rfl).bind fun size => ?_
  refine (brings_malloc ha (.fact List.mem_cons_self)).bind fun buffer => .of_exists (by grind) fun q hq => ?_
  rw [List.length_append] at hlength
  have hsize : q.size = s.length + t.length + 1 := hq.trans (toNat_size hlength)
  have hleft : s.length < q.size := by omega
  have hboth : (s ++ t).length < q.size := by rw [List.length_append]; omega
  -- the operands are still there beside what was computed since
  generalize hF' : (buffer, Value.ptr (.heap q.block 0)) :: _ = F'
  have hF : F ⊆ F' := by
    subst hF'
    exact fun f hf => by simp [hf]
  have hbuffer : (buffer, .ptr (.heap q.block 0)) ∈ F' := hF' ▸ List.mem_cons_self
  have hF₁' : F₁ ⊆ F' := List.Subset.trans hF₁ hF
  have hF₂' : F₂ ⊆ F' := List.Subset.trans hF₂ hF
  refine (brings_strcpy ha hbuffer (hl.readable hF₁' (List.subset_cons_of_subset _ hps₁)) hleft).bind fun _ => ?_
  refine (brings_strcat ha (q := { q with text := s }) hbuffer
    (hr.readable hF₂' (List.subset_cons_of_subset _ hps₂)) hboth).bind fun _ => ?_
  have hperm : ∀ q : Piece, (q :: (ps₁ ++ (ps₂ ++ ps))).Perm (ps₁ ++ (ps₂ ++ q :: ps)) :=
    fun q => List.perm_middle.symm.trans (List.perm_middle.symm.append_left ps₁)
  refine .under (P := InHand a m₀ n₀ F' (ps₁ ++ (ps₂ ++ { q with text := s ++ t } :: ps))) ?_ fun _ _ hm => hm.perm (hperm _)
  refine (brings_release ha hl hF₁').bind fun _ => (brings_release ha hr hF₂').bind fun _ => .pure ?_
  intro n m hm
  refine ⟨⟨_, _⟩, .owned buffer (q := { q with text := s ++ t }) rfl hboth, ?_⟩
  exact hm.weaken (List.cons_subset.2 ⟨hbuffer, hF⟩)

theorem brings_joinTexts (ha : a.Supports) (hl : lhs.Shows a m₀ x F₁ ps₁) (hr : rhs.Shows a m₀ y F₂ ps₂) (hF₁ : F₁ ⊆ F)
    (hF₂ : F₂ ⊆ F) (hlength : (x.toText ++ y.toText).length < maxSize) :
    Brings a (InHand a m₀ n₀ F (ps₁ ++ (ps₂ ++ ps))) (joinTexts lhs rhs) fun v =>
      Has a m₀ n₀ v (.text (x.toText ++ y.toText)) F ps := by
  refine brings_asTexts ha hl hr hF₁ hF₂ (fun l r => by grind) fun hl hr hF₁ hF₂ hF => ?_
  exact (brings_concat ha hl hr hF₁ hF₂ hlength).bind fun t => .pure fun n m hm => hm.weaken hF

theorem brings_compareTexts (ha : a.Supports) (op : CompareOp) (hl : lhs.Shows a m₀ x F₁ ps₁) (hr : rhs.Shows a m₀ y F₂ ps₂)
    (hF₁ : F₁ ⊆ F) (hF₂ : F₂ ⊆ F) :
    Brings a (InHand a m₀ n₀ F (ps₁ ++ (ps₂ ++ ps))) (compareTexts op lhs rhs) fun v =>
      Has a m₀ n₀ v (.outcome (op.holds (Library.order x.toText y.toText).toInt 0)) F ps := by
  refine brings_asTexts ha hl hr hF₁ hF₂ (fun l r => by grind) ?_
  intro l r F₁ F₂ F' ps₁ ps₂ hl hr hF₁ hF₂ hF
  have hps₂ : ps₂ ⊆ ps₁ ++ (ps₂ ++ ps) := fun q hq => List.mem_append_right _ (List.mem_append_left _ hq)
  refine (brings_strcmp ha (hl.readable hF₁ (List.subset_append_left _ _)) (hr.readable hF₂ hps₂)).bind fun o => ?_
  refine (brings_release ha hl (List.subset_cons_of_subset _ hF₁)).bind fun _ => ?_
  refine (brings_release ha hr (List.subset_cons_of_subset _ hF₂)).bind fun _ => ?_
  refine (brings_compareSign (.fact List.mem_cons_self)).bind fun c => .pure fun n m hm => ?_
  exact .bool hm (List.subset_cons_of_subset _ hF)

theorem brings_numberOperator (ha : a.Supports) {op : BinaryOp} (hl : lhs.Shows a m₀ x F₁ ps₁)
    (hr : rhs.Shows a m₀ y F₂ ps₂) (hF₁ : F₁ ⊆ F) (hF₂ : F₂ ⊆ F) (hd : op.ofNumbers x.toNumber y.toNumber = some d) :
    Brings a (InHand a m₀ n₀ F (ps₁ ++ (ps₂ ++ ps))) (numberOperator op lhs rhs) fun v => Has a m₀ n₀ v d F ps := by
  refine (brings_asInt ha hl hF₁).bind fun l => ?_
  refine (brings_asInt ha hr (List.subset_cons_of_subset _ hF₂)).bind fun r => ?_
  have hleft : (l, Value.i64 x.toNumber) ∈ (r, .i64 y.toNumber) :: (l, .i64 x.toNumber) :: F :=
    List.mem_cons_of_mem _ List.mem_cons_self
  have hF : F ⊆ (r, .i64 y.toNumber) :: (l, .i64 x.toNumber) :: F :=
    List.subset_cons_of_subset _ (List.subset_cons_self _ _)
  rcases BinaryOp.ofNumbers_cases hd with ⟨o, z, hclass, rfl, hz⟩ | ⟨o, hclass, rfl⟩
  · rw [hclass]
    exact (brings_intOp (.fact hleft) (.fact List.mem_cons_self) hz).bind fun v => .pure fun n m hm => .int hm hF
  · rw [hclass]
    exact (brings_compare (.fact hleft) (.fact List.mem_cons_self)).bind fun v => .pure fun n m hm => .bool hm hF

/-- **An operator takes values that show data to one that shows the result**, and gives back what it was handed. -/
theorem brings_binaryOperator (ha : a.Supports) {op : BinaryOp} (hl : lhs.Shows a m₀ x F₁ ps₁)
    (hr : rhs.Shows a m₀ y F₂ ps₂) (hF₁ : F₁ ⊆ F) (hF₂ : F₂ ⊆ F) (hd : op.datum x y = some d) :
    Brings a (InHand a m₀ n₀ F (ps₁ ++ (ps₂ ++ ps))) (binaryOperator op lhs rhs) fun v => Has a m₀ n₀ v d F ps := by
  unfold binaryOperator
  unfold BinaryOp.datum at hd
  rw [hl.isText_eq, hr.isText_eq]
  split at hd
  · rename_i htext
    rw [if_pos htext]
    rcases BinaryOp.ofTexts_cases hd with ⟨hclass, rfl, hlength⟩ | ⟨o, hclass, rfl⟩ | ⟨o, hclass, ho, hd⟩
    · rw [hclass]
      exact brings_joinTexts ha hl hr hF₁ hF₂ hlength
    · rw [hclass]
      exact brings_compareTexts ha o hl hr hF₁ hF₂
    · rw [hclass]
      split
      · rename_i hadd
        cases hadd
        exact absurd rfl ho
      · rename_i hcompare
        cases hcompare
      · exact brings_numberOperator ha hl hr hF₁ hF₂ hd
  · rename_i htext
    rw [if_neg htext]
    exact brings_numberOperator ha hl hr hF₁ hF₂ hd

/-- The code of a random number computes the generator's next bits and their remainder. -/
theorem brings_random {seed limit : Operand} {x y z : Int64} (hseed : F.Yield seed (.i64 x))
    (hlimit : F.Yield limit (.i64 y)) (hz : BinaryOp.rem.ofNumbers (randomBits x) y = some (.number z)) :
    Brings a (InHand a m₀ n₀ F ps) (random seed limit) fun o => InHand a m₀ n₀ ((o, .i64 z) :: F) ps := by
  have hrem : ∀ w, ArithOp.srem.apply w (randomBits x) y = z := by
    rcases BinaryOp.ofNumbers_cases hz with ⟨o, _, hclass, heq, hz⟩ | ⟨o, hclass, -⟩
    · cases hclass
      cases heq
      exact hz
    · cases hclass
  refine (brings_intOp hseed (.int 1103515245) fun _ => rfl).bind fun product => ?_
  refine (brings_intOp (.fact List.mem_cons_self) (.int 12345) fun _ => rfl).bind fun next => ?_
  refine (brings_intOp (.fact List.mem_cons_self) (.int 16) fun _ => rfl).bind fun high => ?_
  refine (brings_intOp (z := randomBits x) (.fact List.mem_cons_self) (.int 0x7FFF) fun _ => rfl).bind fun masked => ?_
  refine (brings_intOp (.fact List.mem_cons_self) (hlimit.mono fun f hf => by simp [hf]) hrem).imp fun o n m hm => ?_
  exact hm.weaken (List.cons_subset_cons _ fun f hf => by simp [hf])

end Builder
end QuillLang
