import QuillLang.Proofs.Texts.Operators
/-!
# Expressions of any kind

The code that an expression is lowered to computes its value (`Lower.brings_expr`).  Texts that it makes on the way are given
back, each once, so that at the end there is no live block that was not there before, but for an owned result.
-/
namespace QuillLang

/-! ## Steps of lowering -/

namespace Lower
variable {α β : Type} {frames : Frames} {a : Assembly} {x : Lower α} {f : α → Lower β} {P : Nat → Machine → Prop}
  {Q R : α → Nat → Machine → Prop} {S : β → Nat → Machine → Prop}

def Emits (x : Lower α) : Prop := ∀ σ, Gives x σ fun _ σ' => σ'.frames = σ.frames ∧ σ.builder.Extends σ'.builder

namespace Emits

theorem pure (v : α) : Emits (Pure.pure v) := fun σ => .pure ⟨rfl, .refl σ.builder⟩

theorem bind (hx : Emits x) (hf : ∀ v, Emits (f v)) : Emits (x >>= f) := by
  refine fun σ => (hx σ).bind fun v σ₁ h₁ => (hf v σ₁).imp fun u σ₂ h₂ => ?_
  exact ⟨h₂.1.trans h₁.1, h₁.2.trans h₂.2⟩

@[grind ←] theorem of_tidy [Graded α] (h : ∀ σ, Tidy View.straight σ x) : Emits x :=
  fun σ v σ' hrun => ((h σ).gives trivial v σ' hrun).1

end Emits

/-- The step emits straight code that brings a machine with `P` to `Q`, where variables have the slots `frames`. -/
structure Brings (frames : Frames) (a : Assembly) (P : Nat → Machine → Prop) (x : Lower α) (Q : α → Nat → Machine → Prop) :
    Prop where
  emits : Emits x
  carries : ∀ σ : LowerState, σ.builder.Primed → σ.frames = frames →
    Gives x σ fun v σ' => σ.builder.Carries a σ'.builder P (Q v)

namespace Brings

theorem pure {v : α} (h : ∀ n m, P n m → Q v n m) : Brings frames a P (Pure.pure v) Q :=
  ⟨.pure v, fun σ _ _ => .pure (.refl fun m => h σ.builder.nextRegister m)⟩

theorem bind (hx : Brings frames a P x R) (hf : ∀ v, Brings frames a (R v) (f v) S) : Brings frames a P (x >>= f) S where
  emits := hx.emits.bind fun v => (hf v).emits
  carries σ hσ hframes := by
    refine ((hx.carries σ hσ hframes).and (hx.emits σ)).bind ?_
    rintro v σ₁ ⟨hcarries, hframes₁, hext⟩
    refine (((hf v).carries σ₁ (hext.primed hσ) (hframes₁.trans hframes)).and ((hf v).emits σ₁)).imp ?_
    rintro u σ₂ ⟨hcarries₂, -, hext₂⟩
    exact .trans hext hext₂ hcarries hcarries₂

theorem build {step : Build Nat α} (h : step.Brings a P Q) : Brings frames a P (build step) Q :=
  ⟨fun σ => .build ⟨rfl, h.emits σ.builder⟩, fun σ hσ _ => .build (h.carries σ.builder hσ)⟩

theorem of_exists {ι : Type} {φ : ι → Prop} {P : ι → Nat → Machine → Prop} (hx : Emits x)
    (h : ∀ i, φ i → Brings frames a (P i) x Q) : Brings frames a (fun n m => ∃ i, φ i ∧ P i n m) x Q := by
  refine ⟨hx, fun σ hσ hframes v σ' hrun hglobals m rest hrest hP => ?_⟩
  obtain ⟨i, hi, hP⟩ := hP
  exact (h i hi).carries σ hσ hframes v σ' hrun hglobals m rest hrest hP

theorem lookup {y : Lower Slot} {name : String} {g : Slot → Lower β}
    (hy : ∀ σ, Gives y σ fun slot σ' => σ' = σ ∧ σ.frames.lookup name = some slot) (hg : ∀ slot, Emits (g slot))
    (h : ∀ slot, frames.lookup name = some slot → Brings frames a P (g slot) S) : Brings frames a P (y >>= g) S where
  emits := by
    refine Emits.bind (fun σ => (hy σ).imp ?_) hg
    rintro _ _ ⟨rfl, -⟩
    exact ⟨rfl, .refl _⟩
  carries σ hσ hframes := by
    refine (hy σ).bind ?_
    rintro slot _ ⟨rfl, hslot⟩
    exact (h slot (hframes ▸ hslot)).carries _ hσ hframes

end Brings
end Lower

/-! ## Expressions -/

namespace Lower
open Machine
variable {frames : Frames} {a : Assembly} {m₀ : Machine} {n₀ : Nat} {F : Facts} {ps : List Piece}

def Placed (frames : Frames) (n : Nat) (m : Machine) : Prop :=
  ∀ slot ∈ frames.current, slot.register.index < n ∧
    m.running.registers slot.register = some (.ptr (.slot m.running.id slot.register))

theorem brings_loadSlot (hplaced : Placed frames n₀ m₀) {slot : Slot} (hslot : slot ∈ frames.current) {d : Datum}
    (hd : m₀.scalar? slot = some d) (span : Span) :
    Brings frames a (InHand a m₀ n₀ F ps) (loadSlot slot span) fun v => Has a m₀ n₀ v d F ps := by
  obtain ⟨hbelow, hregister⟩ := hplaced slot hslot
  unfold scalar? at hd
  unfold loadSlot
  cases hkind : slot.kind with
  | int =>
    rw [hkind] at hd
    dsimp only at hd
    split at hd
    · rename_i n hvalue
      cases hd
      refine (Brings.build (Builder.brings_loadSlot hbelow hregister hvalue)).bind fun o => .pure fun k m hm => ?_
      exact .int hm (List.Subset.refl F)
    · cases hd
  | string =>
    rw [hkind] at hd
    obtain ⟨k, hk, hd⟩ := Option.bind_eq_some_iff.1 hd
    obtain ⟨b, hvalue, hget, hlive⟩ := exists_of_buffer? hk
    obtain ⟨-, hd⟩ := Option.ite_none_right_eq_some.1 hd
    cases hd
    refine (Brings.build (Builder.brings_loadSlot hbelow hregister hvalue)).bind fun o => .pure fun j m hm => ?_
    have htext : m₀.text a (.heap b 0) = .ok k.text := by simp [Machine.text, hget, hlive]
    exact ⟨⟨_, _⟩, .borrowed o htext, hm⟩
  | array =>
    rw [hkind] at hd
    cases hd

theorem gives_arraySlot (name : Ident) (σ : LowerState) :
    Gives (arraySlot name) σ fun slot σ' => σ' = σ ∧ σ.frames.lookup name.name = some slot := by
  refine (gives_slotOf_lookup name).bind ?_
  rintro slot σ' ⟨rfl, hslot⟩
  split
  · exact .pure ⟨rfl, hslot⟩
  · exact .throw _

theorem brings_elementAddress (hplaced : Placed frames n₀ m₀) {slot : Slot} (hslot : slot ∈ frames.current) {b : Nat}
    (hvalue : m₀.slots m₀.running.id slot.register = some (.ptr (.heap b 0))) {index : Operand} {i : Int64}
    (hindex : F.Yield index (.i64 i)) :
    (Builder.elementAddress slot index).Brings a (InHand a m₀ n₀ F ps) fun o =>
      InHand a m₀ n₀ ((o, .ptr (.heap b (8 * i.toInt))) :: F) ps := by
  obtain ⟨hbelow, hregister⟩ := hplaced slot hslot
  refine (Builder.brings_loadSlot hbelow hregister hvalue).bind fun base => ?_
  refine (Builder.brings_element (.fact List.mem_cons_self) (hindex.mono (List.subset_cons_self _ _))).imp fun o n m hm => ?_
  have helement : (Pointer.heap b 0).element i = .heap b (8 * i.toInt) := by
    simp only [Pointer.element, Int.zero_add]
  rw [helement] at hm
  exact hm.weaken (List.cons_subset_cons _ (List.subset_cons_self _ _))

/-- **The code of an expression computes its value**, beside whatever else is in hand. -/
theorem brings_expr (ha : a.Supports) (hplaced : Placed frames n₀ m₀) :
    ∀ (e : Expr) {d : Datum} {F : Facts} {ps : List Piece}, (∀ s ∈ e.literals, '\x00' ∉ s.toList) →
    m₀.datum? frames e = some d → Brings frames a (InHand a m₀ n₀ F ps) (expr e) fun v => Has a m₀ n₀ v d F ps
  | .number n _, d, F, ps, _, hd => by
    cases hd
    exact .pure fun k m hm => .int (hm.literal n) (List.Subset.refl F)
  | .string s _, d, F, ps, hnul, hd => by
    cases hd
    refine (Brings.build (Builder.brings_stringConstant ha (hnul s List.mem_cons_self))).bind fun g => .pure fun k m => ?_
    rintro ⟨p, htext, hm⟩
    exact ⟨⟨_, _⟩, .borrowed _ htext, hm⟩
  | .var x span, d, F, ps, _, hd => by
    have hemits slot : Emits (loadSlot slot span) := .of_tidy fun σ => tidy_loadSlot (.inl trivial) (fun _ => trivial) span
    refine .lookup (fun σ => gives_slotOf_lookup ⟨x, span⟩) hemits fun slot hslot => ?_
    obtain ⟨_, hslot', hd⟩ := Option.bind_eq_some_iff.1 hd
    obtain rfl := Option.some.inj (hslot.symm.trans hslot')
    exact brings_loadSlot hplaced (SlotTable.mem_of_lookup hslot) hd span
  | .index array position _, d, F, ps, hnul, hd => by
    obtain ⟨i, hi, hd⟩ := Option.bind_eq_some_iff.1 hd
    obtain ⟨n, hn, hd⟩ := Option.bind_eq_some_iff.1 hd
    cases hd
    obtain ⟨slot, hslot, hn⟩ := Option.bind_eq_some_iff.1 hn
    obtain ⟨k, hk, hn⟩ := Option.bind_eq_some_iff.1 hn
    obtain ⟨b, hvalue, hget, hlive⟩ := exists_of_buffer? hk
    obtain ⟨hbounds, hn⟩ := Option.ite_none_right_eq_some.1 hn
    cases hn
    refine .lookup (gives_arraySlot array) (fun slot => by grind) fun slot' hslot' => ?_
    obtain rfl := Option.some.inj (hslot.symm.trans hslot')
    refine (brings_expr ha hplaced position hnul hi).bind fun v => .of_exists (by grind) ?_
    rintro ⟨F₁, ps₁⟩ hv
    refine (Brings.build (Builder.brings_asInt ha hv (List.subset_append_left F₁ F))).bind fun index => ?_
    refine (Brings.build (brings_elementAddress hplaced (SlotTable.mem_of_lookup hslot) hvalue
      (.fact List.mem_cons_self))).bind fun address => ?_
    refine (Brings.build (Builder.brings_loadCell (.fact List.mem_cons_self) hget hlive hbounds)).bind fun o => ?_
    exact .pure fun n m hm => .int hm fun f hf => by simp [hf]
  | .binary op left right _, d, F, ps, hnul, hd => by
    obtain ⟨x, hx, hd⟩ := Option.bind_eq_some_iff.1 hd
    obtain ⟨y, hy, hd⟩ := Option.bind_eq_some_iff.1 hd
    obtain ⟨hnulLeft, hnulRight⟩ := List.forall_mem_append.1 hnul
    refine (brings_expr ha hplaced left hnulLeft hx).bind fun lhs => .of_exists (by grind) ?_
    rintro ⟨F₁, ps₁⟩ hl
    refine (brings_expr ha hplaced right hnulRight hy).bind fun rhs => .of_exists (by grind) ?_
    rintro ⟨F₂, ps₂⟩ hr
    have hop : (Builder.binaryOperator op lhs rhs).Brings a (InHand a m₀ n₀ (F₂ ++ (F₁ ++ F)) (ps₁ ++ (ps₂ ++ ps))) _ :=
      Builder.brings_binaryOperator ha hl hr (List.subset_append_of_subset_right F₂ (List.subset_append_left F₁ F))
        (List.subset_append_left F₂ _) hd
    refine Brings.build ((hop.under fun n m hm => hm.perm (List.perm_append_comm_assoc ps₂ ps₁ ps)).imp fun v n m hm => ?_)
    exact hm.weaken (List.subset_append_of_subset_right F₂ (List.subset_append_right F₁ F))
  | .neg operand _, d, F, ps, hnul, hd => by
    obtain ⟨x, hx, hd⟩ := Option.bind_eq_some_iff.1 hd
    cases hd
    refine (brings_expr ha hplaced operand hnul hx).bind fun v => .of_exists (by grind) ?_
    rintro ⟨F₁, ps₁⟩ hv
    refine (Brings.build (Builder.brings_asInt ha hv (List.subset_append_left F₁ F))).bind fun n => ?_
    refine (Brings.build (Builder.brings_intOp (z := -x.toNumber) (.int 0) (.fact List.mem_cons_self) fun _ => ?_)).bind
      fun o => .pure fun n m hm => ?_
    · simp [ArithOp.apply]
    · exact .int hm fun f hf => by simp [hf]
  | .random seed limit _, d, F, ps, hnul, hd => by
    obtain ⟨x, hx, hd⟩ := Option.bind_eq_some_iff.1 hd
    obtain ⟨y, hy, hd⟩ := Option.bind_eq_some_iff.1 hd
    obtain ⟨hnulSeed, hnulLimit⟩ := List.forall_mem_append.1 hnul
    obtain ⟨z, rfl⟩ : ∃ z, d = .number z := by
      rcases BinaryOp.ofNumbers_cases hd with ⟨_, z, _, rfl, _⟩ | ⟨_, hclass, _⟩
      · exact ⟨z, rfl⟩
      · cases hclass
    refine (brings_expr ha hplaced seed hnulSeed hx).bind fun v => .of_exists (by grind) ?_
    rintro ⟨F₁, ps₁⟩ hv
    refine (Brings.build (Builder.brings_asInt ha hv (List.subset_append_left F₁ F))).bind fun s => ?_
    refine (brings_expr ha hplaced limit hnulLimit hy).bind fun u => .of_exists (by grind) ?_
    rintro ⟨F₂, ps₂⟩ hu
    refine (Brings.build (Builder.brings_asInt ha hu (List.subset_append_left F₂ _))).bind fun l => ?_
    refine (Brings.build (Builder.brings_random (.fact (by simp)) (.fact List.mem_cons_self) hd)).bind fun o => ?_
    exact .pure fun n m hm => .int hm fun f hf => by simp [hf]

end Lower
end QuillLang
