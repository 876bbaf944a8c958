import QuillLang.Proofs.Sketch.Emit
/-!
# Buffers in hand

A stretch of code takes some buffers from the hand and leaves others there: `Writes D F b t X Y b' t'` says that the code
written between `b` and `b'` takes `X` and leaves `Y`, and that whatever else was known stays known.
-/
namespace QuillLang

/-- The buffers `X` in hand become `Y`; registers below `n` that hold no buffer stay as they are. -/
structure Known.Turns (n : Nat) (X Y : List Register) (t t' : Known) : Prop where
  keep : ∀ r, r.index < n → t.content r ≠ some .owned → t'.content r = t.content r
  hand : ∀ r, t'.content r = some .owned ↔ t.content r = some .owned ∧ r ∉ X ∨ r ∈ Y
  status : t'.status = t.status
  mark : t'.mark = t.mark
  dead : t'.dead = t.dead

structure Writes (D : Sketch) (F : Frame) (b : Builder) (t : Known) (X Y : List Register) (b' : Builder) (t' : Known) :
    Prop where
  building : Building D F b' t'
  le : b.nextRegister ≤ b'.nextRegister
  turns : Known.Turns b.nextRegister X Y t t'
  made : ∀ r ∈ Y, r ∈ X ∨ b.nextRegister ≤ r.index

namespace Writes
variable {D : Sketch} {F : Frame} {b b' b'' : Builder} {t t' t'' : Known} {X Y X' Y' : List Register}

theorem refl (h : Building D F b t) : Writes D F b t [] [] b t :=
  ⟨h, Nat.le_refl _, ⟨fun _ _ _ => rfl, fun r => by simp, rfl, rfl, rfl⟩, by simp⟩

theorem hold (h : Building D F b t) (hX : ∀ r ∈ X, t.content r = some .owned) : Writes D F b t X X b t := by
  refine ⟨h, Nat.le_refl _, ⟨fun _ _ _ => rfl, fun r => ?_, rfl, rfl, rfl⟩, fun r hr => .inl hr⟩
  by_cases hr : r ∈ X
  · simp [hr, hX r hr]
  · simp [hr]

/-- What is known of registers without a buffer, across two stretches of code. -/
theorem keep_trans (h : Writes D F b t X Y b' t') (h' : Writes D F b' t' X' Y' b'' t'') {r : Register}
    (hr : r.index < b.nextRegister) (ho : t.content r ≠ some .owned) : t''.content r = t.content r := by
  have hk := h.turns.keep r hr ho
  rw [h'.turns.keep r (Nat.lt_of_lt_of_le hr h.le) (by rw [hk]; exact ho), hk]

theorem append (h : Writes D F b t X Y b' t') (h' : Writes D F b' t' X' Y' b'' t'') (hY : ∀ r ∈ Y, r ∉ X') :
    Writes D F b t (X ++ X') (Y ++ Y') b'' t'' := by
  refine ⟨h'.building, Nat.le_trans h.le h'.le, ⟨fun r hr ho => h.keep_trans h' hr ho, fun r => ?_, ?_, ?_, ?_⟩, ?_⟩
  · rw [h'.turns.hand r, h.turns.hand r]
    have := hY r
    simp only [List.mem_append]
    grind
  · rw [h'.turns.status, h.turns.status]
  · rw [h'.turns.mark, h.turns.mark]
  · rw [h'.turns.dead, h.turns.dead]
  · intro r hr
    have hle := h.le
    rcases List.mem_append.1 hr with hr | hr
    · exact (h.made r hr).imp (List.mem_append_left _) id
    · exact (h'.made r hr).imp (List.mem_append_right _) (Nat.le_trans hle)

theorem then_takes (h : Writes D F b t X Y b' t') (hb : Building D F b t) (h' : Writes D F b' t' Y Y' b'' t'') :
    Writes D F b t X Y' b'' t'' := by
  refine ⟨h'.building, Nat.le_trans h.le h'.le, ⟨fun r hr ho => h.keep_trans h' hr ho, fun r => ?_, ?_, ?_, ?_⟩, ?_⟩
  · rw [h'.turns.hand r, h.turns.hand r]
    have hold : t.content r = some .owned → r ∈ Y → r ∈ X := by
      intro ho hr
      have := hb.content_below ho
      exact (h.made r hr).resolve_right (by omega)
    grind
  · rw [h'.turns.status, h.turns.status]
  · rw [h'.turns.mark, h.turns.mark]
  · rw [h'.turns.dead, h.turns.dead]
  · intro r hr
    have hle := h.le
    rcases h'.made r hr with hr | hr
    · exact h.made r hr
    · exact .inr (Nat.le_trans hle hr)

theorem then_makes (h : Writes D F b t X Y b' t') (h' : Writes D F b' t' [] Y' b'' t'') :
    Writes D F b t X (Y ++ Y') b'' t'' := by
  have := h.append h' (by simp)
  rwa [List.append_nil] at this

theorem define (hb : Building D F b t) {c : Content} (hc : c ≠ .owned) (hn : b'.nextRegister = b.nextRegister + 1)
    (h : Building D F b' (t.define ⟨b.nextRegister⟩ c)) : Writes D F b t [] [] b' (t.define ⟨b.nextRegister⟩ c) := by
  refine ⟨h, by omega, ⟨fun r hr _ => ?_, fun r => ?_, rfl, rfl, rfl⟩, by simp⟩
  · rw [Known.content_define, if_neg (fun he => by rw [he] at hr; exact Nat.lt_irrefl _ hr)]
  · rw [Known.content_define]
    split
    · rename_i he
      have := (hb.unknown r (Nat.le_of_eq (by rw [he]))).1
      simp [this, hc]
    · simp

theorem obtain_buffer (hn : b'.nextRegister = b.nextRegister + 1)
    (h : Building D F b' (t.define ⟨b.nextRegister⟩ .owned)) :
    Writes D F b t [] [⟨b.nextRegister⟩] b' (t.define ⟨b.nextRegister⟩ .owned) := by
  refine ⟨h, by omega, ⟨fun r hr _ => ?_, fun r => ?_, rfl, rfl, rfl⟩, by simp⟩
  · rw [Known.content_define, if_neg (fun he => by rw [he] at hr; exact Nat.lt_irrefl _ hr)]
  · rw [Known.content_define]
    split
    · rename_i he
      simp [he]
    · rename_i he
      simp [he]

theorem give_up (hn : b'.nextRegister = b.nextRegister) {r : Register} (hr : t.content r = some .owned)
    (h : Building D F b' (t.define r (.plain .ptr))) : Writes D F b t [r] [] b' (t.define r (.plain .ptr)) := by
  refine ⟨h, by omega, ⟨fun x hx ho => ?_, fun x => ?_, rfl, rfl, rfl⟩, by simp⟩
  · rw [Known.content_define, if_neg (fun he => ho (by rw [he, hr]))]
  · rw [Known.content_define]
    split
    · rename_i he
      simp [he]
    · rename_i he
      simp [he]

end Writes

/-! ## What stays known -/

def Known.Lends (t : Known) (v : Operand) : Prop :=
  match v with
  | .register r => ∃ c, t.content r = some c ∧ c.isText = true ∧ c ≠ .owned
  | .global _ => True
  | .int _ | .float _ | .null => False

theorem Known.Lends.readable {t : Known} {v : Operand} (h : t.Lends v) : t.Readable v := by
  cases v with
  | register r => exact ⟨h.choose, h.choose_spec.1, h.choose_spec.2.1⟩
  | global => trivial
  | int | float | null => exact h

theorem Known.Readable.hasType {t : Known} {v : Operand} (h : t.Readable v) : t.HasType v .ptr := by
  cases v with
  | register r =>
    obtain ⟨c, hc, ht⟩ := h
    refine ⟨c, hc, ?_⟩
    cases c <;> first | rfl | cases ht
  | global => rfl
  | int | float | null => exact h.elim

namespace TextHandle

def owned? : TextHandle → List Register
  | owned (.register r) => [r]
  | owned _ | borrowed _ => []

theorem nodup_owned? (h : TextHandle) : h.owned?.Nodup := by
  unfold owned?
  split <;> simp

def Typed (t : Known) : TextHandle → Prop
  | owned v => ∃ r, v = .register r ∧ t.content r = some .owned
  | borrowed v => t.Lends v

theorem Typed.readable {t : Known} {h : TextHandle} (ht : h.Typed t) : t.Readable h.value := by
  cases h with
  | owned v =>
    obtain ⟨r, rfl, hr⟩ := ht
    exact ⟨_, hr, rfl⟩
  | borrowed v => exact Known.Lends.readable ht

theorem Typed.passes {t : Known} {h : TextHandle} (ht : h.Typed t) : t.Passes (.ptr, h.value) :=
  ⟨ht.readable.hasType, fun _ => ht.readable⟩

theorem Typed.content_owned {t : Known} {h : TextHandle} (ht : h.Typed t) : ∀ r ∈ h.owned?, t.content r = some .owned := by
  intro r hr
  cases h with
  | owned v =>
    obtain ⟨x, rfl, hx⟩ := ht
    obtain rfl : r = x := by simpa [owned?] using hr
    exact hx
  | borrowed v => cases hr

end TextHandle

namespace Lowered

def owned? : Lowered → List Register
  | text h => h.owned?
  | int _ | bool _ => []

def Typed (t : Known) : Lowered → Prop
  | int v => t.HasType v .i64
  | bool v => t.HasType v .i1
  | text h => h.Typed t

theorem Typed.content_owned {t : Known} {v : Lowered} (ht : v.Typed t) : ∀ r ∈ v.owned?, t.content r = some .owned := by
  intro r hr
  cases v with
  | text h => exact TextHandle.Typed.content_owned ht r hr
  | int | bool => cases hr

end Lowered

namespace Writes
variable {D : Sketch} {F : Frame} {b b' : Builder} {t t' : Known} {X Y : List Register}

theorem hasType (h : Writes D F b t X Y b' t') (hb : Building D F b t) {v : Operand} {ty : MachineType} (hty : ty ≠ .ptr)
    (hv : t.HasType v ty) : t'.HasType v ty := by
  cases v with
  | register r =>
    obtain ⟨c, hc, hct⟩ := hv
    refine ⟨c, ?_, hct⟩
    rw [h.turns.keep r (hb.content_below hc), hc]
    rw [hc]
    rintro ⟨⟩
    exact hty hct.symm
  | int | float | null | global => exact hv

theorem lends (h : Writes D F b t X Y b' t') (hb : Building D F b t) {v : Operand} (hv : t.Lends v) : t'.Lends v := by
  cases v with
  | register r =>
    obtain ⟨c, hc, ht, hne⟩ := hv
    refine ⟨c, ?_, ht, hne⟩
    rw [h.turns.keep r (hb.content_below hc), hc]
    rw [hc]
    simpa using hne
  | int | float | null | global => exact hv

theorem handle (h : Writes D F b t X Y b' t') (hb : Building D F b t) {x : TextHandle} (hX : ∀ r ∈ x.owned?, r ∉ X)
    (hx : x.Typed t) : x.Typed t' := by
  cases x with
  | owned v =>
    obtain ⟨r, rfl, hr⟩ := hx
    exact ⟨r, rfl, (h.turns.hand r).2 (.inl ⟨hr, hX r (by simp [TextHandle.owned?])⟩)⟩
  | borrowed v => exact h.lends hb hx

theorem lowered (h : Writes D F b t X Y b' t') (hb : Building D F b t) {v : Lowered} (hX : ∀ r ∈ v.owned?, r ∉ X)
    (hv : v.Typed t) : v.Typed t' := by
  cases v with
  | int v => exact h.hasType hb (by decide) hv
  | bool v => exact h.hasType hb (by decide) hv
  | text x => exact h.handle hb hX hv

end Writes
end QuillLang
