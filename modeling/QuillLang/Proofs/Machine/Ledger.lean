import QuillLang.Proofs.Machine.Heap
/-!
# Who holds what

The buffers of an activation are at places of it, each at one.  The ledger says so, and is kept up when a place takes a
buffer, loses it or passes it on.
-/
namespace QuillLang

/-- Where an activation may hold a buffer. -/
inductive Place where
  | register (r : Register)
  | slot (r : Register)
  deriving DecidableEq

def Place.value (registers slots : Register → Option Value) : Place → Option Value
  | register r => registers r
  | slot s => slots s

/-- The blocks of an activation are those at the places of `H`, each at one place. -/
structure Ledger (H : Place → Prop) (value : Place → Option Value) (id : Nat) (heap : List Buffer) : Prop where
  owned : ∀ x, H x → ∃ p, value x = some (.ptr p) ∧ OwnedBy heap id p
  unique : ∀ x y b, H x → H y → value x = some (.ptr (.heap b 0)) → value y = some (.ptr (.heap b 0)) → x = y
  complete : ∀ b, Owns heap id b → ∃ x, H x ∧ value x = some (.ptr (.heap b 0))

namespace Ledger
variable {H H' : Place → Prop} {value value' : Place → Option Value} {id : Nat} {heap heap' : List Buffer}
  {p : Pointer}

theorem owns (h : Ledger H value id heap) {x : Place} {b : Nat} (hx : H x) (hb : value x = some (.ptr (.heap b 0))) :
    Owns heap id b := by
  obtain ⟨q, hq, hown⟩ := h.owned x hx
  rw [hb] at hq
  cases hq
  rcases hown with hn | ⟨c, hc, hown⟩
  · cases hn
  · cases hc
    exact hown

theorem congr (h : Ledger H value id heap) (hH : ∀ x, H' x ↔ H x) (hv : ∀ x, H x → value' x = value x)
    (hown : ∀ b, Owns heap' id b ↔ Owns heap id b) : Ledger H' value' id heap' := by
  refine ⟨fun x hx => ?_, fun x y b hx hy hxb hyb => ?_, fun b hb => ?_⟩
  · have hx := (hH x).1 hx
    obtain ⟨p, hp, hb⟩ := h.owned x hx
    refine ⟨p, (hv x hx).trans hp, ?_⟩
    rcases hb with rfl | ⟨b, rfl, hb⟩
    · exact .inl rfl
    · exact .inr ⟨b, rfl, (hown b).2 hb⟩
  · have hx := (hH x).1 hx
    have hy := (hH y).1 hy
    rw [hv x hx] at hxb
    rw [hv y hy] at hyb
    exact h.unique x y b hx hy hxb hyb
  · obtain ⟨x, hx, hxb⟩ := h.complete b ((hown b).1 hb)
    exact ⟨x, (hH x).2 hx, (hv x hx).trans hxb⟩

theorem add (x₀ : Place) (h : Ledger H value id heap) (hH : ∀ x, H' x ↔ H x ∨ x = x₀) (hx₀ : ¬ H x₀)
    (hv : ∀ x, x ≠ x₀ → value' x = value x) (hp : value' x₀ = some (.ptr p)) (hform : p = .null ∨ ∃ b, p = .heap b 0)
    (hgain : ∀ b, Owns heap' id b ↔ Owns heap id b ∨ p = .heap b 0) (hnew : ∀ b, p = .heap b 0 → ¬ Owns heap id b) :
    Ledger H' value' id heap' := by
  have hne : ∀ {x : Place}, H x → x ≠ x₀ := by
    rintro x hx rfl
    exact hx₀ hx
  have hother : ∀ {x : Place} {b : Nat}, H x → value' x = some (.ptr (.heap b 0)) → p ≠ .heap b 0 := by
    intro x b hx hxb he
    rw [hv x (hne hx)] at hxb
    exact hnew b he (h.owns hx hxb)
  refine ⟨fun x hx => ?_, fun x y b hx hy hxb hyb => ?_, fun b hb => ?_⟩
  · rcases (hH x).1 hx with hx | rfl
    · obtain ⟨q, hq, hown⟩ := h.owned x hx
      refine ⟨q, (hv x (hne hx)).trans hq, ?_⟩
      rcases hown with rfl | ⟨b, rfl, hb⟩
      · exact .inl rfl
      · exact .inr ⟨b, rfl, (hgain b).2 (.inl hb)⟩
    · refine ⟨p, hp, ?_⟩
      rcases hform with rfl | ⟨b, rfl⟩
      · exact .inl rfl
      · exact .inr ⟨b, rfl, (hgain b).2 (.inr rfl)⟩
  · rcases (hH x).1 hx with hx | rfl
    · rcases (hH y).1 hy with hy | rfl
      · rw [hv x (hne hx)] at hxb
        rw [hv y (hne hy)] at hyb
        exact h.unique x y b hx hy hxb hyb
      · rw [hp] at hyb
        cases hyb
        exact absurd rfl (hother hx hxb)
    · rcases (hH y).1 hy with hy | rfl
      · rw [hp] at hxb
        cases hxb
        exact absurd rfl (hother hy hyb)
      · rfl
  · rcases (hgain b).1 hb with hb | rfl
    · obtain ⟨x, hx, hxb⟩ := h.complete b hb
      exact ⟨x, (hH x).2 (.inl hx), (hv x (hne hx)).trans hxb⟩
    · exact ⟨x₀, (hH x₀).2 (.inr rfl), hp⟩

theorem remove (x₀ : Place) (h : Ledger H value id heap) (hx₀ : H x₀) (hp : value x₀ = some (.ptr p))
    (hH : ∀ x, H' x ↔ H x ∧ x ≠ x₀) (hlose : ∀ b, Owns heap' id b ↔ Owns heap id b ∧ p ≠ .heap b 0) :
    Ledger H' value id heap' := by
  refine ⟨fun x hx => ?_, fun x y b hx hy => h.unique x y b ((hH x).1 hx).1 ((hH y).1 hy).1, fun b hb => ?_⟩
  · obtain ⟨hx, hne⟩ := (hH x).1 hx
    obtain ⟨q, hq, hown⟩ := h.owned x hx
    refine ⟨q, hq, ?_⟩
    rcases hown with rfl | ⟨b, rfl, hb⟩
    · exact .inl rfl
    · refine .inr ⟨b, rfl, (hlose b).2 ⟨hb, ?_⟩⟩
      rintro rfl
      exact hne (h.unique x x₀ b hx hx₀ hq hp)
  · obtain ⟨hb, hne⟩ := (hlose b).1 hb
    obtain ⟨x, hx, hxb⟩ := h.complete b hb
    refine ⟨x, (hH x).2 ⟨hx, ?_⟩, hxb⟩
    rintro rfl
    rw [hp] at hxb
    cases hxb
    exact hne rfl

theorem move (x₀ x₁ : Place) (h : Ledger H value id heap) (hx₀ : H x₀) (hp : value x₀ = some (.ptr p))
    (hH : ∀ x, H' x ↔ (H x ∧ x ≠ x₀) ∨ x = x₁) (hvacant : H x₁ → value x₁ = some (.ptr .null))
    (hv : ∀ x, x ≠ x₁ → value' x = value x) (hp' : value' x₁ = some (.ptr p)) : Ledger H' value' id heap := by
  have hcases : ∀ {x : Place}, H' x → x ≠ x₁ → H x ∧ x ≠ x₀ ∧ value' x = value x := by
    intro x hx hx₁
    rcases (hH x).1 hx with ⟨hx, hx₀⟩ | hx
    · exact ⟨hx, hx₀, hv x hx₁⟩
    · exact absurd hx hx₁
  -- only the old place held the buffer
  have hother : ∀ {x : Place} {b : Nat}, H' x → x ≠ x₁ → value' x = some (.ptr (.heap b 0)) → p ≠ .heap b 0 := by
    rintro x b hx hx₁ hxb rfl
    obtain ⟨hx, hne₀, hvx⟩ := hcases hx hx₁
    rw [hvx] at hxb
    exact hne₀ (h.unique x x₀ b hx hx₀ hxb hp)
  refine ⟨fun x hx => ?_, fun x y b hx hy hxb hyb => ?_, fun b hb => ?_⟩
  · by_cases hx₁ : x = x₁
    · rw [hx₁, hp', ← hp]
      exact h.owned x₀ hx₀
    · obtain ⟨hx, -, hvx⟩ := hcases hx hx₁
      rw [hvx]
      exact h.owned x hx
  · by_cases hx₁ : x = x₁
    · by_cases hy₁ : y = x₁
      · rw [hx₁, hy₁]
      · rw [hx₁, hp'] at hxb
        cases hxb
        exact absurd rfl (hother hy hy₁ hyb)
    · by_cases hy₁ : y = x₁
      · rw [hy₁, hp'] at hyb
        cases hyb
        exact absurd rfl (hother hx hx₁ hxb)
      · obtain ⟨hx, -, hvx⟩ := hcases hx hx₁
        obtain ⟨hy, -, hvy⟩ := hcases hy hy₁
        rw [hvx] at hxb
        rw [hvy] at hyb
        exact h.unique x y b hx hy hxb hyb
  · obtain ⟨x, hx, hxb⟩ := h.complete b hb
    by_cases hxx₀ : x = x₀
    · rw [hxx₀, hp] at hxb
      exact ⟨x₁, (hH x₁).2 (.inr rfl), hp'.trans hxb⟩
    · have hx₁ : x ≠ x₁ := by
        rintro rfl
        rw [hvacant hx] at hxb
        cases hxb
      exact ⟨x, (hH x).2 (.inl ⟨hx, hxx₀⟩), (hv x hx₁).trans hxb⟩

end Ledger
end QuillLang
