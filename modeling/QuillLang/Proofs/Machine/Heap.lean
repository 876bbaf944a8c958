import QuillLang.Proofs.Machine.Step
import Mathlib.Data.List.Forall2
/-!
# Who owns what

A live block has one activation that owns it.  Allocating gives the running activation one block more, freeing takes one
away, returning hands one over, and writing changes nothing.
-/
namespace QuillLang

def Owns (heap : List Buffer) (id b : Nat) : Prop := ∃ k, heap[b]? = some k ∧ k.live = true ∧ k.owner = id

namespace Owns
variable {heap : List Buffer} {id id' b c : Nat} {k : Buffer}

theorem unique (h : Owns heap id b) (h' : Owns heap id' b) : id = id' := by
  obtain ⟨k, hk, -, rfl⟩ := h
  obtain ⟨k', hk', -, rfl⟩ := h'
  rw [hk] at hk'
  cases hk'
  rfl

theorem lt_length (h : Owns heap id b) : b < heap.length := by
  obtain ⟨k, hk, -⟩ := h
  exact (List.getElem?_eq_some_iff.1 hk).1

theorem append_iff (hk : k.live = true) : Owns (heap ++ [k]) id b ↔ Owns heap id b ∨ (b = heap.length ∧ k.owner = id) := by
  unfold Owns
  rcases Nat.lt_trichotomy b heap.length with hb | rfl | hb
  · rw [List.getElem?_append_left hb]
    constructor
    · exact .inl
    · rintro (h | ⟨rfl, -⟩)
      · exact h
      · omega
  · simp [hk]
  · rw [List.getElem?_eq_none (by simp; omega), List.getElem?_eq_none (by omega)]
    constructor
    · rintro ⟨k, h, -⟩
      cases h
    · rintro (⟨k, h, -⟩ | ⟨rfl, -⟩)
      · cases h
      · omega

theorem set_dead_iff (hk : k.live = false) : Owns (heap.set b k) id c ↔ Owns heap id c ∧ b ≠ c := by
  unfold Owns
  rw [List.getElem?_set]
  by_cases hbc : b = c
  · subst hbc
    rw [if_pos rfl]
    constructor
    · rintro ⟨k', hk', hlive, -⟩
      split at hk'
      · cases hk'
        rw [hk] at hlive
        cases hlive
      · cases hk'
    · rintro ⟨-, hne⟩
      exact absurd rfl hne
  · rw [if_neg hbc]
    constructor
    · exact fun h => ⟨h, hbc⟩
    · exact fun h => h.1

theorem set_iff {k' : Buffer} (hb : heap[b]? = some k) (hl : k'.live = k.live) (ho : k'.owner = k.owner) :
    Owns (heap.set b k') id c ↔ Owns heap id c := by
  unfold Owns
  rw [List.getElem?_set]
  by_cases hbc : b = c
  · subst hbc
    rw [if_pos rfl, if_pos (List.getElem?_eq_some_iff.1 hb).1, hb]
    simp [hl, ho]
  · rw [if_neg hbc]

theorem modify_iff {f : Buffer → Buffer} (hl : ∀ k, (f k).live = k.live) (ho : ∀ k, (f k).owner = id') :
    Owns (heap.modify b f) id c ↔ (b ≠ c ∧ Owns heap id c) ∨ (b = c ∧ id = id' ∧ ∃ i, Owns heap i b) := by
  unfold Owns
  rw [List.getElem?_modify]
  by_cases hbc : b = c
  · subst hbc
    simp only [if_pos, Option.map_eq_map, Option.map_eq_some_iff, ne_eq, not_true_eq_false, false_and, false_or, true_and]
    constructor
    · rintro ⟨k, ⟨k₀, hk₀, rfl⟩, hlive, rfl⟩
      exact ⟨ho k₀, k₀.owner, k₀, hk₀, hl k₀ ▸ hlive, rfl⟩
    · rintro ⟨rfl, i, k, hk, hlive, -⟩
      exact ⟨f k, ⟨k, hk, rfl⟩, (hl k).trans hlive, ho k⟩
  · simp [hbc]

end Owns

def OwnedBy (heap : List Buffer) (id : Nat) (p : Pointer) : Prop := p = .null ∨ ∃ b, p = .heap b 0 ∧ Owns heap id b

/-- Null, a constant, or a block of an activation before `id`. -/
def LentTo (a : Assembly) (heap : List Buffer) (id : Nat) (p : Pointer) : Prop :=
  p = .null ∨ (∃ g, p = .global g ∧ g ∈ a.globals.map Global.name) ∨
    ∃ b owner, p = .heap b 0 ∧ Owns heap owner b ∧ owner < id

theorem OwnedBy.lentTo {a : Assembly} {heap : List Buffer} {id id' : Nat} {p : Pointer} (h : OwnedBy heap id p)
    (hlt : id < id') : LentTo a heap id' p := by
  rcases h with rfl | ⟨b, rfl, hb⟩
  · exact .inl rfl
  · exact .inr (.inr ⟨b, id, rfl, hb, hlt⟩)

theorem LentTo.mono {a : Assembly} {heap : List Buffer} {id id' : Nat} {p : Pointer} (h : LentTo a heap id p)
    (hle : id ≤ id') : LentTo a heap id' p := by
  rcases h with rfl | ⟨g, rfl, hg⟩ | ⟨b, owner, rfl, hb, hlt⟩
  · exact .inl rfl
  · exact .inr (.inl ⟨g, rfl, hg⟩)
  · exact .inr (.inr ⟨b, owner, rfl, hb, by omega⟩)

theorem LentTo.not_dangles {a : Assembly} {m : Machine} {id : Nat} {p : Pointer} (h : LentTo a m.heap id p) :
    m.dangles a p = false := by
  rcases h with rfl | ⟨g, rfl, hg⟩ | ⟨b, owner, rfl, ⟨k, hk, hlive, -⟩, -⟩
  · rfl
  · simp [Machine.dangles, hg]
  · simp [Machine.dangles, hk, hlive]

/-! ## Steps that go well -/

/-- The run goes on with `Q`, ends, or stops at null or outside an array. -/
def Safe {α : Type} (x : Except Halt α) (Q : α → Prop) : Prop :=
  match x with
  | .ok v => Q v
  | .error (.exit _) => True
  | .error (.fault f) => f = .nullText ∨ f = .outOfBounds

namespace Safe
variable {α β : Type} {x : Except Halt α} {f : α → Except Halt β} {P : α → Prop} {Q : β → Prop}

theorem bind (hx : Safe x P) (hf : ∀ v, P v → Safe (f v) Q) : Safe (x >>= f) Q := by
  cases x with
  | ok v => exact hf v hx
  | error e => cases e <;> exact hx

theorem mono {P' : α → Prop} (hx : Safe x P) (h : ∀ v, P v → P' v) : Safe x P' := by
  cases x with
  | ok v => exact h v hx
  | error e => cases e <;> exact hx

theorem mapM {R : α → β → Prop} : ∀ {l : List α}, (∀ x ∈ l, Safe (f x) (R x)) → Safe (l.mapM f) (List.Forall₂ R l)
  | [], _ => .nil
  | x :: l, h => by
    rw [List.mapM_cons]
    refine (h x (by simp)).bind fun y hy => ?_
    refine (mapM fun z hz => h z (List.mem_cons_of_mem x hz)).bind fun ys hys => ?_
    exact .cons hy hys

theorem of_eq {v : α} (hx : x = .ok v) (h : P v) : Safe x P := by
  rw [hx]
  exact h

end Safe

end QuillLang
