import QuillLang.Proofs.Texts.Straight
/-!
# What code has in hand

Code that computes an expression starts at some machine and leaves its slots, its earlier blocks and its earlier registers
alone.  What it has in hand at a point are facts, operands with the values they stand for, and pieces, the live blocks it
made (`Machine.InHand`).  Every instruction of an expression adds a fact, or makes, fills or gives back a piece.
-/
namespace QuillLang

/-! ## Pieces -/

structure Piece where
  block : Nat
  size : Nat
  text : List UInt8

/-- A heap has the blocks that were there before, as they were, and beyond them no live ones but the pieces. -/
structure HoldsOnly (before : List Buffer) (ps : List Piece) (heap : List Buffer) : Prop where
  kept : before <+: heap
  nodup : (ps.map Piece.block).Nodup
  later : ∀ q ∈ ps, before.length ≤ q.block
  there : ∀ q ∈ ps, ∃ k, heap[q.block]? = some k ∧ k.live = true ∧ k.size = q.size ∧ k.text = q.text
  only : ∀ b k, before.length ≤ b → heap[b]? = some k → k.live = true → b ∈ ps.map Piece.block

namespace HoldsOnly
variable {before heap : List Buffer} {ps ps' : List Piece} {q : Piece} {k : Buffer}

theorem nil (heap : List Buffer) : HoldsOnly heap [] heap where
  kept := List.prefix_refl heap
  nodup := List.nodup_nil
  later _ hq := by cases hq
  there _ hq := by cases hq
  only b k hb hk _ := by
    rw [List.getElem?_eq_none hb] at hk
    cases hk

theorem perm (h : HoldsOnly before ps heap) (hp : ps.Perm ps') : HoldsOnly before ps' heap where
  kept := h.kept
  nodup := (hp.map Piece.block).nodup_iff.1 h.nodup
  later q hq := h.later q (hp.mem_iff.2 hq)
  there q hq := h.there q (hp.mem_iff.2 hq)
  only b k hb hk hl := (hp.map Piece.block).mem_iff.1 (h.only b k hb hk hl)

theorem get_of_before (h : HoldsOnly before ps heap) {b : Nat} (hb : before[b]? = some k) : heap[b]? = some k := by
  obtain ⟨more, rfl⟩ := h.kept
  rw [List.getElem?_append_left (List.getElem?_eq_some_iff.1 hb).1]
  exact hb

theorem alloc (h : HoldsOnly before ps heap) (hk : k.live = true) :
    HoldsOnly before (⟨heap.length, k.size, k.text⟩ :: ps) (heap ++ [k]) where
  kept := h.kept.trans (List.prefix_append heap [k])
  nodup := by
    refine List.nodup_cons.2 ⟨fun hmem => ?_, h.nodup⟩
    obtain ⟨q, hq, hlength⟩ := List.mem_map.1 hmem
    obtain ⟨k', hk', -⟩ := h.there q hq
    rw [hlength, List.getElem?_eq_none (Nat.le_refl _)] at hk'
    cases hk'
  later q hq := by
    rcases List.mem_cons.1 hq with rfl | hq
    · exact h.kept.length_le
    · exact h.later q hq
  there q hq := by
    rcases List.mem_cons.1 hq with rfl | hq
    · exact ⟨k, List.getElem?_concat_length, hk, rfl, rfl⟩
    · obtain ⟨k', hk', hrest⟩ := h.there q hq
      refine ⟨k', ?_, hrest⟩
      rw [List.getElem?_append_left (List.getElem?_eq_some_iff.1 hk').1]
      exact hk'
  only b k' hb hk' hl := by
    rcases Nat.lt_or_ge b heap.length with hlt | hge
    · rw [List.getElem?_append_left hlt] at hk'
      exact List.mem_cons_of_mem _ (h.only b k' hb hk' hl)
    · have hlast : b < (heap ++ [k]).length := (List.getElem?_eq_some_iff.1 hk').1
      rw [List.length_append, List.length_singleton] at hlast
      exact List.mem_cons.2 (.inl (Nat.le_antisymm (Nat.le_of_lt_succ hlast) hge))

theorem kept_set (h : HoldsOnly before (q :: ps) heap) (k : Buffer) : before <+: heap.set q.block k := by
  obtain ⟨more, rfl⟩ := h.kept
  rw [List.set_append_right _ _ (h.later q List.mem_cons_self)]
  exact List.prefix_append _ _

theorem ne_of_mem (h : HoldsOnly before (q :: ps) heap) {q' : Piece} (hq' : q' ∈ ps) : q.block ≠ q'.block :=
  fun heq => (List.nodup_cons.1 h.nodup).1 (heq ▸ List.mem_map_of_mem hq')

theorem there_set (h : HoldsOnly before (q :: ps) heap) (k : Buffer) {q' : Piece} (hq' : q' ∈ ps) :
    ∃ k', (heap.set q.block k)[q'.block]? = some k' ∧ k'.live = true ∧ k'.size = q'.size ∧ k'.text = q'.text := by
  rw [List.getElem?_set_ne (h.ne_of_mem hq')]
  exact h.there q' (List.mem_cons_of_mem _ hq')

theorem fill (h : HoldsOnly before (q :: ps) heap) (hk : heap[q.block]? = some k) (text : List UInt8) :
    HoldsOnly before ({ q with text := text } :: ps) (heap.set q.block { k with text := text }) where
  kept := h.kept_set _
  nodup := h.nodup
  later q' hq' := by
    rcases List.mem_cons.1 hq' with rfl | hq'
    · exact h.later q List.mem_cons_self
    · exact h.later q' (List.mem_cons_of_mem _ hq')
  there q' hq' := by
    rcases List.mem_cons.1 hq' with rfl | hq'
    · obtain ⟨k', hk', hlive, hsize, -⟩ := h.there q List.mem_cons_self
      obtain rfl : k = k' := Option.some.inj (hk.symm.trans hk')
      exact ⟨_, List.getElem?_set_self (List.getElem?_eq_some_iff.1 hk).1, hlive, hsize, rfl⟩
    · exact h.there_set _ hq'
  only b k' hb hk' hl := by
    by_cases hblock : b = q.block
    · exact List.mem_cons.2 (.inl hblock)
    · rw [List.getElem?_set_ne fun heq => hblock heq.symm] at hk'
      exact h.only b k' hb hk' hl

theorem drop (h : HoldsOnly before (q :: ps) heap) (hk : k.live = false) : HoldsOnly before ps (heap.set q.block k) where
  kept := h.kept_set _
  nodup := (List.nodup_cons.1 h.nodup).2
  later q' hq' := h.later q' (List.mem_cons_of_mem _ hq')
  there _ hq' := h.there_set _ hq'
  only b k' hb hk' hl := by
    by_cases hblock : b = q.block
    · subst hblock
      have hlt : q.block < heap.length := by simpa using (List.getElem?_eq_some_iff.1 hk').1
      rw [List.getElem?_set_self hlt] at hk'
      cases hk'
      rw [hk] at hl
      cases hl
    · rw [List.getElem?_set_ne fun heq => hblock heq.symm] at hk'
      exact (List.mem_cons.1 (h.only b k' hb hk' hl)).resolve_left hblock

end HoldsOnly

/-! ## Machines -/

abbrev Facts := List (Operand × Value)

/-- An operand that stands for a value: by a fact, or as a number written out. -/
inductive Facts.Yield (F : Facts) : Operand → Value → Prop where
  | fact {o : Operand} {v : Value} (h : (o, v) ∈ F) : F.Yield o v
  | int (n : Int64) : F.Yield (.int n) (.i64 n)

theorem Facts.Yield.mono {F F' : Facts} {o : Operand} {v : Value} (h : F.Yield o v) (hF : F ⊆ F') : F'.Yield o v := by
  cases h with
  | fact h => exact .fact (hF h)
  | int n => exact .int n

namespace Machine

theorem eval_congr {a : Assembly} {m m' : Machine} {n : Nat} {o : Operand} (ho : o.Below n)
    (h : ∀ r : Register, r.index < n → m'.running.registers r = m.running.registers r) (ty : MachineType) :
    m'.eval a ty o = m.eval a ty o := by
  cases o with
  | register r => simp only [eval, h r ho]
  | int _ | float _ | null | global _ => rfl

/-- From `m₀` on, where registers from `n₀` on were fresh, code has come to `m` with facts and pieces in hand, and now
registers from `n` on are fresh. -/
structure InHand (a : Assembly) (m₀ : Machine) (n₀ : Nat) (F : Facts) (ps : List Piece) (n : Nat) (m : Machine) : Prop where
  frame : m = { m₀ with
    running := { m₀.running with rest := m.running.rest, registers := m.running.registers }
    heap := m.heap }
  bound : n₀ ≤ n
  registers : ∀ r : Register, r.index < n₀ → m.running.registers r = m₀.running.registers r
  facts : ∀ f ∈ F, f.1.Below n ∧ m.eval a f.2.type f.1 = .ok f.2
  heap : HoldsOnly m₀.heap ps m.heap

namespace InHand
variable {a : Assembly} {m₀ m : Machine} {n₀ n : Nat} {F F' : Facts} {ps ps' : List Piece}

theorem start (a : Assembly) (m : Machine) (n : Nat) : InHand a m n [] [] n m :=
  ⟨rfl, Nat.le_refl n, fun _ _ => rfl, fun _ hf => (by cases hf), .nil m.heap⟩

theorem slots_eq (h : InHand a m₀ n₀ F ps n m) : m.slots = m₀.slots := by
  rw [h.frame]

theorem weaken (h : InHand a m₀ n₀ F ps n m) (hF : F' ⊆ F) : InHand a m₀ n₀ F' ps n m :=
  { h with facts := fun f hf => h.facts f (hF hf) }

theorem perm (h : InHand a m₀ n₀ F ps n m) (hp : ps.Perm ps') : InHand a m₀ n₀ F ps' n m :=
  { h with heap := h.heap.perm hp }

theorem literal (h : InHand a m₀ n₀ F ps n m) (v : Int64) : InHand a m₀ n₀ ((.int v, .i64 v) :: F) ps n m :=
  { h with facts := List.forall_mem_cons.2 ⟨⟨trivial, rfl⟩, h.facts⟩ }

theorem eval (h : InHand a m₀ n₀ F ps n m) {o : Operand} {v : Value} (ho : F.Yield o v) : m.eval a v.type o = .ok v := by
  cases ho with
  | fact hmem => exact (h.facts _ hmem).2
  | int n => rfl

theorem withHeap (h : InHand a m₀ n₀ F ps n m) {heap : List Buffer} (hheap : HoldsOnly m₀.heap ps' heap) :
    InHand a m₀ n₀ F ps' n { m with heap := heap } where
  frame := by
    rw [h.frame]
  bound := h.bound
  registers := h.registers
  facts := h.facts
  heap := hheap

theorem finish (h : InHand a m₀ n₀ F ps n m) (v : Value) :
    InHand a m₀ n₀ ((.register ⟨n⟩, v) :: F) ps (n + 1) (m.finish (some ⟨n⟩) v) where
  frame := by
    rw [h.frame]
    rfl
  bound := Nat.le_succ_of_le h.bound
  registers r hr := by
    refine (override_of_ne fun heq => ?_).trans (h.registers r hr)
    subst heq
    exact absurd h.bound (Nat.not_le.2 hr)
  facts f hf := by
    rcases List.mem_cons.1 hf with rfl | hf
    · exact ⟨Nat.lt_succ_self n, eval_register (override_self _ _ v)⟩
    · obtain ⟨hbelow, heval⟩ := h.facts f hf
      refine ⟨hbelow.mono (Nat.le_succ n), (eval_congr hbelow (fun r hr => ?_) _).trans heval⟩
      exact override_of_ne fun heq => Nat.lt_irrefl n (heq ▸ hr : (⟨n⟩ : Register).index < n)
  heap := h.heap

theorem advance (h : InHand a m₀ n₀ F ps n m) (v : Value) : InHand a m₀ n₀ F ps n (m.finish none v) where
  frame := by
    rw [h.frame]
    rfl
  bound := h.bound
  registers := h.registers
  facts := h.facts
  heap := h.heap

theorem text_of_base (h : InHand a m₀ n₀ F ps n m) {p : Pointer} {s : List UInt8} (hp : m₀.text a p = .ok s) :
    m.text a p = .ok s := by
  cases p with
  | null | slot _ _ => cases hp
  | global g => exact hp
  | heap b offset =>
    simp only [text] at hp ⊢
    split at hp
    · rename_i k hk
      rw [h.heap.get_of_before hk]
      exact hp
    · cases hp

theorem text_of_piece (h : InHand a m₀ n₀ F ps n m) {q : Piece} (hq : q ∈ ps) :
    m.text a (.heap q.block 0) = .ok q.text := by
  obtain ⟨k, hk, hlive, -, htext⟩ := h.heap.there q hq
  simp [text, hk, hlive, htext]

end InHand

/-- An operand leads to a text: one that was there at the start, or a piece. -/
def Readable (a : Assembly) (m₀ : Machine) (F : Facts) (ps : List Piece) (o : Operand) (s : List UInt8) : Prop :=
  ∃ p, (o, .ptr p) ∈ F ∧ (m₀.text a p = .ok s ∨ ∃ q ∈ ps, p = .heap q.block 0 ∧ q.text = s)

theorem InHand.read {a : Assembly} {m₀ m : Machine} {n₀ n : Nat} {F : Facts} {ps : List Piece} {o : Operand} {s : List UInt8}
    (h : InHand a m₀ n₀ F ps n m) (ho : Readable a m₀ F ps o s) :
    ∃ p, m.eval a .ptr o = .ok (.ptr p) ∧ m.text a p = .ok s := by
  obtain ⟨p, hp, htext⟩ := ho
  refine ⟨p, h.eval (.fact hp), ?_⟩
  rcases htext with htext | ⟨q, hq, rfl, rfl⟩
  · exact h.text_of_base htext
  · exact h.text_of_piece hq

end Machine
end QuillLang
