import Mathlib.Data.List.Nodup
import QuillLang.Proofs.Sketch.Call
/-!
# Returns

A function frees the buffers of its variables before it returns, except the one of the variable it returns.  What follows
a return is a block that nothing enters.
-/
namespace QuillLang

/-- What a function returns: a number, a buffer in hand, or the buffer of a variable, which must not be freed. -/
inductive Returnable (F : Frame) (t : Known) : Ty → Operand → Option String → Prop where
  | number {v : Operand} (value : t.HasType v .i64) (hold : t.Holding []) : Returnable F t .int v none
  | buffer {r : Register} (hold : t.Holding [r]) : Returnable F t .string (.register r) none
  | kept {slot : Slot} {r : Register} (mem : slot ∈ F) (heap : slot.kind.isHeap = true)
      (view : t.content r = some (.view slot.register)) (hold : t.Holding []) :
      Returnable F t .string (.register r) (some slot.name)

theorem Known.Frees.hasType {slots : List Register} {t t' : Known} (h : Frees slots t t') {v : Operand}
    {ty : MachineType} (hty : ty ≠ .ptr) (hv : t.HasType v ty) : t'.HasType v ty := by
  cases v with
  | register r =>
    obtain ⟨c, hc, hct⟩ := hv
    cases c with
    | plain ty' => exact ⟨_, h.lasting r _ rfl hc, hct⟩
    | owned | view | cell | argument => exact absurd hct.symm hty
  | int | float | null | global => exact hv

namespace Building
variable {D : Sketch} {F : Frame} {b : Builder} {s : LowerState} {t : Known}

theorem slots_nodup (h : Building D F b t) : (F.map Slot.register).Nodup := by
  have := h.nodup
  rw [Sketch.registers, List.append_assoc, List.append_assoc, List.nodup_append] at this
  exact (List.nodup_append.1 this.2.1).1

theorem ends_ret (h : Building D F b t) {v : Operand} (value : t.HasType v D.ret)
    (hands : D.ret = .ptr → ∃ r c, v = .register r ∧ t.content r = some c ∧ (c = .owned ∨ ∃ x, c = .view x))
    (owned : ∀ r, t.content r = some .owned → v = .register r) (bound : t.mark ≤ D.retMark)
    (freed : D.ret ≠ .i32 → ∀ slot ∈ F, slot.kind.isHeap = true → t.status slot.register = .stale ∨
      ∃ r, v = .register r ∧ t.content r = some (.view slot.register)) :
    (D.setting F).Ends b.nextRegister t (.ret (some (D.ret, v))) :=
  .ret value hands owned (fun x hx => (h.unknown x hx).2) bound
    (fun hne slot hs hk => .inl ⟨h.slot_below hs, freed hne slot hs hk⟩)

theorem ensures_returnValue (h : Building D s.frames.current s.builder t) (hs : t.Settled) {slot : Slot}
    (hmem : slot ∈ s.frames.current) (ty : Ty) (span : Span) :
    Lower.Ensures (Lower.returnValue slot ty span) s fun p s' => ∃ b', s' = { s with builder := b' } ∧
      ∃ t', Building D s.frames.current b' t' ∧ Returnable s.frames.current t' ty p.1 p.2 ∧ t'.mark = t.mark := by
  have hold := Known.Holding.of_settled hs
  cases ty with
  | int =>
    refine (h.ensures_loadSlot hs.ready hmem span).bind ?_
    rintro value _ ⟨b₁, rfl, t₁, w₁, hv⟩
    refine (Lower.Ensures.build (w₁.building.writes_asInt hv)).bind ?_
    rintro n _ ⟨b₂, rfl, t₂, w₂, hn⟩
    have w := w₁.then_takes h w₂
    exact .pure ⟨b₂, rfl, t₂, w.building, .number hn (hold.writes w), w.turns.mark⟩
  | string =>
    unfold Lower.returnValue
    by_cases hk : slot.kind = .string
    · have hheap : slot.kind.isHeap = true := by rw [hk]; rfl
      simp only [hk, if_true]
      refine (Lower.Ensures.build (h.writes_loadPointer hmem hheap (hs.ready _))).bind ?_
      rintro _ _ ⟨b₁, rfl, t₁, r, rfl, hview, w₁⟩
      exact .pure ⟨b₁, rfl, t₁, w₁.building, .kept hmem hheap hview (hold.writes w₁), w₁.turns.mark⟩
    · simp only [hk, if_false]
      refine (h.ensures_loadSlot hs.ready hmem span).bind ?_
      rintro value _ ⟨b₁, rfl, t₁, w₁, hv⟩
      refine (Lower.Ensures.build (w₁.building.writes_asText hv)).bind ?_
      rintro x _ ⟨b₂, rfl, t₂, w₂, hx⟩
      refine (Lower.Ensures.build (w₂.building.writes_intoOwned hx)).bind ?_
      rintro _ _ ⟨b₃, rfl, t₃, r, rfl, w₃⟩
      have w := (w₁.then_takes h w₂).then_takes h w₃
      exact .pure ⟨b₃, rfl, t₃, w.building, .buffer (hold.writes w), w.turns.mark⟩

theorem ensures_freeLocals {f : Frames} (h : Building D f.current b t) (hr : t.Ready) (keep : Option String) :
    Build.Ensures (Builder.freeSlots ((f.heapSlots keep).map Slot.register)) b fun _ b' => ∃ t',
      Building D f.current b' t' ∧ Known.Frees ((f.heapSlots keep).map Slot.register) t t' := by
  refine ensures_freeSlots _ h (fun r hr' => ?_) ?_
  · obtain ⟨slot, hs, rfl⟩ := List.mem_map.1 hr'
    obtain ⟨hmem, hk, -⟩ := Frames.mem_heapSlots.1 hs
    exact ⟨slot, hmem, rfl, hk, hr _⟩
  · refine List.Nodup.sublist (List.Sublist.map _ List.filter_sublist) ?_
    rw [List.map_reverse, List.nodup_reverse]
    exact h.slots_nodup

/-- **A function that has freed its variables may return.** -/
theorem ensures_leave {f : Frames} (h : Building D f.current b t) {ty : Ty} {v : Operand} {keep : Option String}
    (hr : Returnable f.current t ty v keep) (hty : D.ret = ty.machineType) (hm : t.mark ≤ D.retMark) :
    Build.Ensures (Builder.freeSlots ((f.heapSlots keep).map Slot.register)) b fun _ b' => ∃ t',
      Building D f.current b' t' ∧ (D.setting f.current).Ends b'.nextRegister t' (.ret (some (ty.machineType, v))) := by
  have hready : t.Ready := by cases hr <;> exact (‹t.Holding _›).ready
  refine (h.ensures_freeLocals hready keep).mono ?_
  rintro _ b' ⟨t', h', fr⟩
  refine ⟨t', h', ?_⟩
  have hstale : ∀ slot ∈ f.current, slot.kind.isHeap = true → some slot.name ≠ keep →
      t'.status slot.register = .stale := by
    intro slot hs hk hne
    rw [fr.status, if_pos (List.mem_map_of_mem (Frames.mem_heapSlots.2 ⟨hs, hk, hne⟩))]
  have hmark : t'.mark ≤ D.retMark := by rw [fr.mark]; exact hm
  rw [← hty]
  cases hr with
  | number value hold =>
    refine h'.ends_ret (by rw [hty]; exact fr.hasType (by decide) value) (fun hp => ?_) (fun r hr => ?_) hmark ?_
    · rw [hty] at hp
      cases hp
    · exact absurd ((fr.owned r).1 hr) (hold.settled.empty r)
    · exact fun _ slot hs hk => .inl (hstale slot hs hk (by simp))
  | @buffer r hold =>
    have hr' : t'.content r = some .owned := (fr.owned r).2 ((hold.hand r).2 (by simp))
    refine h'.ends_ret (by rw [hty]; exact .register hr') (fun _ => ⟨r, _, rfl, hr', .inl rfl⟩) (fun x hx => ?_) hmark ?_
    · have := (hold.hand x).1 ((fr.owned x).1 hx)
      rw [List.mem_singleton.1 this]
    · exact fun _ slot hs hk => .inl (hstale slot hs hk (by simp))
  | @kept kept r mem heap view hold =>
    -- no other slot has the register of the one that is kept
    have hout : kept.register ∉ (f.heapSlots (some kept.name)).map Slot.register := by
      intro hmem
      obtain ⟨slot, hs, hreg⟩ := List.mem_map.1 hmem
      obtain ⟨hs', -, hne⟩ := Frames.mem_heapSlots.1 hs
      have heq := List.inj_on_of_nodup_map h.slots_nodup hs' mem hreg
      exact hne (by rw [heq])
    have hview : t'.content r = some (.view kept.register) := fr.view r _ view hout
    refine h'.ends_ret (by rw [hty]; exact .register hview) (fun _ => ⟨r, _, rfl, hview, .inr ⟨_, rfl⟩⟩) (fun x hx => ?_)
      hmark ?_
    · exact absurd ((fr.owned x).1 hx) (hold.settled.empty x)
    · intro _ slot hs hk
      by_cases hname : slot.name = kept.name
      · have heq := List.inj_on_of_nodup_map f.table.names_nodup hs mem hname
        exact .inr ⟨r, rfl, by rw [heq]; exact hview⟩
      · exact .inl (hstale slot hs hk (by simpa using hname))

end Building

/-- A sketch whose clock a return has met. -/
def Sketch.returning (D : Sketch) : Sketch := D.retimed D.birth D.clock D.clock D.early

theorem Building.returning {D : Sketch} {F : Frame} {b : Builder} {t : Known} (h : Building D F b t) :
    Building D.returning F b t :=
  h.retime (Nat.le_refl _) h.retMark (Nat.le_refl _)

theorem Lower.ensures_terminate {s : LowerState} (e : Terminator) :
    Lower.Ensures (Lower.build (Builder.terminate e)) s fun _ s' => s' = { s with builder := s.builder.terminated e } :=
  rfl

theorem Linked.ensures_dead {sc : Scan} {D : Sketch} {s : LowerState} {t : Known} {b : Builder} (l : Linked sc D s)
    (h : Building D.returning s.frames.current b t) {e : Terminator}
    (he : (D.returning.setting s.frames.current).Ends b.nextRegister t e) :
    Lower.Ensures (do
        let (dead, label) ← Lower.build (Builder.createBlock "return.dead")
        Lower.build (Builder.startBlock dead label)
        modify fun s => { s with afterReturn := true }) { s with builder := b.terminated e }
      fun _ s' => ∃ D' t', Walks D s { sc with returned := true } D.pending D' s' t' := by
  have hfresh : (⟨b.nextBlock⟩ : BlockId) ∉ D.ids ++ D.pending := by
    intro hi
    exact Nat.lt_irrefl _ (h.idsBelow _ hi)
  have key := h.begun he ⟨b.nextBlock⟩ ("return.dead" ++ "." ++ Decimal.ofNat b.nextBlock) D.pending
    (⟨b.nextBlock⟩ :: D.dead) (Nat.le_succ b.nextBlock)
    (by rw [List.perm_middle.nodup_iff, List.nodup_cons]; exact ⟨hfresh, h.ids⟩) ?_ (fun i hi => .inl hi) ?_
  · rw [decide_eq_true (by simp)] at key
    refine ⟨_, _, ⟨?_, key, ⟨by simp [Known.atBlock], fun _ => rfl⟩, fun _ => rfl⟩, ?_, rfl, ⟨rfl, rfl, rfl, rfl, rfl⟩,
      fun _ => rfl⟩
    · refine ⟨l.functions, l.ret, l.declared, l.early, fun hd => ?_⟩
      obtain ⟨β, hβ, -⟩ := l.loop hd
      exact ⟨β, hβ, fun hr => by cases hr⟩
    · refine (Sketch.Onward.retimed (Nat.le_refl _)).trans (.begun (fun hi => hfresh (List.mem_append_left _ hi)) ?_)
      intro i hi hd
      rcases List.mem_cons.1 hd with rfl | hd
      · exact absurd (List.mem_append_left _ hi) hfresh
      · exact hd
  · intro i hi
    rcases List.mem_cons.1 hi with rfl | hi
    · exact Nat.lt_succ_self _
    · exact Nat.lt_succ_of_lt (h.idsBelow i (List.mem_append_right _ hi))
  · intro i
    simp only [List.mem_cons, true_or, and_true]
    exact or_comm

theorem Walking.ensures_ret {sc : Scan} {D : Sketch} {s : LowerState} {t : Known} (h : Walking sc D s t) (name : Ident) :
    Lower.Ensures (Lower.ret name) s fun _ s' => ∃ D' t',
      Walks D s { sc with returned := true } D.pending D' s' t' := by
  refine (Lower.ensures_slotOf name).bind ?_
  rintro slot _ ⟨rfl, hl⟩
  rename_i s
  have hmem := SlotTable.mem_of_lookup hl
  have hb := h.building.returning
  refine (Lower.Ensures.get (Q := fun a s' => a = s ∧ s' = s) ⟨rfl, rfl⟩).bind ?_
  rintro _ _ ⟨rfl, rfl⟩
  rename_i s
  have hty := h.ret
  cases hret : s.ret with
  | none =>
    rw [hret] at hty
    refine (hb.ensures_loadSlot h.settled.ready hmem name.span).bind ?_
    rintro value _ ⟨b₁, rfl, t₁, w₁, hv⟩
    refine (Lower.Ensures.build (w₁.building.writes_asInt hv)).bind ?_
    rintro n _ ⟨b₂, rfl, t₂, w₂, hn⟩
    refine (Lower.Ensures.build (w₂.building.writes_cast .trunc hn)).bind ?_
    rintro status _ ⟨b₃, rfl, t₃, w₃, hst⟩
    have w := (w₁.then_takes hb w₂).then_makes w₃
    have hold := (Known.Holding.of_settled h.settled).writes w
    refine (Lower.ensures_terminate (.ret (some (.i32, status)))).bind ?_
    rintro _ _ rfl
    refine h.toLinked.ensures_dead w.building ?_
    have he := w.building.ends_ret (v := status) (by rw [show D.returning.ret = .i32 from hty]; exact hst) ?_ ?_
      (Nat.le_trans w.building.mark (Nat.le_refl _)) ?_
    · rw [show D.returning.ret = .i32 from hty] at he
      exact he
    · rw [show D.returning.ret = .i32 from hty]
      exact fun hp => by cases hp
    · exact fun r hr => absurd hr (hold.settled.empty r)
    · exact fun hne => absurd hty hne
  | some ty =>
    rw [hret] at hty
    refine (hb.ensures_returnValue h.settled hmem ty name.span).bind ?_
    rintro ⟨v, keep⟩ _ ⟨b₁, rfl, t₁, h₁, hr, hm⟩
    refine Lower.Ensures.bind (P := fun _ s' => ∃ b', s' = { s with builder := b' } ∧ ∃ t',
      Building D.returning s.frames.current b' t' ∧
        (D.returning.setting s.frames.current).Ends b'.nextRegister t' (.ret (some (ty.machineType, v)))) ?_ ?_
    · exact Lower.Ensures.build (s := { s with builder := b₁ })
        (h₁.ensures_leave hr hty (by rw [hm]; exact h.building.mark))
    rintro _ _ ⟨b₂, rfl, t₂, h₂, he⟩
    refine (Lower.ensures_terminate (.ret (some (ty.machineType, v)))).bind ?_
    rintro _ _ rfl
    exact h.toLinked.ensures_dead h₂ he

end QuillLang
