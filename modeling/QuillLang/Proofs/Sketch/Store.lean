import QuillLang.Proofs.Scan
import QuillLang.Proofs.Sketch.Expr
import QuillLang.Proofs.Sketch.Grow
/-!
# Variables

A value in hand is stored in a variable: the buffer that was there is freed, and none is left in hand.  A declaration makes
a slot where there is none; outside loops nothing was stored in it before, and in a loop what may have been stored is freed.
-/
namespace QuillLang

/-! ## The buffers in hand -/

/-- Exactly the buffers `X` are in hand, and every slot may be read. -/
structure Known.Holding (t : Known) (X : List Register) : Prop where
  ready : t.Ready
  hand : ∀ r, t.content r = some .owned ↔ r ∈ X

namespace Known.Holding
variable {D : Sketch} {F : Frame} {b b' : Builder} {t t' : Known} {X Y : List Register}

theorem of_settled (h : t.Settled) : t.Holding [] :=
  ⟨h.ready, fun r => by simpa using h.empty r⟩

theorem settled (h : t.Holding []) : t.Settled :=
  ⟨fun r hr => by simpa using (h.hand r).1 hr, h.ready⟩

theorem writes (h : t.Holding X) (w : Writes D F b t X Y b' t') : t'.Holding Y := by
  refine ⟨w.ready h.ready, fun r => ?_⟩
  rw [w.turns.hand r, h.hand r]
  constructor
  · rintro (⟨h1, h2⟩ | h1)
    · exact absurd h1 h2
    · exact h1
  · exact .inr

end Known.Holding

/-- Is what is known of the register known as long as the block lasts? -/
def Content.lasts : Content → Bool
  | plain _ | argument => true
  | owned | view _ | cell _ => false

/-- What lasts has lasted. -/
def Known.Lasting (t t' : Known) : Prop := ∀ r c, c.lasts = true → t.content r = some c → t'.content r = some c

theorem Known.Lasting.trans {t t' t'' : Known} (h : t.Lasting t') (h' : t'.Lasting t'') : t.Lasting t'' :=
  fun r c hc hr => h' r c hc (h r c hc hr)

theorem Writes.lasting {D : Sketch} {F : Frame} {b b' : Builder} {t t' : Known} {X Y : List Register}
    (w : Writes D F b t X Y b' t') (hb : Building D F b t) : t.Lasting t' := by
  intro r c hc hr
  rw [w.turns.keep r (hb.content_below hr), hr]
  rw [hr]
  rintro ⟨⟩
  cases hc

structure Known.Frees (slots : List Register) (t t' : Known) : Prop where
  status : ∀ x, t'.status x = if x ∈ slots then .stale else t.status x
  owned : ∀ r, t'.content r = some .owned ↔ t.content r = some .owned
  lasting : t.Lasting t'
  view : ∀ r s, t.content r = some (.view s) → s ∉ slots → t'.content r = some (.view s)
  mark : t'.mark = t.mark
  dead : t'.dead = t.dead

namespace Known.Frees
variable {slots more : List Register} {t t' t'' : Known}

theorem refl (t : Known) : Frees [] t t :=
  ⟨fun _ => by simp, fun _ => Iff.rfl, fun _ _ _ h => h, fun _ _ h _ => h, rfl, rfl⟩

theorem trans (h : Frees slots t t') (h' : Frees more t' t'') : Frees (slots ++ more) t t'' := by
  refine ⟨fun x => ?_, fun r => (h'.owned r).trans (h.owned r), h.lasting.trans h'.lasting,
    fun r s hr hs => ?_, h'.mark.trans h.mark, h'.dead.trans h.dead⟩
  · rw [h'.status, h.status]
    simp only [List.mem_append]
    grind
  · rw [List.mem_append, not_or] at hs
    exact h'.view r s (h.view r s hr hs.1) hs.2

end Known.Frees

namespace Building
variable {D : Sketch} {F : Frame} {b : Builder} {t : Known}

theorem ensures_freeSlot (h : Building D F b t) {slot : Slot} (hs : slot ∈ F) (hk : slot.kind.isHeap = true)
    (hr : t.status slot.register = .ready) :
    Build.Ensures (Builder.freeSlot slot.register) b fun _ b' =>
      ∃ t', Building D F b' t' ∧ Known.Frees [slot.register] t t' := by
  refine (h.ensures_loadPointer hs hk hr).bind ?_
  rintro _ b₁ ⟨rfl, hnext, h₁⟩
  have hlatest : ∀ x, (t.define ⟨b.nextRegister⟩ (.view slot.register)).content x = some (.view slot.register) →
      x.index ≤ b.nextRegister := by
    intro x hx
    have := h₁.content_below hx
    omega
  refine (h₁.ensures_freeView hs hk hr (by simp) hlatest).bind ?_
  rintro _ b₂ ⟨-, h₂⟩
  refine ⟨_, h₂, fun x => ?_, fun r => ?_, fun r c hc hr => ?_, fun r s hr hs => ?_, rfl, rfl⟩
  · simp [Known.release]
  -- the register that was loaded is new, so nothing was known of it
  all_goals
    have hnew := (h.unknown ⟨b.nextRegister⟩ (Nat.le_refl _)).1
    have hne : t.content r ≠ none → r ≠ ⟨b.nextRegister⟩ := by
      rintro hc rfl
      exact hc hnew
    simp only [Known.release, Known.content_setStatus, Known.content_forget, Known.content_define]
    grind [Content.lasts]

theorem ensures_freeSlots : ∀ (regs : List Register) {b : Builder} {t : Known}, Building D F b t →
    (∀ r ∈ regs, ∃ slot ∈ F, slot.register = r ∧ slot.kind.isHeap = true ∧ t.status r = .ready) → regs.Nodup →
    Build.Ensures (Builder.freeSlots regs) b fun _ b' => ∃ t', Building D F b' t' ∧ Known.Frees regs t t'
  | [], b, t, h, _, _ => ⟨t, h, .refl t⟩
  | r :: regs, b, t, h, hr, hd => by
    obtain ⟨slot, hs, rfl, hk, hready⟩ := hr r (by simp)
    refine (h.ensures_freeSlot hs hk hready).bind ?_
    rintro _ b₁ ⟨t₁, h₁, f₁⟩
    refine (ensures_freeSlots regs h₁ (fun r hr' => ?_) (List.nodup_cons.1 hd).2).mono ?_
    · obtain ⟨other, ho, rfl, hok, hor⟩ := hr r (List.mem_cons_of_mem _ hr')
      refine ⟨other, ho, rfl, hok, ?_⟩
      rw [f₁.status, if_neg, hor]
      rw [List.mem_singleton]
      rintro he
      exact (List.nodup_cons.1 hd).1 (he ▸ hr')
    · rintro _ b₂ ⟨t₂, h₂, f₂⟩
      exact ⟨t₂, h₂, f₁.trans f₂⟩

end Building

/-! ## Storing -/

namespace Building
variable {D : Sketch} {s : LowerState} {t : Known}

/-- A slot whose buffer was freed, or that holds nothing yet, takes the buffer in hand. -/
theorem ensures_put {F : Frame} {b : Builder} (h : Building D F b t) {slot : Slot} (hs : slot ∈ F)
    (hk : slot.kind.isHeap = true) {r : Register} (hr : ∀ x, t.content x = some .owned ↔ x = r)
    (hready : ∀ x, x ≠ slot.register → t.status x = .ready)
    (hv : t.status slot.register = .stale ∨ t.status slot.register = .ready ∧ t.mark ≤ D.birth slot.register) :
    Build.Ensures (Builder.store .ptr (.register r) (.register slot.register)) b fun _ b' =>
      ∃ t', Building D F b' t' ∧ t'.Settled ∧ t'.dead = t.dead ∧ t.Lasting t' := by
  refine (h.ensures_emit (.storeOwned hs hk ((hr r).2 rfl) hv)).mono ?_
  rintro _ b' ⟨-, h'⟩
  refine ⟨_, h', ⟨fun x hx => ?_, fun x => ?_⟩, rfl, fun x c hc hx => ?_⟩
  · have hx' := Known.owned_of_forget hx
    rw [Known.content_define] at hx'
    split at hx'
    · cases hx'
    · exact absurd ((hr x).1 hx') ‹_›
  · simp only [Known.fill, Known.status_setStatus, Known.status_forget, Known.status_define]
    split
    · rfl
    · exact hready x ‹_›
  · have hne : x ≠ r := by
      rintro rfl
      rw [(hr x).2 rfl] at hx
      cases hx
      cases hc
    simp only [Known.fill, Known.content_setStatus, Known.content_forget, Known.content_define, hne, if_false, hx]
    rw [if_neg]
    rintro (hv | hv) <;> cases hv <;> cases hc

theorem ensures_replace (h : Building D s.frames.current s.builder t) {slot : Slot} (hs : slot ∈ s.frames.current)
    (hk : slot.kind.isHeap = true) {r : Register} (hh : t.Holding [r]) {frees : Bool}
    (hv : frees = true ∨ t.mark ≤ D.birth slot.register) :
    Lower.Ensures (do
        if frees then Lower.build (Builder.freeSlot slot.register)
        Lower.build (Builder.store .ptr (.register r) (.register slot.register))) s
      fun _ s' => ∃ b', s' = { s with builder := b' } ∧
        ∃ t', Building D s.frames.current b' t' ∧ t'.Settled ∧ t'.dead = t.dead ∧ t.Lasting t' := by
  have hr : ∀ x, t.content x = some .owned ↔ x = r := fun x => by simpa using hh.hand x
  by_cases hf : frees = true
  · rw [if_pos hf]
    refine (Lower.Ensures.build (h.ensures_freeSlot hs hk (hh.ready _))).bind ?_
    rintro _ _ ⟨b₁, rfl, t₁, h₁, f₁⟩
    refine (Lower.Ensures.build (h₁.ensures_put hs hk (fun x => (f₁.owned x).trans (hr x)) (fun x hx => ?_)
      (.inl ?_))).mono ?_
    · rw [f₁.status, if_neg (by simpa using hx)]
      exact hh.ready x
    · rw [f₁.status, if_pos (by simp)]
    · rintro _ _ ⟨b₂, rfl, t₂, h₂, hset, hdead, hlast⟩
      exact ⟨b₂, rfl, t₂, h₂, hset, hdead.trans f₁.dead, f₁.lasting.trans hlast⟩
  · rw [if_neg hf]
    exact Lower.Ensures.build (h.ensures_put hs hk hr (fun x _ => hh.ready x)
      (.inr ⟨hh.ready _, hv.resolve_left hf⟩))

/-- **A value in hand is stored**, and nothing is left in hand. -/
theorem ensures_storeSlot (h : Building D s.frames.current s.builder t) {v : Lowered} (hv : v.Typed t)
    (hh : t.Holding v.owned?) {slot : Slot} (hs : slot ∈ s.frames.current) {frees : Bool}
    (hf : frees = true ∨ t.mark ≤ D.birth slot.register) (name : Ident) :
    Lower.Ensures (Lower.storeSlot slot v frees name) s fun _ s' => ∃ b', s' = { s with builder := b' } ∧
      ∃ t', Building D s.frames.current b' t' ∧ t'.Settled ∧ t'.dead = t.dead ∧ t.Lasting t' := by
  unfold Lower.storeSlot
  cases hk : slot.kind with
  | int =>
    refine (Lower.Ensures.build (h.writes_asInt hv)).bind ?_
    rintro n _ ⟨b₁, rfl, t₁, w₁, hn⟩
    have hh₁ := hh.writes w₁
    refine (Lower.Ensures.build (w₁.building.ensures_emit
      (.storeNumber hs hk (by rw [hh₁.ready]; decide) hn))).mono ?_
    rintro _ _ ⟨b₂, rfl, -, h₂⟩
    refine ⟨b₂, rfl, _, h₂, ⟨hh₁.settled.empty, fun x => ?_⟩, w₁.turns.dead, w₁.lasting h⟩
    rw [Known.status_setStatus]
    split
    · rfl
    · exact hh₁.ready x
  | string =>
    refine (Lower.Ensures.build (h.writes_asText hv)).bind ?_
    rintro x _ ⟨b₁, rfl, t₁, w₁, hx⟩
    refine (Lower.Ensures.build (w₁.building.writes_intoOwned hx)).bind ?_
    rintro _ _ ⟨b₂, rfl, t₂, r, rfl, w₂⟩
    have w := w₁.then_takes h w₂
    refine (w.building.ensures_replace (s := { s with builder := b₂ }) hs (by rw [hk]; rfl) (hh.writes w) ?_).mono ?_
    · rw [w.turns.mark]
      exact hf
    · rintro _ _ ⟨b₃, rfl, t₃, h₃, hset, hdead, hlast⟩
      exact ⟨b₃, rfl, t₃, h₃, hset, hdead.trans w.turns.dead, (w.lasting h).trans hlast⟩
  | array =>
    refine (Lower.Ensures.build (h.writes_discard hv)).bind ?_
    rintro _ _ -
    exact .throw (fun _ => by simp)

end Building
end QuillLang
