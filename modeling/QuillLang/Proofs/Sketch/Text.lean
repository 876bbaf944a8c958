import QuillLang.Proofs.Sketch.Hand
/-!
# Texts in hand

Copying, joining, comparing and converting: each stretch of code takes the buffers of its operands from the hand and
leaves the buffer of its result, if it has one.
-/
namespace QuillLang
namespace Building
variable {D : Sketch} {F : Frame} {b : Builder} {t : Known}

/-! ## Instructions by what they leave in hand -/

/-- A value of type `ty` is made; nothing comes into hand or leaves it. -/
def Makes (D : Sketch) (F : Frame) (b : Builder) (t : Known) (ty : MachineType) (v : Operand) (b' : Builder) : Prop :=
  ∃ t', Writes D F b t [] [] b' t' ∧ t'.HasType v ty

theorem makes_defines (h : Building D F b t) {ty : MachineType} {v : Operand} {b' : Builder}
    (hx : Defines D F b t (.plain ty) v b') : Makes D F b t ty v b' := by
  obtain ⟨rfl, hn, hb⟩ := hx
  exact ⟨_, .define h (by simp) hn hb, Known.hasType_define _ _ _⟩

theorem writes_core (h : Building D F b t) {e : External} (he : e ∈ External.core)
    (ho : e.name ∉ ["malloc", "free", "exit"]) (hret : e.signature.ret ≠ .void) {fixed : List Operand}
    {extra : List (MachineType × Operand)} (hx : t.Passing e fixed extra) :
    Build.Ensures (Builder.callVariadic e.name fixed extra) b (Makes D F b t e.signature.ret) :=
  (h.ensures_external (List.mem_append_left _ he) (h.core e he) ho hret hx).mono fun _ _ => h.makes_defines

theorem writes_arith (h : Building D F b t) (op : ArithOp) {lhs rhs : Operand} (hl : t.HasType lhs op.type)
    (hr : t.HasType rhs op.type) :
    Build.Ensures (Builder.arith op op.type lhs rhs) b (Makes D F b t op.type) :=
  (h.ensures_result (.arith hl hr h.fresh)).mono fun _ _ => h.makes_defines

theorem writes_compare (h : Building D F b t) (op : CompareOp) {ty : MachineType} {lhs rhs : Operand}
    (hty : ty = .i64 ∨ ty = .i32) (hl : t.HasType lhs ty) (hr : t.HasType rhs ty) :
    Build.Ensures (Builder.compare op ty lhs rhs) b (Makes D F b t .i1) :=
  (h.ensures_result (.compare hty hl hr h.fresh)).mono fun _ _ => h.makes_defines

theorem writes_cast (h : Building D F b t) (op : CastOp) {v : Operand} (hv : t.HasType v op.source) :
    Build.Ensures (Builder.cast op v op.source op.target) b (Makes D F b t op.target) :=
  (h.ensures_result (.cast hv h.fresh)).mono fun _ _ => h.makes_defines

theorem writes_malloc (h : Building D F b t) {size : Operand} (hs : t.HasType size .i64) :
    Build.Ensures (Builder.call "malloc" [size]) b fun v b' =>
      ∃ t', v = .register ⟨b.nextRegister⟩ ∧ Writes D F b t [] [⟨b.nextRegister⟩] b' t' := by
  refine (h.ensures_malloc hs).mono ?_
  rintro v b' ⟨rfl, hn, hb⟩
  exact ⟨_, rfl, .obtain_buffer hn hb⟩

theorem ensures_stringConstant (h : Building D F b t) (content : String) :
    Build.Ensures (Builder.stringConstant content) b fun _ b' => Writes D F b t [] [] b' t := by
  unfold Build.Ensures
  obtain ⟨name, -, hrun⟩ | ⟨hnone, hrun⟩ := b.stringConstant_cases content <;> rw [hrun]
  · exact .refl h
  · have hinterned : Building D F (b.intern content hnone) t :=
      ⟨h.routines, h.signatures, h.core, h.routine, h.block, h.prologue, h.typed, h.closed, h.nodup, h.below, h.unknown,
        h.ids, h.idsBelow, h.deadBegun, h.mark, h.births, h.retMark⟩
    exact ⟨hinterned, Nat.le_refl _, (Writes.refl h).turns, by simp⟩

/-! ## Buffers of texts -/

theorem writes_release (h : Building D F b t) {x : TextHandle} (hx : x.Typed t) :
    Build.Ensures (Builder.release x) b fun _ b' => ∃ t', Writes D F b t x.owned? [] b' t' := by
  cases x with
  | owned v =>
    obtain ⟨r, rfl, hr⟩ := hx
    refine (h.ensures_freeOwned hr).bind ?_
    rintro _ b' ⟨hn, hb⟩
    exact ⟨_, .give_up hn hr hb⟩
  | borrowed v => exact ⟨t, .refl h⟩

theorem writes_copyText (h : Building D F b t) {source : Operand} (hs : t.Lends source) :
    Build.Ensures (Builder.copyText source) b fun v b' =>
      ∃ t' r, v = .register r ∧ Writes D F b t [] [r] b' t' := by
  refine (h.writes_core (e := ⟨"strlen", [.ptr], .i64, false⟩) (by simp [External.core]) (by simp) (by simp)
    ⟨by simp [External.writers], rfl, fun _ => rfl,
      by simpa [Builder.typeArgs] using ⟨hs.readable.hasType, fun _ => hs.readable⟩⟩).bind ?_
  rintro len b₁ ⟨t₁, w₁, hlen⟩
  refine (w₁.building.writes_arith .add hlen (Known.hasType_int _ _)).bind ?_
  rintro size b₂ ⟨t₂, w₂, hsize⟩
  refine (w₂.building.writes_malloc hsize).bind ?_
  rintro buffer b₃ ⟨t₃, rfl, w₃⟩
  have w := (w₁.then_makes w₂).then_makes w₃
  have hbuf : t₃.content ⟨b₂.nextRegister⟩ = some .owned := (w₃.turns.hand _).2 (.inr (by simp))
  have hsrc := (w.lends h hs).readable
  refine (w₃.building.writes_core (e := ⟨"strcpy", [.ptr, .ptr], .ptr, false⟩) (by simp [External.core]) (by simp)
    (by simp) ⟨fun _ => ⟨_, _, rfl, hbuf⟩, rfl, fun _ => rfl, ?_⟩).bind ?_
  · simpa [Builder.typeArgs, Known.Passes] using
      ⟨⟨.register hbuf, ⟨_, hbuf, rfl⟩⟩, hsrc.hasType, hsrc⟩
  · rintro _ b₄ ⟨t₄, w₄, -⟩
    exact ⟨t₄, ⟨b₂.nextRegister⟩, rfl, w.then_makes w₄⟩

theorem writes_intoOwned (h : Building D F b t) {x : TextHandle} (hx : x.Typed t) :
    Build.Ensures (Builder.intoOwned x) b fun v b' =>
      ∃ t' r, v = .register r ∧ Writes D F b t x.owned? [r] b' t' := by
  cases x with
  | owned v =>
    obtain ⟨r, rfl, hr⟩ := hx
    exact ⟨t, r, rfl, .hold h (by simpa [TextHandle.owned?] using hr)⟩
  | borrowed v => exact h.writes_copyText hx

theorem writes_concat (h : Building D F b t) {l r : TextHandle} (hl : l.Typed t) (hr : r.Typed t)
    (hlr : ∀ x ∈ r.owned?, x ∉ l.owned?) :
    Build.Ensures (Builder.concat l r) b fun y b' =>
      ∃ t' x, y = .owned (.register x) ∧ Writes D F b t (l.owned? ++ r.owned?) [x] b' t' := by
  refine (h.writes_core (e := ⟨"strlen", [.ptr], .i64, false⟩) (by simp [External.core]) (by simp) (by simp)
    ⟨by simp [External.writers], rfl, fun _ => rfl, by simpa [Builder.typeArgs] using hl.passes⟩).bind ?_
  rintro leftLength b₁ ⟨t₁, w₁, hll⟩
  have hr₁ := w₁.handle h (by simp) hr
  refine (w₁.building.writes_core (e := ⟨"strlen", [.ptr], .i64, false⟩) (by simp [External.core]) (by simp) (by simp)
    ⟨by simp [External.writers], rfl, fun _ => rfl, by simpa [Builder.typeArgs] using hr₁.passes⟩).bind ?_
  rintro rightLength b₂ ⟨t₂, w₂, hrl⟩
  refine (w₂.building.writes_arith .add (w₂.hasType w₁.building (by decide) hll) hrl).bind ?_
  rintro length b₃ ⟨t₃, w₃, hlen⟩
  refine (w₃.building.writes_arith .add hlen (Known.hasType_int _ _)).bind ?_
  rintro size b₄ ⟨t₄, w₄, hsize⟩
  refine (w₄.building.writes_malloc hsize).bind ?_
  rintro buffer b₅ ⟨t₅, rfl, w₅⟩
  have w := (((w₁.then_makes w₂).then_makes w₃).then_makes w₄).then_makes w₅
  have hbuf : t₅.content ⟨b₄.nextRegister⟩ = some .owned := (w₅.turns.hand _).2 (.inr (by simp))
  refine (w₅.building.writes_core (e := ⟨"strcpy", [.ptr, .ptr], .ptr, false⟩) (by simp [External.core]) (by simp)
    (by simp) ⟨fun _ => ⟨_, _, rfl, hbuf⟩, rfl, fun _ => rfl, ?_⟩).bind ?_
  · have := (w.handle h (by simp) hl).passes
    simpa [Builder.typeArgs] using ⟨⟨.register hbuf, fun _ => ⟨_, hbuf, rfl⟩⟩, this⟩
  rintro _ b₆ ⟨t₆, w₆, -⟩
  have w := w.then_makes w₆
  have hbuf₆ : t₆.content ⟨b₄.nextRegister⟩ = some .owned := (w₆.turns.hand _).2 (.inl ⟨hbuf, by simp⟩)
  refine (w₆.building.writes_core (e := ⟨"strcat", [.ptr, .ptr], .ptr, false⟩) (by simp [External.core]) (by simp)
    (by simp) ⟨fun _ => ⟨_, _, rfl, hbuf₆⟩, rfl, fun _ => rfl, ?_⟩).bind ?_
  · have := (w.handle h (by simp) hr).passes
    simpa [Builder.typeArgs] using ⟨⟨.register hbuf₆, fun _ => ⟨_, hbuf₆, rfl⟩⟩, this⟩
  rintro _ b₇ ⟨t₇, w₇, -⟩
  have w := w.then_makes w₇
  have hl₇ := w.handle h (by simp) hl
  have hr₇ := w.handle h (by simp) hr
  refine (w₇.building.writes_release hl₇).bind ?_
  rintro _ b₈ ⟨t₈, w₈⟩
  refine (w₈.building.writes_release (w₈.handle w₇.building hlr hr₇)).bind ?_
  rintro _ b₉ ⟨t₉, w₉⟩
  refine ⟨t₉, ⟨b₄.nextRegister⟩, rfl, ?_⟩
  -- the new buffer is none of those in hand before
  have hnew : ∀ y : TextHandle, y.Typed t → ∀ x ∈ [(⟨b₄.nextRegister⟩ : Register)], x ∉ y.owned? := by
    intro y hy x hx hmem
    have := h.content_below (hy.content_owned _ hmem)
    rcases w.made x (by simpa using hx) with hx | hx
    · cases hx
    · omega
  have hw := (w.append w₈ (by simpa using hnew l hl)).append w₉ (by simpa using hnew r hr)
  simp only [List.nil_append, List.append_nil] at hw
  exact hw

end Building
end QuillLang
