import QuillLang.Proofs.Sketch.Text
/-!
# Expressions

A value in hand is converted and operated on, and the buffers of the operands are gone from the hand afterwards.  Hence
the code of an expression takes nothing from the hand and leaves the buffer of its value, if it has one
(`Building.ensures_expr`).
-/
namespace QuillLang
namespace Building
variable {D : Sketch} {F : Frame} {b : Builder} {t : Known}

/-! ## Conversions -/

theorem writes_asInt (h : Building D F b t) {v : Lowered} (hv : v.Typed t) :
    Build.Ensures (Builder.asInt v) b fun n b' =>
      ∃ t', Writes D F b t v.owned? [] b' t' ∧ t'.HasType n .i64 := by
  cases v with
  | int n => exact ⟨t, .refl h, hv⟩
  | bool n => exact h.writes_cast .zext hv
  | text x =>
    refine (h.writes_core (e := ⟨"atol", [.ptr], .i64, false⟩) (by simp [External.core]) (by simp) (by simp)
      ⟨by simp [External.writers], rfl, fun _ => rfl, by simpa [Builder.typeArgs] using TextHandle.Typed.passes hv⟩).bind ?_
    rintro n b₁ ⟨t₁, w₁, hn⟩
    refine (w₁.building.writes_release (w₁.handle h (by simp) hv)).bind ?_
    rintro _ b₂ ⟨t₂, w₂⟩
    exact ⟨t₂, w₁.append w₂ (by simp), w₂.hasType w₁.building (by decide) hn⟩

theorem writes_decimalText (h : Building D F b t) {n : Operand} (hn : t.HasType n .i64) :
    Build.Ensures (Builder.decimalText n) b fun x b' =>
      ∃ t' r, x = .owned (.register r) ∧ Writes D F b t [] [r] b' t' := by
  refine (h.writes_malloc (Known.hasType_int _ _)).bind ?_
  rintro _ b₁ ⟨t₁, rfl, w₁⟩
  refine (w₁.building.ensures_stringConstant "%lld").bind ?_
  intro format b₂ w₂
  have w := w₁.then_makes w₂
  have hbuf : t₁.content ⟨b.nextRegister⟩ = some .owned := (w₁.turns.hand _).2 (.inr (by simp))
  have hn₁ : t₁.HasType n .i64 := w₁.hasType h (by decide) hn
  refine (w₂.building.writes_core (e := ⟨"sprintf", [.ptr, .ptr], .i32, true⟩) (by simp [External.core]) (by simp)
    (by simp) ⟨fun _ => ⟨_, _, rfl, hbuf⟩, rfl, by simp, ?_⟩).bind ?_
  · have hglobal : t₁.Readable (.global format) := trivial
    simpa [Builder.typeArgs, Known.Passes] using
      ⟨⟨.register hbuf, ⟨_, hbuf, rfl⟩⟩, ⟨hglobal.hasType, hglobal⟩, hn₁⟩
  · rintro _ b₃ ⟨t₃, w₃, -⟩
    exact ⟨t₃, _, rfl, w.then_makes w₃⟩

theorem typed_made {X : List Register} {b' : Builder} {t' : Known} {r : Register} (w : Writes D F b t X [r] b' t') :
    (TextHandle.owned (.register r)).Typed t' :=
  ⟨r, rfl, (w.turns.hand r).2 (.inr (by simp))⟩

theorem writes_asText (h : Building D F b t) {v : Lowered} (hv : v.Typed t) :
    Build.Ensures (Builder.asText v) b fun x b' =>
      ∃ t', Writes D F b t v.owned? x.owned? b' t' ∧ x.Typed t' := by
  cases v with
  | text x =>
    exact .pure ⟨t, .hold h (TextHandle.Typed.content_owned hv), hv⟩
  | int n =>
    refine (h.writes_decimalText hv).mono ?_
    rintro x b' ⟨t', r, rfl, w⟩
    exact ⟨t', w, typed_made w⟩
  | bool n =>
    refine (h.writes_asInt (v := .bool n) hv).bind ?_
    rintro m b₁ ⟨t₁, w₁, hm⟩
    refine (w₁.building.writes_decimalText hm).mono ?_
    rintro x b' ⟨t', r, rfl, w⟩
    exact ⟨t', w₁.then_makes w, typed_made w⟩

theorem writes_discard (h : Building D F b t) {v : Lowered} (hv : v.Typed t) :
    Build.Ensures (Builder.discard v) b fun _ b' => ∃ t', Writes D F b t v.owned? [] b' t' := by
  cases v with
  | text x => exact h.writes_release hv
  | int n => exact ⟨t, .refl h⟩
  | bool n => exact ⟨t, .refl h⟩

theorem writes_loadNumber (h : Building D F b t) {slot : Slot} (hs : slot ∈ F) (hk : slot.kind = .int)
    (hr : t.status slot.register = .ready) :
    Build.Ensures (Builder.load .i64 (.register slot.register)) b (Makes D F b t .i64) :=
  (h.ensures_result (.loadNumber hs hk hr h.fresh)).mono fun _ _ => h.makes_defines

theorem writes_loadPointer (h : Building D F b t) {slot : Slot} (hs : slot ∈ F) (hk : slot.kind.isHeap = true)
    (hr : t.status slot.register = .ready) :
    Build.Ensures (Builder.load .ptr (.register slot.register)) b fun v b' =>
      ∃ t' r, v = .register r ∧ t'.content r = some (.view slot.register) ∧ Writes D F b t [] [] b' t' := by
  refine (h.ensures_loadPointer hs hk hr).mono ?_
  rintro v b' ⟨rfl, hn, hb⟩
  exact ⟨_, _, rfl, by simp, .define h (by simp) hn hb⟩

theorem writes_elementAddress (h : Building D F b t) {slot : Slot} (hs : slot ∈ F) (hk : slot.kind = .array)
    (hr : t.status slot.register = .ready) {index : Operand} (hi : t.HasType index .i64) :
    Build.Ensures (Builder.elementAddress slot index) b fun v b' =>
      ∃ t' r, v = .register r ∧ t'.content r = some (.cell slot.register) ∧ Writes D F b t [] [] b' t' := by
  refine (h.writes_loadPointer hs (by rw [hk]; rfl) hr).bind ?_
  rintro _ b₁ ⟨t₁, r, rfl, hview, w₁⟩
  refine (w₁.building.ensures_result
    (.element hview (w₁.hasType h (by decide) hi) w₁.building.fresh)).mono ?_
  rintro v b' ⟨rfl, hn, hb⟩
  exact ⟨_, _, rfl, by simp, w₁.then_makes (.define w₁.building (by simp) hn hb)⟩

/-! ## Operators -/

theorem arith_type {op : BinaryOp} {a : ArithOp} (h : op.operatorClass = .arith a) : a.type = .i64 := by
  cases op <;> cases h <;> rfl

theorem writes_intOp (h : Building D F b t) {op : ArithOp} (hop : op.type = .i64) {lhs rhs : Operand}
    (hl : t.HasType lhs .i64) (hr : t.HasType rhs .i64) :
    Build.Ensures (Builder.intOp op lhs rhs) b (Makes D F b t .i64) := by
  have := h.writes_arith op (by rw [hop]; exact hl) (by rw [hop]; exact hr)
  rw [hop] at this
  exact this

structure TwoTyped (t : Known) (lhs rhs : Lowered) : Prop where
  left : lhs.Typed t
  right : rhs.Typed t
  apart : ∀ r ∈ rhs.owned?, r ∉ lhs.owned?

theorem writes_numberOperator (h : Building D F b t) (op : BinaryOp) {lhs rhs : Lowered} (hv : TwoTyped t lhs rhs) :
    Build.Ensures (Builder.numberOperator op lhs rhs) b fun v b' =>
      ∃ t', Writes D F b t (lhs.owned? ++ rhs.owned?) v.owned? b' t' ∧ v.Typed t' := by
  refine (h.writes_asInt hv.left).bind ?_
  rintro l b₁ ⟨t₁, w₁, hl⟩
  refine (w₁.building.writes_asInt (w₁.lowered h hv.apart hv.right)).bind ?_
  rintro r b₂ ⟨t₂, w₂, hr⟩
  have w := w₁.append w₂ (by simp)
  have hl₂ := w₂.hasType w₁.building (by decide) hl
  cases hc : op.operatorClass with
  | arith a =>
    refine (w₂.building.writes_intOp (arith_type hc) hl₂ hr).bind ?_
    rintro v b₃ ⟨t₃, w₃, hv⟩
    exact ⟨t₃, w.then_makes w₃, hv⟩
  | compare c =>
    refine (w₂.building.writes_compare c (.inl rfl) hl₂ hr).bind ?_
    rintro v b₃ ⟨t₃, w₃, hv⟩
    exact ⟨t₃, w.then_makes w₃, hv⟩

theorem ensures_asTexts (h : Building D F b t) {lhs rhs : Lowered} (hv : TwoTyped t lhs rhs) {α : Type}
    {f : TextHandle → TextHandle → Build Nat α} {Q : α → Builder → Prop}
    (hf : ∀ l r b' t', Writes D F b t (lhs.owned? ++ rhs.owned?) (l.owned? ++ r.owned?) b' t' → l.Typed t' →
      r.Typed t' → (∀ x ∈ r.owned?, x ∉ l.owned?) → Build.Ensures (f l r) b' Q) :
    Build.Ensures (do let l ← Builder.asText lhs; let r ← Builder.asText rhs; f l r) b Q := by
  refine (h.writes_asText hv.left).bind ?_
  rintro l b₁ ⟨t₁, w₁, hl⟩
  refine (w₁.building.writes_asText (w₁.lowered h hv.apart hv.right)).bind ?_
  rintro r b₂ ⟨t₂, w₂, hr⟩
  -- what the left text is was there before, or is new; the right value's buffer is neither
  have hlr : ∀ x ∈ l.owned?, x ∉ rhs.owned? := by
    intro x hx hxr
    rcases w₁.made x hx with hold | hnew
    · exact hv.apart x hxr hold
    · have := h.content_below (hv.right.content_owned x hxr)
      omega
  refine hf l r b₂ t₂ (w₁.append w₂ hlr) (w₂.handle w₁.building hlr hl) hr (fun x hx hxl => ?_)
  rcases w₂.made x hx with hold | hnew
  · exact hlr x hxl hold
  · have := w₁.building.content_below (hl.content_owned x hxl)
    omega

theorem writes_compareTexts (h : Building D F b t) (op : CompareOp) {lhs rhs : Lowered} (hv : TwoTyped t lhs rhs) :
    Build.Ensures (Builder.compareTexts op lhs rhs) b fun v b' =>
      ∃ t', Writes D F b t (lhs.owned? ++ rhs.owned?) v.owned? b' t' ∧ v.Typed t' := by
  refine h.ensures_asTexts hv ?_
  intro l r b₁ t₁ w₁ hl hr hrl
  refine (w₁.building.writes_core (e := ⟨"strcmp", [.ptr, .ptr], .i32, false⟩) (by simp [External.core]) (by simp)
    (by simp) ⟨by simp [External.writers], rfl, fun _ => rfl,
    by simpa [Builder.typeArgs] using ⟨hl.passes, hr.passes⟩⟩).bind ?_
  rintro order b₂ ⟨t₂, w₂, ho⟩
  have hl₂ := w₂.handle w₁.building (by simp) hl
  have hr₂ := w₂.handle w₁.building (by simp) hr
  refine (w₂.building.writes_release hl₂).bind ?_
  rintro _ b₃ ⟨t₃, w₃⟩
  refine (w₃.building.writes_release (w₃.handle w₂.building hrl hr₂)).bind ?_
  rintro _ b₄ ⟨t₄, w₄⟩
  have ho₄ := w₄.hasType w₃.building (by decide) (w₃.hasType w₂.building (by decide) ho)
  refine (w₄.building.writes_compare op (.inr rfl) ho₄ (Known.hasType_int32 _ _)).bind ?_
  rintro v b₅ ⟨t₅, w₅, hv⟩
  exact ⟨t₅, w₁.then_takes h (((w₂.append w₃ (by simp)).append w₄ (by simp)).then_makes w₅), hv⟩

theorem writes_joinTexts (h : Building D F b t) {lhs rhs : Lowered} (hv : TwoTyped t lhs rhs) :
    Build.Ensures (Builder.joinTexts lhs rhs) b fun v b' =>
      ∃ t', Writes D F b t (lhs.owned? ++ rhs.owned?) v.owned? b' t' ∧ v.Typed t' := by
  refine h.ensures_asTexts hv ?_
  intro l r b₁ t₁ w₁ hl hr hrl
  refine (w₁.building.writes_concat hl hr hrl).bind ?_
  rintro _ b₂ ⟨t₂, x, rfl, w₂⟩
  exact ⟨t₂, w₁.then_takes h w₂, typed_made w₂⟩

theorem writes_binaryOperator (h : Building D F b t) (op : BinaryOp) {lhs rhs : Lowered} (hv : TwoTyped t lhs rhs) :
    Build.Ensures (Builder.binaryOperator op lhs rhs) b fun v b' =>
      ∃ t', Writes D F b t (lhs.owned? ++ rhs.owned?) v.owned? b' t' ∧ v.Typed t' := by
  unfold Builder.binaryOperator
  split
  · split
    · exact h.writes_joinTexts hv
    · exact h.writes_compareTexts _ hv
    · exact h.writes_numberOperator op hv
  · exact h.writes_numberOperator op hv

theorem writes_trig (h : Building D F b t) (func : TrigFunc) {degrees scale : Operand}
    (hd : t.HasType degrees .i64) (hs : t.HasType scale .i64) :
    Build.Ensures (Builder.trig func degrees scale) b (Makes D F b t .i64) := by
  refine (h.writes_cast .sitofp hd).bind ?_
  rintro angle b₁ ⟨t₁, w₁, ha⟩
  have hconst : t₁.HasType (.float Builder.radiansPerDegree) .double := rfl
  refine (w₁.building.writes_arith .fmul ha hconst).bind ?_
  rintro radians b₂ ⟨t₂, w₂, (hr : t₂.HasType radians .double)⟩
  refine (w₂.building.writes_core (e := ⟨func.routine, [.double], .double, false⟩)
    (by cases func <;> simp [External.core, TrigFunc.routine]) (by cases func <;> simp [TrigFunc.routine]) (by simp)
    ⟨by cases func <;> simp [External.writers, TrigFunc.routine], rfl, fun _ => rfl,
      by simpa [Builder.typeArgs, Known.Passes] using hr⟩).bind ?_
  rintro unit b₃ ⟨t₃, w₃, hu⟩
  have w := (w₁.then_makes w₂).then_makes w₃
  refine (w₃.building.writes_cast .sitofp (w.hasType h (by decide) hs)).bind ?_
  rintro factor b₄ ⟨t₄, w₄, hf⟩
  refine (w₄.building.writes_arith .fmul (w₄.hasType w₃.building (by decide) hu) hf).bind ?_
  rintro scaled b₅ ⟨t₅, w₅, hsc⟩
  refine (w₅.building.writes_cast .fptosi hsc).mono ?_
  rintro v b₆ ⟨t₆, w₆, hv⟩
  exact ⟨t₆, ((w.then_makes w₄).then_makes w₅).then_makes w₆, hv⟩

theorem writes_random (h : Building D F b t) {seed limit : Operand} (hs : t.HasType seed .i64)
    (hl : t.HasType limit .i64) :
    Build.Ensures (Builder.random seed limit) b (Makes D F b t .i64) := by
  refine (h.writes_arith .mul hs (Known.hasType_int _ _)).bind ?_
  rintro product b₁ ⟨t₁, w₁, h₁⟩
  refine (w₁.building.writes_arith .add h₁ (Known.hasType_int _ _)).bind ?_
  rintro next b₂ ⟨t₂, w₂, h₂⟩
  refine (w₂.building.writes_arith .lshr h₂ (Known.hasType_int _ _)).bind ?_
  rintro high b₃ ⟨t₃, w₃, h₃⟩
  refine (w₃.building.writes_arith .and h₃ (Known.hasType_int _ _)).bind ?_
  rintro masked b₄ ⟨t₄, w₄, h₄⟩
  have w := ((w₁.then_makes w₂).then_makes w₃).then_makes w₄
  refine (w₄.building.writes_arith .srem h₄ (w.hasType h (by decide) hl)).mono ?_
  rintro v b₅ ⟨t₅, w₅, hv⟩
  exact ⟨t₅, w.then_makes w₅, hv⟩

end Building

/-! ## Variables -/

namespace Lower
variable {s : LowerState}

theorem ensures_slotOf (name : Ident) :
    Ensures (slotOf name) s fun slot s' => s' = s ∧ s.frames.lookup name.name = some slot := by
  refine (Ensures.get (Q := fun a s' => a = s ∧ s' = s) ⟨rfl, rfl⟩).bind ?_
  rintro _ _ ⟨rfl, rfl⟩
  cases Frames.lookup _ name.name with
  | some slot => exact .pure ⟨rfl, rfl⟩
  | none => exact .throw (fun _ => by simp)

theorem ensures_resultSlot (name : Ident) :
    Ensures (resultSlot name) s fun slot s' => s' = s ∧ s.frames.lookup name.name = some slot := by
  refine (Ensures.get (Q := fun a s' => a = s ∧ s' = s) ⟨rfl, rfl⟩).bind ?_
  rintro _ _ ⟨rfl, rfl⟩
  cases Frames.lookup _ name.name with
  | some slot => exact .pure ⟨rfl, rfl⟩
  | none => exact .throw (fun _ => by simp)

theorem ensures_arraySlot (name : Ident) :
    Ensures (arraySlot name) s fun slot s' => s' = s ∧ slot ∈ s.frames.current ∧ slot.kind = .array := by
  refine (ensures_slotOf name).bind ?_
  rintro slot _ ⟨rfl, hs⟩
  by_cases hk : slot.kind = .array
  · rw [if_pos hk]
    exact .pure ⟨rfl, SlotTable.mem_of_lookup hs, hk⟩
  · rw [if_neg hk]
    exact .throw (fun _ => by simp)

end Lower

/-! ## Expressions -/

def Known.Ready (t : Known) : Prop := ∀ s, t.status s = .ready

theorem Writes.ready {D : Sketch} {F : Frame} {b b' : Builder} {t t' : Known} {X Y : List Register}
    (w : Writes D F b t X Y b' t') (h : t.Ready) : t'.Ready := by
  intro s
  rw [w.turns.status]
  exact h s

namespace Building
variable {D : Sketch} {s : LowerState} {t : Known}

theorem ensures_loadSlot (h : Building D s.frames.current s.builder t) (hr : t.Ready) {slot : Slot}
    (hs : slot ∈ s.frames.current) (span : Span) :
    Lower.Ensures (Lower.loadSlot slot span) s fun v s' => ∃ b', s' = { s with builder := b' } ∧
      ∃ t', Writes D s.frames.current s.builder t [] v.owned? b' t' ∧ v.Typed t' := by
  unfold Lower.loadSlot
  cases hk : slot.kind with
  | int =>
    refine (Lower.Ensures.build (h.writes_loadNumber hs hk (hr _))).bind ?_
    rintro v _ ⟨b', rfl, t', w, hv⟩
    exact .pure ⟨b', rfl, t', w, hv⟩
  | string =>
    refine (Lower.Ensures.build (h.writes_loadPointer hs (by rw [hk]; rfl) (hr _))).bind ?_
    rintro v _ ⟨b', rfl, t', r, rfl, hv, w⟩
    exact .pure ⟨b', rfl, t', w, _, hv, rfl, by simp⟩
  | array => exact .throw (fun _ => by simp)

/-- **The code of an expression takes nothing from the hand and leaves the buffer of its value.** -/
theorem ensures_expr : ∀ (e : Expr) {s : LowerState} {t : Known}, Building D s.frames.current s.builder t → t.Ready →
    Lower.Ensures (Lower.expr e) s fun v s' => ∃ b', s' = { s with builder := b' } ∧
      ∃ t', Writes D s.frames.current s.builder t [] v.owned? b' t' ∧ v.Typed t'
  | .number value _, s, t, h, _ => .pure ⟨s.builder, rfl, t, .refl h, Known.hasType_int t value⟩
  | .string text _, s, t, h, _ => by
    refine (Lower.Ensures.build (h.ensures_stringConstant text)).bind ?_
    rintro constant _ ⟨b', rfl, w⟩
    exact .pure ⟨b', rfl, t, w, trivial⟩
  | .var name span, s, t, h, hr => by
    refine (Lower.ensures_slotOf ⟨name, span⟩).bind ?_
    rintro slot _ ⟨rfl, hs⟩
    exact h.ensures_loadSlot hr (SlotTable.mem_of_lookup hs) span
  | .index array position _, s, t, h, hr => by
    refine (Lower.ensures_arraySlot array).bind ?_
    rintro slot _ ⟨rfl, hs, hk⟩
    refine (ensures_expr position h hr).bind ?_
    rintro value _ ⟨b₁, rfl, t₁, w₁, hv⟩
    refine (Lower.Ensures.build (w₁.building.writes_asInt hv)).bind ?_
    rintro index _ ⟨b₂, rfl, t₂, w₂, hi⟩
    have w := w₁.then_takes h w₂
    refine (Lower.Ensures.build (w.building.writes_elementAddress hs hk (w.ready hr _) hi)).bind ?_
    rintro _ _ ⟨b₃, rfl, t₃, r, rfl, hcell, w₃⟩
    refine (Lower.Ensures.build (w₃.building.ensures_result (.loadCell hcell w₃.building.fresh))).bind ?_
    rintro _ _ ⟨b₄, rfl, rfl, hn, hb⟩
    exact .pure ⟨b₄, rfl, _, (w.then_makes w₃).then_makes (.define w₃.building (by simp) hn hb),
      Known.hasType_define _ _ _⟩
  | .binary op left right _, s, t, h, hr => by
    refine (ensures_expr left h hr).bind ?_
    rintro lhs _ ⟨b₁, rfl, t₁, w₁, hl⟩
    refine (ensures_expr right w₁.building (w₁.ready hr)).bind ?_
    rintro rhs _ ⟨b₂, rfl, t₂, w₂, hrt⟩
    -- the right value is computed after the left one, so its buffer is another
    have hnew : ∀ r ∈ rhs.owned?, r ∉ lhs.owned? := by
      intro r hr hrl
      have hlt := w₁.building.content_below (hl.content_owned r hrl)
      rcases w₂.made r hr with hr | hr
      · cases hr
      · exact Nat.not_lt.2 hr hlt
    have hl₂ := w₂.lowered w₁.building (by simp) hl
    refine (Lower.Ensures.build (w₂.building.writes_binaryOperator op ⟨hl₂, hrt, hnew⟩)).mono ?_
    rintro v _ ⟨b₃, rfl, t₃, w₃, hv⟩
    exact ⟨b₃, rfl, t₃, (w₁.then_makes w₂).then_takes h w₃, hv⟩
  | .neg operand _, s, t, h, hr => by
    refine (ensures_expr operand h hr).bind ?_
    rintro value _ ⟨b₁, rfl, t₁, w₁, hv⟩
    refine (Lower.Ensures.build (w₁.building.writes_asInt hv)).bind ?_
    rintro n _ ⟨b₂, rfl, t₂, w₂, hn⟩
    refine (Lower.Ensures.build (w₂.building.writes_arith .sub (Known.hasType_int _ _) hn)).bind ?_
    rintro v _ ⟨b₃, rfl, t₃, w₃, hv⟩
    exact .pure ⟨b₃, rfl, t₃, (w₁.then_takes h w₂).then_makes w₃, hv⟩
  | .trig func degrees scale _, s, t, h, hr => by
    refine (ensures_expr degrees h hr).bind ?_
    rintro dv _ ⟨b₁, rfl, t₁, w₁, hdv⟩
    refine (Lower.Ensures.build (w₁.building.writes_asInt hdv)).bind ?_
    rintro d _ ⟨b₂, rfl, t₂, w₂, hd⟩
    have w := w₁.then_takes h w₂
    refine (ensures_expr scale w.building (w.ready hr)).bind ?_
    rintro cv _ ⟨b₃, rfl, t₃, w₃, hcv⟩
    refine (Lower.Ensures.build (w₃.building.writes_asInt hcv)).bind ?_
    rintro c _ ⟨b₄, rfl, t₄, w₄, hc⟩
    have w' := w₃.then_takes w.building w₄
    refine (Lower.Ensures.build
      (w'.building.writes_trig func (w'.hasType w.building (by decide) hd) hc)).bind ?_
    rintro v _ ⟨b₅, rfl, t₅, w₅, hv⟩
    exact .pure ⟨b₅, rfl, t₅, (w.then_makes w').then_makes w₅, hv⟩
  | .random seed limit _, s, t, h, hr => by
    refine (ensures_expr seed h hr).bind ?_
    rintro av _ ⟨b₁, rfl, t₁, w₁, hav⟩
    refine (Lower.Ensures.build (w₁.building.writes_asInt hav)).bind ?_
    rintro a _ ⟨b₂, rfl, t₂, w₂, ha⟩
    have w := w₁.then_takes h w₂
    refine (ensures_expr limit w.building (w.ready hr)).bind ?_
    rintro lv _ ⟨b₃, rfl, t₃, w₃, hlv⟩
    refine (Lower.Ensures.build (w₃.building.writes_asInt hlv)).bind ?_
    rintro l _ ⟨b₄, rfl, t₄, w₄, hl⟩
    have w' := w₃.then_takes w.building w₄
    refine (Lower.Ensures.build
      (w'.building.writes_random (w'.hasType w.building (by decide) ha) hl)).bind ?_
    rintro v _ ⟨b₅, rfl, t₅, w₅, hv⟩
    exact .pure ⟨b₅, rfl, t₅, (w.then_makes w').then_makes w₅, hv⟩

theorem ensures_int (h : Building D s.frames.current s.builder t) (hr : t.Ready) (e : Expr) :
    Lower.Ensures (Lower.int e) s fun n s' => ∃ b', s' = { s with builder := b' } ∧
      ∃ t', Writes D s.frames.current s.builder t [] [] b' t' ∧ t'.HasType n .i64 := by
  refine (ensures_expr e h hr).bind ?_
  rintro value _ ⟨b₁, rfl, t₁, w₁, hv⟩
  refine (Lower.Ensures.build (w₁.building.writes_asInt hv)).mono ?_
  rintro n _ ⟨b₂, rfl, t₂, w₂, hn⟩
  exact ⟨b₂, rfl, t₂, w₁.then_takes h w₂, hn⟩

theorem ensures_text (h : Building D s.frames.current s.builder t) (hr : t.Ready) (e : Expr) :
    Lower.Ensures (Lower.text e) s fun x s' => ∃ b', s' = { s with builder := b' } ∧
      ∃ t', Writes D s.frames.current s.builder t [] x.owned? b' t' ∧ x.Typed t' := by
  refine (ensures_expr e h hr).bind ?_
  rintro value _ ⟨b₁, rfl, t₁, w₁, hv⟩
  refine (Lower.Ensures.build (w₁.building.writes_asText hv)).mono ?_
  rintro x _ ⟨b₂, rfl, t₂, w₂, hx⟩
  exact ⟨b₂, rfl, t₂, w₁.then_takes h w₂, hx⟩

theorem ensures_condition (h : Building D s.frames.current s.builder t) (hr : t.Ready) (e : Expr) :
    Lower.Ensures (Lower.condition e) s fun v s' => ∃ b', s' = { s with builder := b' } ∧
      ∃ t', Writes D s.frames.current s.builder t [] [] b' t' ∧ t'.HasType v .i1 := by
  have hother : ∀ {value : Lowered} {b₁ : Builder} {t₁ : Known},
      Writes D s.frames.current s.builder t [] value.owned? b₁ t₁ → value.Typed t₁ →
      Lower.Ensures (do let n ← Lower.build (Builder.asInt value); Lower.build (Builder.compare .ne .i64 n (.int 0)))
        { s with builder := b₁ } fun v s' => ∃ b', s' = { s with builder := b' } ∧
        ∃ t', Writes D s.frames.current s.builder t [] [] b' t' ∧ t'.HasType v .i1 := by
    intro value b₁ t₁ w₁ hv
    refine (Lower.Ensures.build (w₁.building.writes_asInt hv)).bind ?_
    rintro n _ ⟨b₂, rfl, t₂, w₂, hn⟩
    refine (Lower.Ensures.build (w₂.building.writes_compare .ne (.inl rfl) hn (Known.hasType_int _ _))).mono ?_
    rintro v _ ⟨b₃, rfl, t₃, w₃, hv⟩
    exact ⟨b₃, rfl, t₃, (w₁.then_takes h w₂).then_makes w₃, hv⟩
  refine (ensures_expr e h hr).bind ?_
  rintro value _ ⟨b₁, rfl, t₁, w₁, hv⟩
  cases value with
  | bool v => exact .pure ⟨b₁, rfl, t₁, w₁, hv⟩
  | int n => exact hother w₁ hv
  | text x => exact hother w₁ hv

end Building
end QuillLang
