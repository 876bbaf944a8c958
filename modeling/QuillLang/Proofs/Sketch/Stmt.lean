import QuillLang.Proofs.Sketch.Walk
/-!
# Statements

Every statement leads from a point where nothing is in hand to another one.  Statements without blocks of their own come
first.
-/
namespace QuillLang

theorem SlotKind.isHeap_ofTy (ty : Ty) : (SlotKind.ofTy ty).isHeap = ty.isString := by
  cases ty <;> rfl

theorem Linked.build {sc : Scan} {D : Sketch} {s : LowerState} (l : Linked sc D s) (b : Builder) :
    Linked sc D { s with builder := b } :=
  ⟨l.functions, l.ret, l.declared, l.early, l.loop⟩

theorem Declares.walks {sc : Scan} {D D' : Sketch} {s s' : LowerState} {t₁ t' : Known} {b₁ b : Builder}
    (d : Declares D { s with builder := b₁ } t₁ sc D' s') (hb : Building D' s'.frames.current b t') (hs : t'.Settled)
    (hd : s.afterReturn = true → t'.dead = true) : Walks D s sc D.pending D' { s' with builder := b } t' :=
  ⟨⟨d.toLinked.build b, hb, hs, fun hr => hd (by rw [← d.afterReturn]; exact hr)⟩, d.onward, d.pending,
    ⟨d.same.functions, d.same.scopes, d.same.outer, d.same.ret, d.same.depth⟩, d.loop_clock⟩

namespace Walking
variable {sc : Scan} {D : Sketch} {s : LowerState} {t : Known}

/-! ## Variables -/

theorem ensures_make (h : Walking sc D s t) (name : Ident) (value : Expr) :
    Lower.Ensures (Lower.make name value) s fun _ s' => ∃ D' t',
      Walks D s (sc.declare (decide (0 < s.loopDepth)) name.name
        ((s.scopes.current.get? name.name).getD (value.infer s.scopes.current)).isString) D.pending D' s' t' := by
  refine (Lower.Ensures.get (Q := fun a s' => a = s ∧ s' = s) ⟨rfl, rfl⟩).bind ?_
  rintro _ _ ⟨rfl, rfl⟩
  rename_i s
  refine (Building.ensures_expr value h.building h.settled.ready).bind ?_
  rintro v _ ⟨b₁, rfl, t₁, w₁, hv⟩
  refine ((h.toLinked.build b₁).ensures_declareSlot w₁.building name _).bind ?_
  rintro ⟨slot, redeclared⟩ s₂ ⟨D', d, hs, -, hf⟩
  refine (Lower.Ensures.get (Q := fun a s' => a = s₂ ∧ s' = s₂) ⟨rfl, rfl⟩).bind ?_
  rintro _ _ ⟨rfl, rfl⟩
  rename_i s₂
  have hh := (Known.Holding.of_settled h.settled).writes w₁
  refine (d.building.ensures_storeSlot hv hh hs (by rw [d.same.depth]; exact hf) name).mono ?_
  rintro _ _ ⟨b₃, rfl, t₃, h₃, hset, hdead, -⟩
  rw [SlotKind.isHeap_ofTy] at d
  exact ⟨D', t₃, d.walks h₃ hset (fun hr => by rw [hdead, w₁.turns.dead]; exact h.dead hr)⟩

theorem ensures_makeArray (h : Walking sc D s t) (name : Ident) (size : Expr) :
    Lower.Ensures (Lower.makeArray name size) s fun _ s' => ∃ D' t',
      Walks D s (sc.declare (decide (0 < s.loopDepth)) name.name true) D.pending D' s' t' := by
  refine (h.building.ensures_int h.settled.ready size).bind ?_
  rintro count _ ⟨b₁, rfl, t₁, w₁, hc⟩
  refine (Lower.Ensures.build (w₁.building.writes_arith .mul hc (Known.hasType_int _ _))).bind ?_
  rintro bytes _ ⟨b₂, rfl, t₂, w₂, hbytes⟩
  refine (Lower.Ensures.build (w₂.building.writes_malloc hbytes)).bind ?_
  rintro _ _ ⟨b₃, rfl, t₃, rfl, w₃⟩
  have w := (w₁.then_makes w₂).then_makes w₃
  refine ((h.toLinked.build b₃).ensures_declareSlot w.building name .array).bind ?_
  rintro ⟨slot, redeclared⟩ s₄ ⟨D', d, hs, hk, hf⟩
  refine (Lower.Ensures.get (Q := fun a s' => a = s₄ ∧ s' = s₄) ⟨rfl, rfl⟩).bind ?_
  rintro _ _ ⟨rfl, rfl⟩
  rename_i s₄
  have hh := (Known.Holding.of_settled h.settled).writes w
  refine (d.building.ensures_replace hs (by rw [hk]; rfl) hh (by rw [d.same.depth]; exact hf)).mono ?_
  rintro _ _ ⟨b₅, rfl, t₅, h₅, hset, hdead, -⟩
  exact ⟨D', t₅, d.walks h₅ hset (fun hr => by rw [hdead, w.turns.dead]; exact h.dead hr)⟩

theorem ensures_assign (h : Walking sc D s t) (name : Ident) (value : Expr) :
    Lower.Ensures (Lower.assign name value) s fun _ s' => ∃ D' t', Walks D s sc D.pending D' s' t' := by
  refine (Lower.ensures_slotOf name).bind ?_
  rintro slot _ ⟨rfl, hs⟩
  rename_i s
  refine (Building.ensures_expr value h.building h.settled.ready).bind ?_
  rintro v _ ⟨b₁, rfl, t₁, w₁, hv⟩
  have hh := (Known.Holding.of_settled h.settled).writes w₁
  refine (w₁.building.ensures_storeSlot (s := { s with builder := b₁ }) hv hh (SlotTable.mem_of_lookup hs) (.inl rfl)
    name).mono ?_
  rintro _ _ ⟨b₂, rfl, t₂, h₂, hset, hdead, -⟩
  exact ⟨D, t₂, h.emitted h₂ hset (hdead.trans w₁.turns.dead)⟩

theorem ensures_assignArray (h : Walking sc D s t) (name : Ident) (position value : Expr) :
    Lower.Ensures (Lower.assignArray name position value) s fun _ s' => ∃ D' t', Walks D s sc D.pending D' s' t' := by
  refine (Lower.ensures_arraySlot name).bind ?_
  rintro slot _ ⟨rfl, hs, hk⟩
  refine (h.building.ensures_int h.settled.ready position).bind ?_
  rintro index _ ⟨b₁, rfl, t₁, w₁, hi⟩
  refine (w₁.building.ensures_int (w₁.ready h.settled.ready) value).bind ?_
  rintro v _ ⟨b₂, rfl, t₂, w₂, hv⟩
  have w := w₁.then_makes w₂
  refine (Lower.Ensures.build (w.building.writes_elementAddress hs hk (w.ready h.settled.ready _)
    (w₂.hasType w₁.building (by decide) hi))).bind ?_
  rintro _ _ ⟨b₃, rfl, t₃, r, rfl, hcell, w₃⟩
  refine (Lower.Ensures.build (w₃.building.ensures_emit
    (.storeCell hcell (w₃.hasType w.building (by decide) hv)))).mono ?_
  rintro _ _ ⟨b₄, rfl, -, h₄⟩
  have w' := w.then_makes w₃
  exact ⟨D, t₃, h.emitted h₄ ((Known.Holding.of_settled h.settled).writes w').settled w'.turns.dead⟩

theorem ensures_free (h : Walking sc D s t) (name : Ident) :
    Lower.Ensures (Lower.free name) s fun _ s' => ∃ D' t', Walks D s sc D.pending D' s' t' := by
  refine (Lower.ensures_slotOf name).bind ?_
  rintro slot _ ⟨rfl, hl⟩
  have hs := SlotTable.mem_of_lookup hl
  by_cases hk : slot.kind.isHeap = true
  · rw [if_pos hk]
    refine (Lower.Ensures.build (h.building.ensures_freeSlot hs hk (h.settled.ready _))).bind ?_
    rintro _ _ ⟨b₁, rfl, t₁, h₁, f₁⟩
    refine (Lower.Ensures.build (h₁.ensures_emit (.storeNull hs hk (by rw [f₁.status, if_pos (by simp)])))).mono ?_
    rintro _ _ ⟨b₂, rfl, -, h₂⟩
    refine ⟨D, _, h.emitted h₂ ⟨fun r hr => h.settled.empty r ((f₁.owned r).1 hr), fun x => ?_⟩ f₁.dead⟩
    rw [Known.status_setStatus, f₁.status]
    split
    · rfl
    · rw [if_neg (by simpa using ‹_›)]
      exact h.settled.ready x
  · rw [if_neg hk]
    exact .throw (fun _ => by simp)

theorem ensures_print (h : Walking sc D s t) (value : Expr) :
    Lower.Ensures (Lower.print value) s fun _ s' => ∃ D' t', Walks D s sc D.pending D' s' t' := by
  have hnumber : ∀ {v : Lowered} {b₁ : Builder} {t₁ : Known}, Writes D s.frames.current s.builder t [] v.owned? b₁ t₁ →
      v.Typed t₁ → Lower.Ensures (do
        let n ← Lower.build (Builder.asInt v)
        let format ← Lower.build (Builder.stringConstant "%lld\n")
        let _ ← Lower.build (Builder.callVariadic "printf" [.global format] [(.i64, n)])) { s with builder := b₁ }
        fun _ s' => ∃ D' t', Walks D s sc D.pending D' s' t' := by
    intro v b₁ t₁ w₁ hv
    refine (Lower.Ensures.build (w₁.building.writes_asInt hv)).bind ?_
    rintro n _ ⟨b₂, rfl, t₂, w₂, hn⟩
    refine (Lower.Ensures.build (w₂.building.ensures_stringConstant "%lld\n")).bind ?_
    rintro format _ ⟨b₃, rfl, w₃⟩
    have hformat : t₂.Readable (.global format) := trivial
    refine (Lower.Ensures.build (w₃.building.writes_core (e := ⟨"printf", [.ptr], .i32, true⟩)
      (by simp [External.core]) (by simp) (by simp) ⟨by simp [External.writers], rfl, by simp,
      by simpa [Builder.typeArgs, Known.Passes] using ⟨⟨hformat.hasType, hformat⟩, hn⟩⟩)).bind ?_
    rintro _ _ ⟨b₄, rfl, t₄, w₄, -⟩
    have w := ((w₁.then_takes h.building w₂).then_makes w₃).then_makes w₄
    exact .pure ⟨D, t₄, h.emitted w.building ((Known.Holding.of_settled h.settled).writes w).settled w.turns.dead⟩
  refine (Building.ensures_expr value h.building h.settled.ready).bind ?_
  rintro v _ ⟨b₁, rfl, t₁, w₁, hv⟩
  cases v with
  | int n => exact hnumber w₁ hv
  | bool n => exact hnumber w₁ hv
  | text x =>
    refine (Lower.Ensures.build (w₁.building.ensures_stringConstant "%s\n")).bind ?_
    rintro format _ ⟨b₂, rfl, w₂⟩
    have hformat : t₁.Readable (.global format) := trivial
    refine (Lower.Ensures.build (w₂.building.writes_core (e := ⟨"printf", [.ptr], .i32, true⟩)
      (by simp [External.core]) (by simp) (by simp) ⟨by simp [External.writers], rfl, by simp, ?_⟩)).bind ?_
    · have := TextHandle.Typed.passes hv
      simpa [Builder.typeArgs] using ⟨⟨hformat.hasType, fun _ => hformat⟩, this⟩
    rintro _ _ ⟨b₃, rfl, t₃, w₃, -⟩
    refine (Lower.Ensures.build (w₃.building.writes_release (w₃.handle w₂.building (by simp) hv))).mono ?_
    rintro _ _ ⟨b₄, rfl, t₄, w₄⟩
    have w := w₁.then_takes h.building ((w₂.then_makes w₃).append w₄ (by simp))
    exact ⟨D, t₄, h.emitted w.building ((Known.Holding.of_settled h.settled).writes w).settled w.turns.dead⟩

end Walking
end QuillLang
