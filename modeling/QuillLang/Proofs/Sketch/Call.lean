import QuillLang.Proofs.Sketch.Stmt
/-!
# Calls

The texts made for the arguments of a call are in hand while it runs and are freed after it; a text that the function
returns is in hand then, and is stored or freed.  Routines of the graphics runtime take numbers, and one of them a text.
-/
namespace QuillLang

theorem External.function_not_mem (name : String) : "fn." ++ name ∉ External.names := by
  have hall : ∀ x ∈ External.names, x.toList.take 3 ≠ "fn.".toList := by decide
  intro h
  refine hall _ h ?_
  simp [String.toList_append]

namespace Building
variable {D : Sketch} {F : Frame} {b : Builder} {t : Known}

theorem writes_releaseAll : ∀ (xs : List TextHandle) {b : Builder} {t : Known}, Building D F b t →
    (∀ x ∈ xs, x.Typed t) → (xs.flatMap TextHandle.owned?).Nodup →
    Build.Ensures (Builder.releaseAll xs) b fun _ b' => ∃ t', Writes D F b t (xs.flatMap TextHandle.owned?) [] b' t'
  | [], b, t, h, _, _ => ⟨t, .refl h⟩
  | x :: xs, b, t, h, hx, hd => by
    rw [List.flatMap_cons, List.nodup_append] at hd
    refine (h.writes_release (hx x (by simp))).bind ?_
    rintro _ b₁ ⟨t₁, w₁⟩
    refine (writes_releaseAll xs w₁.building (fun y hy => ?_) hd.2.1).mono ?_
    · refine w₁.handle h (fun r hr hrx => ?_) (hx y (List.mem_cons_of_mem _ hy))
      exact hd.2.2 r hrx r (List.mem_flatMap.2 ⟨y, hy, hr⟩) rfl
    · rintro _ b₂ ⟨t₂, w₂⟩
      exact ⟨t₂, w₁.append w₂ (by simp)⟩

theorem writes_function (h : Building D F b t) {info : FuncInfo} {name : String} (hs : info.symbol = "fn." ++ name)
    (hd : D.signature info.symbol = some ⟨info.params.map Ty.machineType, info.ret.machineType, false⟩)
    {values : List Operand} (hlen : values.length = info.params.length)
    (hargs : ∀ x ∈ Builder.typeArgs (info.params.map Ty.machineType) values, t.Passes x) :
    Build.Ensures (Builder.call info.symbol values) b fun v b' => ∃ t',
      Writes D F b t [] (Lower.callResult info.ret v).owned? b' t' ∧ (Lower.callResult info.ret v).Typed t' := by
  have hu : info.symbol ∉ External.names := by
    rw [hs]
    exact External.function_not_mem name
  refine (h.ensures_function hd hu rfl ?_ (by simpa using hlen) hargs).mono ?_
  · cases info.ret
    · exact .inl rfl
    · exact .inr rfl
  rintro _ b' ⟨rfl, hn, hb⟩
  cases hr : info.ret with
  | int =>
    rw [hr] at hb
    exact ⟨_, .define h (by simp [Ty.machineType, SlotKind.ofTy, SlotKind.machineType]) hn hb,
      Known.hasType_define _ _ _⟩
  | string =>
    rw [hr] at hb
    have w : Writes D F b t [] [⟨b.nextRegister⟩] b' _ := .obtain_buffer hn hb
    exact ⟨_, w, typed_made w⟩

end Building

namespace Building
variable {D : Sketch} {s : LowerState} {t : Known}

/-- **Arguments**: each has its parameter's type, and the texts made for them are in hand. -/
theorem ensures_arguments (args : List Expr) (tys : List Ty) (hlen : args.length = tys.length) {s : LowerState}
    {t : Known} (h : Building D s.frames.current s.builder t) (hr : t.Ready) :
    Lower.Ensures (Lower.arguments args tys) s fun p s' => ∃ b', s' = { s with builder := b' } ∧
      ∃ t', Writes D s.frames.current s.builder t [] (p.2.flatMap TextHandle.owned?) b' t' ∧
        p.1.length = tys.length ∧ (∀ x ∈ Builder.typeArgs (tys.map Ty.machineType) p.1, t'.Passes x) ∧
        (∀ x ∈ p.2, x.Typed t') ∧ (p.2.flatMap TextHandle.owned?).Nodup := by
  induction args generalizing tys s t with
  | nil =>
    obtain rfl : tys = [] := List.eq_nil_of_length_eq_zero hlen.symm
    exact .pure ⟨s.builder, rfl, t, .refl h, rfl, by simp [Builder.typeArgs], by simp, by simp⟩
  | cons arg args ih =>
    cases tys with
    | nil => cases hlen
    | cons ty tys =>
      refine (ensures_expr arg h hr).bind ?_
      rintro value _ ⟨b₁, rfl, t₁, w₁, hv⟩
      cases ty with
      | int =>
        refine (Lower.Ensures.build (w₁.building.writes_asInt hv)).bind ?_
        rintro v _ ⟨b₂, rfl, t₂, w₂, hn⟩
        have w := w₁.then_takes h w₂
        refine (ih tys (by simpa using hlen) w.building (w.ready hr)).bind ?_
        rintro ⟨vs, temps⟩ _ ⟨b₃, rfl, t₃, w₃, hvs, hpass, htemps, hnodup⟩
        refine .pure ⟨b₃, rfl, t₃, w.then_makes w₃, by simpa using hvs, ?_, htemps, hnodup⟩
        have hn₃ : t₃.HasType v .i64 := w₃.hasType w.building (by decide) hn
        have hhead : t₃.Passes (.i64, v) := ⟨hn₃, by simp⟩
        exact List.forall_mem_cons.2 ⟨hhead, hpass⟩
      | string =>
        refine (Lower.Ensures.build (w₁.building.writes_asText hv)).bind ?_
        rintro x _ ⟨b₂, rfl, t₂, w₂, hx⟩
        have w := w₁.then_takes h w₂
        refine (ih tys (by simpa using hlen) w.building (w.ready hr)).bind ?_
        rintro ⟨vs, temps⟩ _ ⟨b₃, rfl, t₃, w₃, hvs, hpass, htemps, hnodup⟩
        have hx₃ := w₃.handle w.building (by simp) hx
        refine .pure ⟨b₃, rfl, t₃, w.then_makes w₃, by simpa using hvs, ?_, by simpa using ⟨hx₃, htemps⟩, ?_⟩
        · have hhead : t₃.Passes (.ptr, x.value) := hx₃.passes
          exact List.forall_mem_cons.2 ⟨hhead, hpass⟩
        · -- later texts are in later registers
          rw [List.flatMap_cons, List.nodup_append]
          refine ⟨x.nodup_owned?, hnodup, fun r hrx r' hr' he => ?_⟩
          subst he
          have hlt := w.building.content_below (hx.content_owned r hrx)
          rcases w₃.made r hr' with hr' | hr'
          · cases hr'
          · exact Nat.not_lt.2 hr' hlt

/-- A call of a function, up to the point where its result alone is in hand. -/
theorem ensures_result_of_call (h : Building D s.frames.current s.builder t) (hr : t.Ready) {info : FuncInfo}
    {name : String} (hs : info.symbol = "fn." ++ name)
    (hd : D.signature info.symbol = some ⟨info.params.map Ty.machineType, info.ret.machineType, false⟩)
    {args : List Expr} (hlen : args.length = info.params.length) {f : Operand → Lower Unit}
    {Q : Unit → LowerState → Prop}
    (hf : ∀ v b' t', Writes D s.frames.current s.builder t [] (Lower.callResult info.ret v).owned? b' t' →
      (Lower.callResult info.ret v).Typed t' → Lower.Ensures (f v) { s with builder := b' } Q) :
    Lower.Ensures (do
        let (values, temps) ← Lower.arguments args info.params
        let value ← Lower.build (Builder.call info.symbol values)
        Lower.build (Builder.releaseAll temps)
        f value) s Q := by
  refine (ensures_arguments args info.params hlen h hr).bind ?_
  rintro ⟨values, temps⟩ _ ⟨b₁, rfl, t₁, w₁, hvs, hpass, htemps, hnodup⟩
  refine (Lower.Ensures.build (w₁.building.writes_function hs hd hvs hpass)).bind ?_
  rintro v _ ⟨b₂, rfl, t₂, w₂, hv⟩
  refine (Lower.Ensures.build (w₂.building.writes_releaseAll temps
    (fun x hx => w₂.handle w₁.building (by simp) (htemps x hx)) hnodup)).bind ?_
  rintro _ _ ⟨b₃, rfl, t₃, w₃⟩
  -- the result is in a later register than the texts of the arguments
  have hnew : ∀ r ∈ (Lower.callResult info.ret v).owned?, r ∉ temps.flatMap TextHandle.owned? := by
    intro r hr hmem
    obtain ⟨x, hx, hrx⟩ := List.mem_flatMap.1 hmem
    have hlt := w₁.building.content_below ((htemps x hx).content_owned r hrx)
    rcases w₂.made r hr with hr | hr
    · cases hr
    · exact Nat.not_lt.2 hr hlt
  have w := w₁.then_takes h (w₂.append w₃ hnew)
  rw [List.append_nil] at w
  exact hf v b₃ t₃ w (w₃.lowered w₂.building hnew hv)

/-! ## Graphics -/

theorem ensures_ints : ∀ (es : List Expr) {s : LowerState} {t : Known}, Building D s.frames.current s.builder t → t.Ready →
    Lower.Ensures (Lower.ints es) s fun vs s' => ∃ b', s' = { s with builder := b' } ∧
      ∃ t', Writes D s.frames.current s.builder t [] [] b' t' ∧ vs.length = es.length ∧ ∀ v ∈ vs, t'.HasType v .i64
  | [], s, t, h, _ => .pure ⟨s.builder, rfl, t, .refl h, rfl, by simp⟩
  | e :: es, s, t, h, hr => by
    refine (h.ensures_int hr e).bind ?_
    rintro v _ ⟨b₁, rfl, t₁, w₁, hv⟩
    refine (ensures_ints es w₁.building (w₁.ready hr)).bind ?_
    rintro vs _ ⟨b₂, rfl, t₂, w₂, hlen, hvs⟩
    refine .pure ⟨b₂, rfl, t₂, w₁.then_makes w₂, by simp [hlen], ?_⟩
    simp only [List.mem_cons, forall_eq_or_imp]
    exact ⟨w₂.hasType w₁.building (by decide) hv, hvs⟩

end Building

def Sketch.Draws (D : Sketch) : Prop := ∀ e ∈ External.graphics, D.signature e.name = some e.signature

theorem External.graphics_other {e : External} (he : e ∈ External.graphics) :
    e.name ∉ ["malloc", "free", "exit"] ∧ e.name ∉ External.writers := by
  have hall : ∀ e ∈ External.graphics, e.name ∉ ["malloc", "free", "exit"] ∧ e.name ∉ External.writers := by decide
  exact hall e he

theorem Known.passes_ints {t : Known} {n : Nat} {vs : List Operand} (hlen : vs.length = n)
    (hv : ∀ v ∈ vs, t.HasType v .i64) : ∀ x ∈ Builder.typeArgs (List.replicate n .i64) vs, t.Passes x := by
  intro x hx
  rw [Builder.typeArgs_eq_zip (by simpa using hlen)] at hx
  obtain ⟨ty, v⟩ := x
  have hmem := List.of_mem_zip hx
  obtain rfl := List.eq_of_mem_replicate hmem.1
  exact ⟨hv v hmem.2, by simp⟩

namespace Walking
variable {sc : Scan} {D : Sketch} {s : LowerState} {t : Known}

theorem ensures_functionInfo (h : Walking sc D s t) (name : Ident) :
    Lower.Ensures (Lower.functionInfo name) s fun info s' => s' = s ∧ info.symbol = "fn." ++ name.name ∧
      D.signature info.symbol = some ⟨info.params.map Ty.machineType, info.ret.machineType, false⟩ := by
  refine (Lower.Ensures.get (Q := fun a s' => a = s ∧ s' = s) ⟨rfl, rfl⟩).bind ?_
  rintro _ _ ⟨rfl, rfl⟩
  rename_i s
  cases hf : s.functions.get? name.name with
  | some info => exact .pure ⟨rfl, h.functions name.name info hf⟩
  | none => exact .throw (fun _ => by simp)

theorem ensures_call (h : Walking sc D s t) (callee : Ident) (args : List Expr) (result : Option Ident) :
    Lower.Ensures (Lower.call callee args result) s fun _ s' => ∃ D' t', Walks D s sc D.pending D' s' t' := by
  refine (h.ensures_functionInfo callee).bind ?_
  rintro info _ ⟨rfl, hs, hd⟩
  rename_i s
  by_cases hlen : args.length ≠ info.params.length
  · rw [if_pos hlen]
    exact .throw (fun _ => by simp)
  rw [if_neg hlen]
  have hlen := Decidable.not_not.1 hlen
  have hold := Known.Holding.of_settled h.settled
  cases result with
  | some name =>
    refine (Lower.ensures_resultSlot name).bind ?_
    rintro slot _ ⟨rfl, hl⟩
    rename_i s
    refine h.building.ensures_result_of_call h.settled.ready hs hd hlen ?_
    intro v b' t' w hv
    refine (w.building.ensures_storeSlot (s := { s with builder := b' }) hv (hold.writes w) (SlotTable.mem_of_lookup hl)
      (.inl rfl) name).mono ?_
    rintro _ _ ⟨b₂, rfl, t₂, h₂, hset, hdead, -⟩
    exact ⟨D, t₂, h.emitted h₂ hset (hdead.trans w.turns.dead)⟩
  | none =>
    refine h.building.ensures_result_of_call h.settled.ready hs hd hlen ?_
    intro v b' t' w hv
    refine (Lower.Ensures.build (w.building.writes_discard hv)).mono ?_
    rintro _ _ ⟨b₂, rfl, t₂, w₂⟩
    have w' := w.then_takes h.building w₂
    exact ⟨D, t₂, h.emitted w'.building (hold.writes w').settled w'.turns.dead⟩

theorem ensures_callWithInts (h : Walking sc D s t) (hg : D.Draws) {e : External} (he : e ∈ External.graphics)
    {args : List Expr} (hp : e.signature.params = List.replicate args.length .i64) (hret : e.signature.ret = .void) :
    Lower.Ensures (Lower.callWithInts e.name args) s fun _ s' => ∃ D' t', Walks D s sc D.pending D' s' t' := by
  refine (Building.ensures_ints args h.building h.settled.ready).bind ?_
  rintro vs _ ⟨b₁, rfl, t₁, w₁, hlen, hvs⟩
  have hpass := Known.passes_ints hlen hvs
  rw [← hp] at hpass
  refine (Lower.Ensures.build (w₁.building.ensures_external_void (List.mem_append_right _ he) (hg e he)
    (External.graphics_other he).1 hret ⟨fun hw => absurd hw (External.graphics_other he).2,
    by rw [hp, hlen, List.length_replicate], fun _ => rfl, by simpa using hpass⟩)).bind ?_
  rintro _ _ ⟨b₂, rfl, -, h₂⟩
  exact .pure ⟨D, t₁, h.emitted h₂ ((Known.Holding.of_settled h.settled).writes w₁).settled w₁.turns.dead⟩

theorem ensures_window (h : Walking sc D s t) (hg : D.Draws) (title width height : Expr) :
    Lower.Ensures (Lower.graphics (.window title width height)) s fun _ s' => ∃ D' t', Walks D s sc D.pending D' s' t' := by
  refine (h.building.ensures_text h.settled.ready title).bind ?_
  rintro x _ ⟨b₁, rfl, t₁, w₁, hx⟩
  refine (w₁.building.ensures_int (w₁.ready h.settled.ready) width).bind ?_
  rintro wd _ ⟨b₂, rfl, t₂, w₂, hw⟩
  refine (w₂.building.ensures_int (w₂.ready (w₁.ready h.settled.ready)) height).bind ?_
  rintro hd _ ⟨b₃, rfl, t₃, w₃, hh⟩
  have hx₃ := w₃.handle w₂.building (by simp) (w₂.handle w₁.building (by simp) hx)
  have hw₃ := w₃.hasType w₂.building (by decide) hw
  have he : (⟨"gfx_window", [.ptr, .i64, .i64], .void, false⟩ : External) ∈ External.graphics := by
    simp [External.graphics]
  refine (Lower.Ensures.build (w₃.building.ensures_external_void (List.mem_append_right _ he) (hg _ he)
    (External.graphics_other he).1 rfl ⟨fun hw => absurd hw (External.graphics_other he).2, rfl, fun _ => rfl,
    ?_⟩)).bind ?_
  · have := hx₃.passes
    simpa [Builder.typeArgs] using ⟨this, ⟨hw₃, by simp⟩, hh, by simp⟩
  rintro _ _ ⟨b₄, rfl, hn, h₄⟩
  refine (Lower.Ensures.build (h₄.writes_release hx₃)).mono ?_
  rintro _ _ ⟨b₅, rfl, t₅, w₅⟩
  have w₄ : Writes D s.frames.current b₃ t₃ [] [] b₄ t₃ :=
    ⟨h₄, Nat.le_of_eq hn.symm, (Writes.refl w₃.building).turns, by simp⟩
  have w := w₁.then_takes h.building (((w₂.then_makes w₃).then_makes w₄).append w₅ (by simp))
  exact ⟨D, t₅, h.emitted w.building ((Known.Holding.of_settled h.settled).writes w).settled w.turns.dead⟩

theorem ensures_getPixel (h : Walking sc D s t) (hg : D.Draws) (x y : Expr) (result : Ident) :
    Lower.Ensures (Lower.graphics (.getPixel x y result)) s fun _ s' => ∃ D' t', Walks D s sc D.pending D' s' t' := by
  refine (Lower.ensures_resultSlot result).bind ?_
  rintro slot _ ⟨rfl, hl⟩
  rename_i s
  refine (h.building.ensures_int h.settled.ready x).bind ?_
  rintro vx _ ⟨b₁, rfl, t₁, w₁, hx⟩
  refine (w₁.building.ensures_int (w₁.ready h.settled.ready) y).bind ?_
  rintro vy _ ⟨b₂, rfl, t₂, w₂, hy⟩
  have hx₂ := w₂.hasType w₁.building (by decide) hx
  have he : (⟨"gfx_get_pixel", [.i64, .i64], .i64, false⟩ : External) ∈ External.graphics := by
    simp [External.graphics]
  refine (Lower.Ensures.build (w₂.building.ensures_external (List.mem_append_right _ he) (hg _ he)
    (External.graphics_other he).1 (by simp) ⟨fun hw => absurd hw (External.graphics_other he).2, rfl, fun _ => rfl,
    ?_⟩)).bind ?_
  · simpa [Builder.typeArgs] using ⟨⟨hx₂, by simp⟩, hy, by simp⟩
  rintro _ _ ⟨b₃, rfl, rfl, hn, h₃⟩
  have w := (w₁.then_makes w₂).then_makes (.define w₂.building (by simp) hn h₃)
  refine (w.building.ensures_storeSlot (s := { s with builder := b₃ }) (v := .int (.register ⟨b₂.nextRegister⟩))
    (Known.hasType_define _ _ _) ((Known.Holding.of_settled h.settled).writes w) (SlotTable.mem_of_lookup hl) (.inl rfl)
    result).mono ?_
  rintro _ _ ⟨b₄, rfl, t₄, h₄, hset, hdead, -⟩
  exact ⟨D, t₄, h.emitted h₄ hset (hdead.trans w.turns.dead)⟩

end Walking
end QuillLang
