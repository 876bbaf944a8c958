import QuillLang.Proofs.Sketch.Basic
/-!
# Writing instructions

Each way to emit an instruction, with what is known after it.
-/
namespace QuillLang

/-! ## Arguments -/

namespace Builder

theorem typeArgs_eq_zip : ∀ {tys : List MachineType} {vs : List Operand}, vs.length = tys.length →
    typeArgs tys vs = tys.zip vs
  | [], [], _ => rfl
  | ty :: tys, v :: vs, h => by
    rw [typeArgs, typeArgs_eq_zip (by simpa using h)]
    rfl

theorem typeArgs_types {tys : List MachineType} {vs : List Operand} (h : vs.length = tys.length) :
    (typeArgs tys vs).map Prod.fst = tys := by
  rw [typeArgs_eq_zip h, List.map_fst_zip (by omega)]

end Builder

def Known.Passes (t : Known) (x : MachineType × Operand) : Prop :=
  t.HasType x.2 x.1 ∧ (x.1 = .ptr → t.Readable x.2)

/-- The routine can be called with the arguments; the text that it writes is owned. -/
structure Known.Passing (t : Known) (e : External) (fixed : List Operand) (extra : List (MachineType × Operand)) : Prop where
  owned : e.name ∈ External.writers → ∃ r rest, fixed = .register r :: rest ∧ t.content r = some .owned
  length : fixed.length = e.signature.params.length
  variadic : e.signature.isVariadic = false → extra = []
  passes : ∀ x ∈ Builder.typeArgs e.signature.params fixed ++ extra, t.Passes x

/-! ## One instruction -/

namespace Building
variable {D : Sketch} {F : Frame} {b : Builder} {t t' : Known}

theorem ensures_result (h : Building D F b t) {op : Operation}
    (hs : (D.setting F).Step t ⟨some ⟨b.nextRegister⟩, op⟩ t') :
    Build.Ensures (Builder.emitResult op) b fun v b' =>
      v = .register ⟨b.nextRegister⟩ ∧ b'.nextRegister = b.nextRegister + 1 ∧ Building D F b' t' :=
  ⟨rfl, rfl, h.written (.inr rfl) hs⟩

theorem ensures_emit (h : Building D F b t) {op : Operation} (hs : (D.setting F).Step t ⟨none, op⟩ t') :
    Build.Ensures (Builder.emit none op) b fun _ b' => b'.nextRegister = b.nextRegister ∧ Building D F b' t' :=
  ⟨rfl, h.written (.inl rfl) hs⟩

/-- The value is the next register, which now holds `x`. -/
def Defines (D : Sketch) (F : Frame) (b : Builder) (t : Known) (x : Content) (v : Operand) (b' : Builder) : Prop :=
  v = .register ⟨b.nextRegister⟩ ∧ b'.nextRegister = b.nextRegister + 1 ∧ Building D F b' (t.define ⟨b.nextRegister⟩ x)

theorem callVariadic_eq (h : Building D F b t) {callee : String} {sig : CallSignature} (hd : D.signature callee = some sig)
    (fixed : List Operand) (extra : List (MachineType × Operand)) :
    (Builder.callVariadic callee fixed extra).run b =
      (if sig.ret = .void then do
          Builder.emit none (.call callee sig.ret (Builder.typeArgs sig.params fixed ++ extra)
            (if sig.isVariadic then some sig.params else none))
          return .null
        else Builder.emitResult (.call callee sig.ret (Builder.typeArgs sig.params fixed ++ extra)
          (if sig.isVariadic then some sig.params else none))).run b := by
  have hsig : b.signatures.get? callee = some sig := by rw [h.signatures, hd]
  unfold Builder.callVariadic
  simp only [Build.run_bind, Build.run_get, hsig, Option.getD_some]

theorem calls {callee : String} {sig : CallSignature} (hd : D.signature callee = some sig) {fixed : List Operand}
    {extra : List (MachineType × Operand)} (hlen : fixed.length = sig.params.length)
    (hvar : sig.isVariadic = false → extra = [])
    (hargs : ∀ x ∈ Builder.typeArgs sig.params fixed ++ extra, t.Passes x) :
    (D.setting F).Calls t callee sig sig.ret (Builder.typeArgs sig.params fixed ++ extra)
      (if sig.isVariadic then some sig.params else none) := by
  refine ⟨hd, rfl, fun x hx => (hargs x hx).1, ?_, ?_, rfl⟩
  · rw [List.map_append, Builder.typeArgs_types hlen]
    exact List.prefix_append _ _
  · intro hv
    rw [hvar hv, List.append_nil, Builder.typeArgs_eq_zip hlen, List.length_zip]
    omega

theorem head_of_writes {e : External} (he : e ∈ External.core ++ External.graphics) {fixed : List Operand}
    {extra : List (MachineType × Operand)} (hx : t.Passing e fixed extra) (h : e.name ∈ External.writers) : ∃ r,
      (Builder.typeArgs e.signature.params fixed ++ extra).head?.map Prod.snd = some (.register r) ∧
        t.content r = some .owned := by
  obtain ⟨r, rest, rfl, hr⟩ := hx.owned h
  have hp : ∀ e ∈ External.core ++ External.graphics, e.name ∈ External.writers → e.signature.params ≠ [] := by decide
  obtain ⟨ty, tys, hps⟩ := List.exists_cons_of_ne_nil (hp e he h)
  exact ⟨r, by rw [hps]; rfl, hr⟩

theorem ensures_external (h : Building D F b t) {e : External} (he : e ∈ External.core ++ External.graphics)
    (hd : D.signature e.name = some e.signature) (ho : e.name ∉ ["malloc", "free", "exit"])
    (hret : e.signature.ret ≠ .void) {fixed : List Operand} {extra : List (MachineType × Operand)}
    (hx : t.Passing e fixed extra) :
    Build.Ensures (Builder.callVariadic e.name fixed extra) b (Defines D F b t (.plain e.signature.ret)) := by
  unfold Build.Ensures
  rw [h.callVariadic_eq hd, if_neg hret]
  exact h.ensures_result (.external (calls hd hx.length hx.variadic hx.passes) he ho (head_of_writes he hx)
    (fun x hmem => (hx.passes x hmem).2) ⟨hret, h.fresh⟩)

theorem ensures_external_void (h : Building D F b t) {e : External} (he : e ∈ External.core ++ External.graphics)
    (hd : D.signature e.name = some e.signature) (ho : e.name ∉ ["malloc", "free", "exit"])
    (hret : e.signature.ret = .void) {fixed : List Operand} {extra : List (MachineType × Operand)}
    (hx : t.Passing e fixed extra) :
    Build.Ensures (Builder.callVariadic e.name fixed extra) b fun _ b' =>
      b'.nextRegister = b.nextRegister ∧ Building D F b' t := by
  unfold Build.Ensures
  rw [h.callVariadic_eq hd, if_pos hret]
  exact h.ensures_emit (.external (calls hd hx.length hx.variadic hx.passes) he ho (head_of_writes he hx)
    (fun x hmem => (hx.passes x hmem).2) hret)

theorem ensures_malloc (h : Building D F b t) {size : Operand} (hs : t.HasType size .i64) :
    Build.Ensures (Builder.call "malloc" [size]) b (Defines D F b t .owned) := by
  have hd := h.core ⟨"malloc", [.i64], .ptr, false⟩ (by simp [External.core])
  unfold Build.Ensures Builder.call
  rw [h.callVariadic_eq hd, if_neg (by simp)]
  exact h.ensures_result (.malloc hd hs h.fresh)

theorem ensures_freeOwned (h : Building D F b t) {r : Register} (hr : t.content r = some .owned) :
    Build.Ensures (Builder.call "free" [.register r]) b fun _ b' =>
      b'.nextRegister = b.nextRegister ∧ Building D F b' (t.define r (.plain .ptr)) := by
  have hd := h.core ⟨"free", [.ptr], .void, false⟩ (by simp [External.core])
  unfold Build.Ensures Builder.call
  rw [h.callVariadic_eq hd, if_pos rfl]
  exact h.ensures_emit (.freeOwned hd hr)

theorem ensures_freeView (h : Building D F b t) {slot : Slot} {r : Register} (hs : slot ∈ F)
    (hk : slot.kind.isHeap = true) (hr : t.status slot.register = .ready)
    (hv : t.content r = some (.view slot.register))
    (hlatest : ∀ x, t.content x = some (.view slot.register) → x.index ≤ r.index) :
    Build.Ensures (Builder.call "free" [.register r]) b fun _ b' =>
      b'.nextRegister = b.nextRegister ∧ Building D F b' (t.release slot.register) := by
  have hd := h.core ⟨"free", [.ptr], .void, false⟩ (by simp [External.core])
  unfold Build.Ensures Builder.call
  rw [h.callVariadic_eq hd, if_pos rfl]
  exact h.ensures_emit (.freeView hd hs hk hr hv hlatest)

theorem ensures_exit (h : Building D F b t) (status : Int64) :
    Build.Ensures (Builder.call "exit" [.int status]) b fun _ b' =>
      b'.nextRegister = b.nextRegister ∧ Building D F b' { t with dead := true } := by
  have hd := h.core ⟨"exit", [.i32], .void, false⟩ (by simp [External.core])
  unfold Build.Ensures Builder.call
  rw [h.callVariadic_eq hd, if_pos rfl]
  exact h.ensures_emit (.exit hd (Known.hasType_int32 _ _))

theorem ensures_function (h : Building D F b t) {callee : String} {sig : CallSignature} (hd : D.signature callee = some sig)
    (hu : callee ∉ External.names) (hv : sig.isVariadic = false) (hret : sig.ret = .i64 ∨ sig.ret = .ptr)
    {args : List Operand} (hlen : args.length = sig.params.length)
    (hargs : ∀ x ∈ Builder.typeArgs sig.params args, t.Passes x) :
    Build.Ensures (Builder.call callee args) b (Defines D F b t (if sig.ret = .ptr then .owned else .plain sig.ret)) := by
  have hargs' : ∀ x ∈ Builder.typeArgs sig.params args ++ [], t.Passes x := by simpa using hargs
  have hne : sig.ret ≠ .void := by rcases hret with hr | hr <;> rw [hr] <;> decide
  unfold Build.Ensures Builder.call
  rw [h.callVariadic_eq hd, if_neg hne]
  exact h.ensures_result
    (.function (calls hd hlen (fun _ => rfl) hargs') hu hv hret (fun x hx => (hargs' x hx).2) h.fresh)

/-! ## Slots -/

theorem ensures_loadPointer (h : Building D F b t) {slot : Slot} (hs : slot ∈ F) (hk : slot.kind.isHeap = true)
    (hr : t.status slot.register = .ready) :
    Build.Ensures (Builder.load .ptr (.register slot.register)) b (Defines D F b t (.view slot.register)) :=
  h.ensures_result (.loadPointer hs hk hr h.fresh)

end Building
end QuillLang
