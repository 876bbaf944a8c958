import QuillLang.Proofs.Discipline.Basic
/-!
# What the rules keep

Code is checked front to back, so it can be cut anywhere (`steps_append`).  A block that keeps to the discipline goes on
doing so while the routine around it grows: later slots have later registers, and blocks that were promised are begun
(`Keeps.mono`).
-/
namespace QuillLang
namespace Setting
variable {S S' : Setting} {t t' u : Known} {i : Instr} {is js : List Instr}

theorem steps_append : ∀ {is : List Instr} {t : Known},
    S.Steps t (is ++ js) t' ↔ ∃ u, S.Steps t is u ∧ S.Steps u js t'
  | [], t => by simp [Steps]
  | i :: is, t => by
    simp only [List.cons_append, Steps, steps_append]
    constructor
    · rintro ⟨v, hv, w, hw, hj⟩
      exact ⟨w, ⟨v, hv, hw⟩, hj⟩
    · rintro ⟨w, ⟨v, hv, hw⟩, hj⟩
      exact ⟨v, hv, w, hw, hj⟩

theorem steps_singleton : S.Steps t [i] t' ↔ S.Step t i t' := by
  simp [Steps]

theorem Steps.snoc (h : S.Steps t is u) (hi : S.Step u i t') : S.Steps t (is ++ [i]) t' :=
  steps_append.2 ⟨u, h, steps_singleton.2 hi⟩

/-! ## One step -/

theorem Step.content_defined (h : S.Step t i t') {x : Register} (hx : t.content x = none)
    (hi : i.result ≠ some x) : t'.content x = none := by
  have hdef : ∀ {r : Register} {c : Content}, r ≠ x → (t.define r c).content x = none := by
    intro r c hr
    rw [Known.content_define, if_neg (Ne.symm hr), hx]
  have hne : ∀ {r : Register} {c : Content}, t.content r = some c → r ≠ x := by
    intro r c hr hrx
    rw [hrx, hx] at hr
    cases hr
  have hforget : ∀ {v : Known} {s : Register}, v.content x = none → (v.forget s).content x = none := by
    intro v s hv
    simp [Known.content_forget, hv]
  cases h with
  | alloca | storeNumber | storeNull => exact hx
  | storeOwned _ _ owned => exact hforget (hdef (hne owned))
  | storeCell | exit => exact hx
  | freeOwned _ owned => exact hdef (hne owned)
  | freeView => exact hforget hx
  | @external _ _ _ _ _ result =>
    cases result with
    | none => exact hx
    | some r => exact hdef (fun hr => hi (by rw [hr]))
  | loadNumber | loadPointer | element | loadCell | arith | compare | cast | malloc | function =>
    exact hdef (fun hr => hi (by rw [hr]))

theorem Step.status_of_not_slot (h : S.Step t i t') {x : Register} (hx : ∀ slot ∈ S.frame, slot.register ≠ x) :
    t'.status x = t.status x := by
  cases h with
  | alloca mem | storeNumber mem | storeNull mem | freeView _ mem =>
    have := hx _ mem
    simp [Known.release, Ne.symm this]
  | storeOwned mem =>
    have := hx _ mem
    simp [Known.fill, Ne.symm this]
  | @external _ _ _ _ _ result => cases result <;> rfl
  | storeCell | freeOwned | loadNumber | loadPointer | element | loadCell | arith | compare | cast | malloc | exit
  | function => rfl

theorem Step.mark_le (h : S.Step t i t') {n : Nat} (hn : t.mark ≤ n) (hb : ∀ slot ∈ S.frame, S.birth slot.register < n) :
    t'.mark ≤ n := by
  cases h with
  | storeOwned mem =>
    have := hb _ mem
    simp only [Known.fill]
    omega
  | @external _ _ _ _ _ result => cases result <;> exact hn
  | alloca | storeNumber | storeNull | storeCell | freeOwned | freeView | loadNumber | loadPointer | element | loadCell
  | arith | compare | cast | malloc | exit | function => exact hn

theorem Step.present (h : S.Step t i t') (hp : ∀ s, t.status s ≠ .absent) : ∀ s, t'.status s ≠ .absent := by
  intro s
  cases h with
  | alloca | storeNumber | storeNull =>
    simp only [Known.status_setStatus]
    split
    · simp
    · exact hp s
  | freeView =>
    simp only [Known.release, Known.status_setStatus, Known.status_forget]
    split
    · simp
    · exact hp s
  | storeOwned =>
    simp only [Known.fill, Known.status_setStatus, Known.status_forget, Known.status_define]
    split
    · simp
    · exact hp s
  | @external _ _ _ _ _ result => cases result <;> exact hp s
  | storeCell | freeOwned | loadNumber | loadPointer | element | loadCell | arith | compare | cast | malloc | exit
  | function => exact hp s

theorem Steps.step_of_mem (h : S.Steps t is t') (hi : i ∈ is) : ∃ u u', S.Step u i u' := by
  obtain ⟨pre, post, rfl⟩ := List.append_of_mem hi
  obtain ⟨u, -, u', hstep, -⟩ := steps_append.1 h
  exact ⟨u, u', hstep⟩

theorem Calls.one {callee : String} {ty ret : MachineType} {v : Operand}
    (known : S.signature callee = some ⟨[ty], ret, false⟩) (value : t.HasType v ty) :
    S.Calls t callee ⟨[ty], ret, false⟩ ret [(ty, v)] none :=
  ⟨known, rfl, by simpa using value, by simp, fun _ => rfl, rfl⟩

/-- **Every call agrees with the signature of its callee.** -/
theorem Step.calls {result : Option Register} {callee : String} {ret : MachineType} {args : List (MachineType × Operand)}
    {variadic : Option (List MachineType)} (h : S.Step t ⟨result, .call callee ret args variadic⟩ t') :
    ∃ sig, S.Calls t callee sig ret args variadic := by
  cases h with
  | malloc known value => exact ⟨_, .one known value⟩
  | freeOwned known owned => exact ⟨_, .one known (.register owned)⟩
  | freeView known _ _ _ view => exact ⟨_, .one known (.register view)⟩
  | exit known value => exact ⟨_, .one known value⟩
  | external calls => exact ⟨_, calls⟩
  | function calls => exact ⟨_, calls⟩

/-! ## A routine that grows -/

/-- A later setting of the same routine: slots numbered `n` and above were added, promised blocks were begun. -/
structure Le (n : Nat) (S S' : Setting) : Prop where
  frame : ∀ slot ∈ S.frame, slot ∈ S'.frame
  added : ∀ slot ∈ S'.frame, slot ∈ S.frame ∨
    n ≤ slot.register.index ∧ (slot.kind.isHeap = true → S'.early = false → S.retMark ≤ S'.birth slot.register)
  signature : ∀ name sig, S.signature name = some sig → S'.signature name = some sig
  ret : S'.ret = S.ret
  birth : ∀ slot ∈ S.frame, S'.birth slot.register = S.birth slot.register
  enters : ∀ id m, S.enters id m → S'.enters id m
  retMark : S.retMark ≤ S'.retMark
  early : S'.early = false → S.early = false

theorem Fresh.mono {n : Nat} (hle : S.Le n S') {r : Register} (h : S.Fresh t r) (hr : r.index < n) : S'.Fresh t r :=
  ⟨h.content, fun slot hs => by
    rcases hle.added slot hs with hs | ⟨hs, -⟩
    · exact h.slot slot hs
    · intro he
      rw [he] at hs
      omega, h.newest⟩

theorem Calls.mono {n : Nat} (hle : S.Le n S') {callee : String} {sig : CallSignature} {ret : MachineType}
    {args : List (MachineType × Operand)} {variadic : Option (List MachineType)}
    (h : S.Calls t callee sig ret args variadic) : S'.Calls t callee sig ret args variadic :=
  ⟨hle.signature _ _ h.known, h.ret_eq, h.typed, h.fixed, h.arity, h.variadic_eq⟩

theorem Step.mono {n : Nat} (hle : S.Le n S') (h : S.Step t i t') (hi : ∀ r, i.result = some r → r.index < n) :
    S'.Step t i t' := by
  cases h with
  | alloca mem absent => exact .alloca (hle.frame _ mem) absent
  | storeNumber mem kind present value => exact .storeNumber (hle.frame _ mem) kind present value
  | storeNull mem heap stale => exact .storeNull (hle.frame _ mem) heap stale
  | @storeOwned slot r mem heap owned vacant =>
    rw [← hle.birth slot mem] at vacant ⊢
    exact .storeOwned (hle.frame _ mem) heap owned vacant
  | loadNumber mem kind ready fresh => exact .loadNumber (hle.frame _ mem) kind ready (fresh.mono hle (hi _ rfl))
  | loadPointer mem heap ready fresh => exact .loadPointer (hle.frame _ mem) heap ready (fresh.mono hle (hi _ rfl))
  | element view index_type fresh => exact .element view index_type (fresh.mono hle (hi _ rfl))
  | loadCell cell fresh => exact .loadCell cell (fresh.mono hle (hi _ rfl))
  | storeCell cell value => exact .storeCell cell value
  | arith left right fresh => exact .arith left right (fresh.mono hle (hi _ rfl))
  | compare number left right fresh => exact .compare number left right (fresh.mono hle (hi _ rfl))
  | cast value fresh => exact .cast value (fresh.mono hle (hi _ rfl))
  | malloc known value fresh =>
    exact .malloc (hle.signature _ _ known) value (fresh.mono hle (hi _ rfl))
  | freeOwned known owned => exact .freeOwned (hle.signature _ _ known) owned
  | freeView known mem heap ready view latest =>
    exact .freeView (hle.signature _ _ known) (hle.frame _ mem) heap ready view latest
  | exit known value => exact .exit (hle.signature _ _ known) value
  | @external _ _ _ _ _ result calls mem other writes readable gives =>
    refine .external (calls.mono hle) mem other writes readable ?_
    cases result with
    | none => exact gives
    | some r => exact ⟨gives.1, gives.2.mono hle (hi _ rfl)⟩
  | function calls user fixed ret_type readable fresh =>
    exact .function (calls.mono hle) user fixed ret_type readable (fresh.mono hle (hi _ rfl))

theorem Steps.mono {n : Nat} (hle : S.Le n S') : ∀ {is : List Instr} {t : Known}, S.Steps t is t' →
    (∀ r ∈ is.filterMap Instr.result, r.index < n) → S'.Steps t is t'
  | [], _, h, _ => h
  | i :: is, _, ⟨u, h1, h2⟩, hi => by
    refine ⟨u, h1.mono hle (fun r hr => hi r ?_), Steps.mono hle h2 (fun r hr => hi r ?_)⟩
    · simp [hr]
    · rw [List.filterMap_cons]
      split
      · exact hr
      · exact List.mem_cons_of_mem _ hr

theorem Releases.mono {n m : Nat} (hle : S.Le n S') (hm : m ≤ n) {v : Operand} (hret : t.mark ≤ S.retMark)
    (h : S.Releases m t v) : S'.Releases m t v := by
  intro slot hs hheap
  rcases hle.added slot hs with hs | ⟨hn, hb⟩
  · rcases h slot hs hheap with hold | ⟨hlater, hearly⟩
    · exact .inl hold
    · refine .inr ⟨hlater, fun he => ?_⟩
      rw [hle.birth slot hs]
      exact hearly (hle.early he)
  · exact .inr ⟨by omega, fun he => Nat.le_trans hret (hb hheap he)⟩

theorem Ends.mono {n m : Nat} (hle : S.Le n S') (hm : m ≤ n) {e : Terminator} (h : S.Ends m t e) : S'.Ends m t e := by
  cases h with
  | br settled enters => exact .br settled (hle.enters _ _ enters)
  | condBr test settled yes no => exact .condBr test settled (hle.enters _ _ yes) (hle.enters _ _ no)
  | @ret v value hands owned later bound releases =>
    have hr := hle.ret
    have key : S'.Ends m t (.ret (some (S'.ret, v))) := by
      refine .ret (by rw [hr]; exact value) (by rw [hr]; exact hands) owned later (Nat.le_trans bound hle.retMark) ?_
      intro hne
      exact (releases (by rw [← hr]; exact hne)).mono hle hm bound
    rw [hr] at key
    exact key
  | unreachable dead settled => exact .unreachable dead settled

/-- **A closed block stays well behaved while its routine grows.** -/
theorem Keeps.mono {n n' : Nat} (hle : S.Le n S') (hn : n ≤ n') {start : Known} {k : Block}
    (h : S.Keeps n start k) : S'.Keeps n' start k := by
  obtain ⟨t, e, he, hsteps, m, hm, hres, hends⟩ := h
  refine ⟨t, e, he, hsteps.mono hle (fun r hr => ?_), m, by omega, hres, hends.mono hle hm⟩
  have := hres r hr
  omega

end Setting
end QuillLang
