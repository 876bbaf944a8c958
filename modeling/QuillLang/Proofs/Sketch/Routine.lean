import QuillLang.Proofs.Sketch.Control
/-!
# Whole routines

A routine begins with its arguments and no slots, and when its last block is closed it fits the plan that the sketch has
become.
-/
namespace QuillLang

/-! ## The end -/

namespace Building
variable {D : Sketch} {F : Frame} {b : Builder} {t : Known}

/-- Every block of a routine keeps to the discipline, the open one included once it is closed. -/
theorem keeps_closed (h : Building D F b t) {e : Terminator} (he : (D.setting F).Ends b.nextRegister t e) :
    ∀ k ∈ D.closed ++ [⟨D.id, D.label, b.code, some e⟩], (D.setting F).Keeps b.nextRegister (D.startOf k.id) k := by
  intro k hk
  rcases List.mem_append.1 hk with hk | hk
  · exact h.closed k hk
  · obtain rfl := List.mem_singleton.1 hk
    exact ⟨t, e, rfl, h.typed, b.nextRegister, Nat.le_refl _, h.result_below, he⟩

/-- **A finished routine fits a plan.** -/
theorem finish (h : Building D F b t) {e : Terminator} (he : (D.setting F).Ends b.nextRegister t e)
    (hp : D.pending = []) :
    ∃ (P : Plan) (r : Routine), (b.terminated e).closeRoutine =
        { b with
          block := none, routine := none, prologue := []
          assembly := { b.assembly with routines := D.done ++ [r] } } ∧
      r.name = D.name ∧ r.params = D.params ∧ r.ret = D.ret ∧ P.Fits D.signature r ∧ P.early = D.early := by
  have hkeeps := h.keeps_closed he
  obtain ⟨entry, rest, hblocks⟩ : ∃ entry rest, D.closed ++ [⟨D.id, D.label, b.code, some e⟩] = entry :: rest :=
    List.exists_cons_of_ne_nil (by simp)
  have hids : D.ids = entry.id :: rest.map Block.id := by
    have := congrArg (List.map Block.id) hblocks
    simpa [Sketch.ids] using this
  have hnodup := h.ids
  rw [hp, List.append_nil, hids] at hnodup
  let P : Plan := ⟨F, entry, rest, D.birth, D.mark, D.dead, D.retMark, D.early⟩
  have hle : (D.setting F).Le b.nextRegister (P.setting D.signature D.ret) := by
    refine { Setting.Le.refl b.nextRegister (D.setting F) with enters := fun i m hi => ?_ }
    rcases hi with ⟨hi, hd, hm⟩ | ⟨hi, -⟩
    · rw [hids] at hi
      exact ⟨hi, hd, hm⟩
    · rw [hp] at hi
      cases hi
  refine ⟨P, ⟨D.name, D.params, D.ret, P.blocks, false, false⟩, ?_, rfl, rfl, rfl, ⟨rfl, rfl, rfl, ?_, ?_, ?_, ?_⟩, rfl⟩
  · have hclose := h.closeBlock_terminated e b.nextBlock
    unfold Builder.closeRoutine
    rw [show (b.terminated e).closeBlock = _ from hclose, hblocks]
    simp only [Builder.withPrologue, h.prologue, h.routines]
    rfl
  · exact hnodup
  · have hregs : D.params.map Prod.fst ++ (Routine.instrs ⟨D.name, D.params, D.ret, P.blocks, false, false⟩).filterMap
        Instr.result = D.registers F b := by
      have hflat := congrArg (List.flatMap fun k => k.instrs.filterMap Instr.result) hblocks
      simp only [List.flatMap_append, List.flatMap_cons, List.flatMap_nil, List.append_nil] at hflat
      have hpro := Slot.results_prologue F
      rw [List.filterMap_flatMap] at hpro
      simp only [Routine.instrs, Plan.blocks, P, List.flatMap_cons, List.filterMap_append, hpro, List.filterMap_flatMap,
        Sketch.registers, List.append_assoc, hflat]
    rw [hregs]
    exact h.nodup
  · refine ⟨b.nextRegister, ?_⟩
    have hstart : D.startOf entry.id = Known.ofParams D.params := by
      unfold Sketch.startOf
      rw [hids]
      simp
    have := (hkeeps entry (by rw [hblocks]; simp)).mono hle (Nat.le_refl _)
    rw [hstart] at this
    exact this
  · intro k hk
    refine ⟨b.nextRegister, ?_⟩
    have hstart : D.startOf k.id = P.startOf k := by
      unfold Sketch.startOf
      rw [hids, if_neg]
      · rfl
      · simp only [List.head?_cons, Option.some.injEq]
        intro heq
        exact (List.nodup_cons.1 hnodup).1 (by rw [heq]; exact List.mem_map_of_mem hk)
    have := (hkeeps k (by rw [hblocks]; exact List.mem_cons_of_mem _ hk)).mono hle (Nat.le_refl _)
    rw [hstart] at this
    exact this

end Building

/-! ## The beginning -/

section
variable {ν : Type} [Counter ν]
open Counter (ofNat toNat)

/-- The register that is drawn after so many others. -/
def Builder.drawn (ν : Type) [Counter ν] (k : Nat) : Register := ⟨toNat (ofNat k : ν)⟩

theorem Builder.run_freshParams : ∀ (tys : List MachineType) (b : Builder ν) {n : Nat}, b.nextRegister = ofNat n →
    ∃ ps, (freshParams tys).run b = (ps, { b with nextRegister := ofNat (n + tys.length) }) ∧
      ps.map Prod.snd = tys ∧ ps.map Prod.fst = (List.range' n tys.length).map (drawn ν)
  | [], b, n, h => ⟨[], by rw [List.length_nil, Nat.add_zero, ← h]; rfl, rfl, rfl⟩
  | ty :: tys, b, n, h => by
    have hnext : Counter.next b.nextRegister = ofNat (n + 1) := by rw [h, Counter.next_ofNat]
    obtain ⟨ps, hrun, htys, hregs⟩ := run_freshParams tys { b with nextRegister := Counter.next b.nextRegister } hnext
    have hstep : (freshParams (ty :: tys)).run b =
        ((⟨toNat b.nextRegister⟩, ty) ::
            ((freshParams tys).run { b with nextRegister := Counter.next b.nextRegister }).1,
          ((freshParams tys).run { b with nextRegister := Counter.next b.nextRegister }).2) := rfl
    refine ⟨(⟨toNat b.nextRegister⟩, ty) :: ps, ?_, by simp [htys], ?_⟩
    · rw [hstep, hrun, List.length_cons, Nat.add_assoc, Nat.add_comm 1]
    · rw [List.map_cons, List.length_cons, List.range'_succ, List.map_cons, hregs, h]
      rfl

theorem Builder.startRoutine_eq (name : String) (params : List MachineType) (ret : MachineType) {b : Builder ν} {n : Nat}
    (h : b.nextRegister = ofNat n) : ∃ ps, (startRoutine name params ret).run b = (ps.map Prod.fst,
      { b.closeRoutine with
        nextRegister := ofNat (n + params.length)
        nextBlock := Counter.next b.nextBlock
        signatures := b.signatures.insert name ⟨params, ret, false⟩
        routine := some ⟨name, ps, ret, [], false, false⟩
        block := some ⟨⟨toNat b.nextBlock⟩, "entry", [], none⟩ }) ∧
      ps.map Prod.snd = params ∧ ps.map Prod.fst = (List.range' n params.length).map (drawn ν) := by
  have hclosed : b.closeRoutine.nextRegister = ofNat n := by rw [closeRoutine_eq, h]
  obtain ⟨ps, hrun, htys, hregs⟩ := run_freshParams params b.closeRoutine hclosed
  refine ⟨ps, ?_, htys, hregs⟩
  unfold startRoutine finishRoutine
  simp only [Build.run_bind, Build.run_modify, hrun]
  rw [closeRoutine_eq]
  rfl

end

theorem Builder.run_startRoutine (name : String) (params : List MachineType) (ret : MachineType) (b : Builder) : ∃ ps,
    (Builder.startRoutine name params ret).run b = (ps.map Prod.fst,
      { b.closeRoutine with
        nextRegister := b.closeRoutine.nextRegister + params.length
        nextBlock := b.closeRoutine.nextBlock + 1
        signatures := b.closeRoutine.signatures.insert name ⟨params, ret, false⟩
        routine := some ⟨name, ps, ret, [], false, false⟩
        block := some ⟨⟨b.closeRoutine.nextBlock⟩, "entry", [], none⟩ }) ∧
      ps.map Prod.snd = params ∧ (ps.map Prod.fst).Nodup ∧
      ∀ p ∈ ps, b.closeRoutine.nextRegister ≤ p.1.index ∧ p.1.index < b.closeRoutine.nextRegister + params.length := by
  obtain ⟨ps, hrun, htys, hregs⟩ := startRoutine_eq name params ret (b := b) rfl
  refine ⟨ps, ?_, htys, ?_, fun p hp => ?_⟩
  · rw [hrun, closeRoutine_eq]
    rfl
  · rw [hregs]
    exact (List.nodup_range').map fun _ _ h => congrArg Register.index h
  · have hmem := List.mem_map_of_mem (f := Prod.fst) hp
    rw [hregs, List.mem_map] at hmem
    obtain ⟨k, hk, hkp⟩ := hmem
    rw [← hkp, closeRoutine_eq]
    simpa [drawn] using hk

theorem Builder.closeRoutine_of_none {b : Builder} (hr : b.routine = none) (hb : b.block = none) :
    b.closeRoutine = { b with prologue := [] } := by
  unfold Builder.closeRoutine Builder.closeBlock
  simp only [hb, hr]

def Sketch.start (done : List Routine) (signature : String → Option CallSignature) (name : String)
    (params : List (Register × MachineType)) (ret : MachineType) (id : BlockId) : Sketch :=
  ⟨done, signature, name, params, ret, [], id, "entry", [], [], fun _ => 0, fun _ => 0, 0, 0, false⟩

theorem Known.content_ofParams {params : List (Register × MachineType)} (hn : (params.map Prod.fst).Nodup)
    {p : Register × MachineType} (hp : p ∈ params) :
    (Known.ofParams params).content p.1 = some (if p.2 = .ptr then .argument else .plain p.2) := by
  have hfind : params.find? (fun q => q.1 = p.1) = some p := by
    induction params with
    | nil => cases hp
    | cons q params ih =>
      rcases List.mem_cons.1 hp with rfl | hp
      · simp
      · have hne : q.1 ≠ p.1 := by
          intro he
          rw [List.map_cons, List.nodup_cons, he] at hn
          exact hn.1 (List.mem_map_of_mem hp)
        rw [List.find?_cons_of_neg (by simpa using hne)]
        exact ih (List.nodup_cons.1 hn).2 hp
  simp only [Known.ofParams, hfind, Option.map_some]

theorem Known.settled_ofParams (params : List (Register × MachineType)) : (Known.ofParams params).Settled := by
  refine ⟨fun r hr => ?_, fun _ => rfl⟩
  simp only [Known.ofParams, Option.map_eq_some_iff] at hr
  obtain ⟨p, -, hp⟩ := hr
  split at hp <;> cases hp

theorem Builder.ensures_startRoutine {b : Builder} (hr : b.routine = none) (hb : b.block = none)
    (hcore : ∀ e ∈ External.core, b.signatures.get? e.name = some e.signature) (name : String)
    (hname : name ∉ External.names) (params : List MachineType) (ret : MachineType) :
    Build.Ensures (Builder.startRoutine name params ret) b fun regs b' => ∃ ps id, regs = ps.map Prod.fst ∧
      ps.map Prod.snd = params ∧ (ps.map Prod.fst).Nodup ∧
      Building (Sketch.start b.assembly.routines
        (fun x => if x = name then some ⟨params, ret, false⟩ else b.signatures.get? x) name ps ret id) [] b'
        (Known.ofParams ps) := by
  obtain ⟨ps, hrun, htys, hnodup, hin⟩ := Builder.run_startRoutine name params ret b
  rw [Builder.closeRoutine_of_none hr hb] at hrun hin
  unfold Build.Ensures
  rw [hrun]
  refine ⟨ps, ⟨b.nextBlock⟩, rfl, htys, hnodup, ?_⟩
  have hregs : ∀ r ∈ ps.map Prod.fst, r.index < b.nextRegister + params.length := by
    intro r hr
    obtain ⟨p, hp, rfl⟩ := List.mem_map.1 hr
    exact (hin p hp).2
  refine ⟨rfl, fun x => Table.get?_insert _ _ _ _, fun e he => ?_, rfl, rfl, rfl, ?_, by simp [Sketch.start], ?_, ?_, ?_,
    ?_, ?_, by simp [Sketch.start], Nat.le_refl _, by simp, Nat.le_refl _⟩
  · have hne : e.name ≠ name := by
      rintro rfl
      exact hname (List.mem_map_of_mem (List.mem_append_left _ he))
    simp only [Sketch.start, hne, if_false]
    exact hcore e he
  · show Sketch.startOf _ _ = _
    simp [Sketch.startOf, Sketch.ids, Sketch.start]
  · simpa [Sketch.registers, Sketch.start, Builder.code] using hnodup
  · intro r hr
    refine hregs r ?_
    simpa [Sketch.registers, Sketch.start, Builder.code] using hr
  · intro r hr
    refine ⟨?_, rfl⟩
    simp only [Known.ofParams, Option.map_eq_none_iff, List.find?_eq_none, decide_eq_true_eq]
    rintro p hp rfl
    exact Nat.not_lt.2 hr (hregs _ (List.mem_map_of_mem hp))
  · simp [Sketch.ids, Sketch.start]
  · intro i hi
    obtain rfl : i = ⟨b.nextBlock⟩ := by simpa [Sketch.ids, Sketch.start] using hi
    exact Nat.lt_succ_self _

/-! ## Arguments -/

def Ty.content : Ty → Content
  | .int => .plain .i64
  | .string => .argument

theorem Walking.congr {sc sc' : Scan} {D : Sketch} {s : LowerState} {t : Known} (h : Walking sc D s t)
    (hn : ∀ x, x ∈ sc'.declared ↔ x ∈ sc.declared) (hr : sc'.returned = sc.returned) (he : sc'.early = sc.early) :
    Walking sc' D s t :=
  ⟨⟨h.functions, h.ret, fun x => (hn x).trans (h.declared x), h.early.trans he.symm, fun hd => by
    rw [hr]
    exact h.loop hd⟩, h.building, h.settled, h.dead⟩

theorem Scan.declare_outside (sc : Scan) (name : String) (heap : Bool) :
    (∀ x, x ∈ (sc.declare false name heap).declared ↔ x = name ∨ x ∈ sc.declared) ∧
      (sc.declare false name heap).returned = sc.returned ∧ (sc.declare false name heap).early = sc.early := by
  unfold Scan.declare
  split
  · rename_i hmem
    exact ⟨fun x => ⟨.inr, by rintro (rfl | hx) <;> assumption⟩, rfl, rfl⟩
  · simp

/-- **The arguments are stored in slots**, each text as a copy. -/
theorem ensures_bindParams (ps : List Ident) (tys : List Ty) (rs : List Register) (hps : ps.length = tys.length)
    (hrs : rs.length = tys.length) {sc : Scan} {D : Sketch} {s : LowerState} {t : Known} (h : Walking sc D s t)
    (h0 : s.loopDepth = 0) (hargs : ∀ p ∈ tys.zip rs, t.content p.2 = some p.1.content) :
    Lower.Ensures (Lower.bindParams ps tys rs) s fun _ s' => ∃ D' t' sc', Walks D s sc' D.pending D' s' t' ∧
      (∀ x, x ∈ sc'.declared ↔ x ∈ ps.map Ident.name ∨ x ∈ sc.declared) ∧ sc'.returned = sc.returned ∧
      sc'.early = sc.early := by
  induction ps generalizing tys rs sc D s t with
  | nil => exact .pure ⟨D, t, sc, .refl h, by simp, rfl, rfl⟩
  | cons p ps ih =>
    cases tys with
    | nil => cases hps
    | cons ty tys =>
    cases rs with
    | nil => cases hrs
    | cons r rs =>
    have hr : t.content r = some ty.content := hargs (ty, r) (by simp)
    refine (h.toLinked.ensures_declareSlot h.building p (SlotKind.ofTy ty)).bind ?_
    rintro ⟨slot, redeclared⟩ s₁ ⟨D₁, d, hs, -, hf⟩
    have hfrees : redeclared = true ∨ t.mark ≤ D₁.birth slot.register := by
      simpa [declarationFrees, h0] using hf
    have key : ∀ v : Lowered, v.Typed t → v.owned? = [] →
        Lower.Ensures (do Lower.storeSlot slot v redeclared p; Lower.bindParams ps tys rs) s₁ fun _ s' =>
          ∃ D' t' sc', Walks D s sc' D.pending D' s' t' ∧
            (∀ x, x ∈ sc'.declared ↔ x ∈ (p :: ps).map Ident.name ∨ x ∈ sc.declared) ∧ sc'.returned = sc.returned ∧
            sc'.early = sc.early := by
      intro v hv hown
      refine (d.building.ensures_storeSlot hv (by rw [hown]; exact .of_settled h.settled) hs hfrees p).bind ?_
      rintro _ _ ⟨b₂, rfl, t₂, h₂, hset, hdead, hlast⟩
      have k := d.walks (s := s) h₂ hset (fun hr => by rw [hdead]; exact h.dead hr)
      have hrest : ∀ q ∈ tys.zip rs, t₂.content q.2 = some q.1.content := by
        intro q hq
        refine hlast q.2 _ ?_ (hargs q (List.mem_cons_of_mem _ hq))
        cases q.1 <;> rfl
      refine (ih tys rs (by simpa using hps) (by simpa using hrs) k.walking (k.same.depth.trans h0) hrest).mono ?_
      rintro _ s₃ ⟨D₃, t₃, sc₃, k₃, hn, hret, hearly⟩
      rw [k.pending] at k₃
      have hdecl := sc.declare_outside p.name (SlotKind.ofTy ty).isHeap
      rw [h0] at hn hret hearly
      refine ⟨D₃, t₃, sc₃, k.trans k₃, fun x => ?_, hret.trans hdecl.2.1, hearly.trans hdecl.2.2⟩
      rw [hn x, show x ∈ (Scan.declare sc (decide (0 < 0)) p.name (SlotKind.ofTy ty).isHeap).declared ↔ _ from hdecl.1 x]
      simp only [List.map_cons, List.mem_cons]
      grind
    -- an argument is a number, or it is lent
    cases ty with
    | int => exact key (.int (.register r)) ⟨_, hr, rfl⟩ rfl
    | string => exact key (.text (.borrowed (.register r))) ⟨_, hr, rfl, by simp [Ty.content]⟩ rfl

/-! ## The way out -/

/-- A body that ends without a return returns, unless its end is never reached. -/
theorem Walking.ensures_implicitReturn {sc : Scan} {D : Sketch} {s : LowerState} {t : Known} (h : Walking sc D s t)
    {ty : Ty} (hty : D.ret = ty.machineType) :
    Lower.Ensures (Lower.implicitReturn ty) s fun _ s' => ∃ b t' e, s' = { s with builder := b.terminated e } ∧
      Building D.returning s.frames.current b t' ∧ (D.returning.setting s.frames.current).Ends b.nextRegister t' e := by
  have hb := h.building.returning
  have hold := Known.Holding.of_settled h.settled
  refine (Lower.Ensures.get (Q := fun a s' => a = s ∧ s' = s) ⟨rfl, rfl⟩).bind ?_
  rintro _ _ ⟨rfl, rfl⟩
  rename_i s
  by_cases hdead : s.afterReturn = true
  · rw [if_pos hdead]
    refine (Lower.ensures_terminate .unreachable).mono ?_
    rintro _ _ rfl
    exact ⟨s.builder, t, .unreachable, rfl, hb, .unreachable (h.dead hdead) h.settled⟩
  rw [if_neg hdead]
  refine (Lower.Ensures.bind (P := fun _ s' => ∃ b', s' = { s with builder := b' } ∧ ∃ t',
    Building D.returning s.frames.current b' t' ∧
      Known.Frees ((s.frames.heapSlots none).map Slot.register) t t') ?_ ?_)
  · exact Lower.Ensures.build (s := s) (hb.ensures_freeLocals h.settled.ready none)
  rintro _ _ ⟨b₁, rfl, t₁, h₁, fr⟩
  have hstale : ∀ slot ∈ s.frames.current, slot.kind.isHeap = true → t₁.status slot.register = .stale := by
    intro slot hs hk
    rw [fr.status, if_pos (List.mem_map_of_mem (Frames.mem_heapSlots.2 ⟨hs, hk, by simp⟩))]
  have hempty : ∀ r, t₁.content r ≠ some .owned := fun r hr => h.settled.empty r ((fr.owned r).1 hr)
  cases ty with
  | int =>
    refine (Lower.ensures_terminate (.ret (some (.i64, .int 0)))).mono ?_
    rintro _ _ rfl
    have he := h₁.ends_ret (v := .int 0) (by rw [show D.returning.ret = .i64 from hty]; exact Known.hasType_int _ _)
      (fun hp => by rw [show D.returning.ret = .i64 from hty] at hp; cases hp) (fun r hr => absurd hr (hempty r)) h₁.mark
      (fun _ slot hs hk => .inl (hstale slot hs hk))
    rw [show D.returning.ret = .i64 from hty] at he
    exact ⟨b₁, t₁, _, rfl, h₁, he⟩
  | string =>
    refine (Lower.Ensures.build (h₁.ensures_stringConstant "")).bind ?_
    rintro empty _ ⟨b₂, rfl, w₂⟩
    have hlent : t₁.Lends (.global empty) := trivial
    refine (Lower.Ensures.build (s := { s with builder := b₂ }) (w₂.building.writes_copyText hlent)).bind ?_
    rintro _ _ ⟨b₃, rfl, t₃, r, rfl, w₃⟩
    have hr : t₃.content r = some .owned := (w₃.turns.hand r).2 (.inr (by simp))
    have h₃ := w₃.building
    refine (Lower.ensures_terminate (.ret (some (.ptr, .register r)))).mono ?_
    rintro _ _ rfl
    have he := h₃.ends_ret (v := .register r) (by rw [show D.returning.ret = .ptr from hty]; exact .register hr)
      (fun _ => ⟨r, _, rfl, hr, .inl rfl⟩) (fun x hx => ?_) h₃.mark
      (fun _ slot hs hk => .inl (by rw [w₃.turns.status]; exact hstale slot hs hk))
    · rw [show D.returning.ret = .ptr from hty] at he
      exact ⟨b₃, t₃, _, rfl, h₃, he⟩
    · rcases (w₃.turns.hand x).1 hx with ⟨hx, -⟩ | hx
      · exact absurd hx (hempty x)
      · rw [List.mem_singleton.1 hx]

end QuillLang
