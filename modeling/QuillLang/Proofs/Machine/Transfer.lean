import QuillLang.Proofs.Machine.Perform
/-!
# Control

Jumps, calls and returns keep a machine sound.  A jump leaves nothing in registers, a call begins with what the caller lends,
and a return hands the caller at most one buffer.
-/
namespace QuillLang

/-! ## The head of a block -/

namespace Agrees
variable {a : Assembly} {F : Frame} {birth : Register → Nat} {t : Known} {id : Nat}
  {registers slots : Register → Option Value} {heap heap' : List Buffer}

/-- With no buffer in hand and every slot ready, all the rest may be forgotten. -/
theorem atBlock (h : Agrees a F birth t id registers slots heap) (hs : t.Settled) {mark : Nat} (hm : t.mark ≤ mark)
    (dead : Bool) : Agrees a F birth (Known.atBlock mark dead) id registers slots heap := by
  refine ⟨fun _ _ => rfl, fun r c hr => (by cases hr), fun slot hslot _ => h.address slot hslot ?_,
    fun slot hslot hk _ => h.number slot hslot hk (hs.ready _),
    fun s hheap _ hle => h.vacant s hheap (hs.ready s) (Nat.le_trans hm hle), fun r s hr => (by cases hr),
    fun r s hr => (by cases hr), fun r hr => (by cases hr), ?_⟩
  · rw [hs.ready]
    simp
  · refine h.ledger.congr (fun x => ?_) (fun _ _ => rfl) (fun _ => Iff.rfl)
    cases x with
    | register r => exact ⟨fun hr => (by cases hr), fun hr => absurd hr (hs.empty r)⟩
    | slot s => exact ⟨fun hx => ⟨hx.1, hs.ready s⟩, fun hx => ⟨hx.1, rfl⟩⟩

end Agrees

theorem Machine.arguments_of_find {R : Register × MachineType → Value → Prop} {params : List (Register × MachineType)}
    {vs : List Value} (h : List.Forall₂ R params vs) {x : Register} {q : Register × MachineType}
    (hq : (params.find? fun p => p.1 = x) = some q) : ∃ v, Machine.arguments params vs x = some v ∧ R q v := by
  unfold Machine.arguments
  induction h with
  | nil => cases hq
  | @cons p v params vs hp _ ih =>
    rw [List.find?_cons] at hq
    rw [List.zip_cons_cons, List.find?_cons]
    by_cases hx : p.1 = x
    · simp only [hx, decide_true] at hq ⊢
      cases hq
      exact ⟨v, rfl, hp⟩
    · simp only [hx, decide_false] at hq ⊢
      exact ih hq

theorem Known.content_atEntry {params : List (Register × MachineType)} {F : Frame} {r : Register} {c : Content}
    (h : (Known.atEntry params F).content r = some c) : ∃ q, (params.find? fun p => p.1 = r) = some q ∧
      c.type = q.2 ∧ c = if q.2 = .ptr then .argument else .plain q.2 := by
  obtain ⟨q, hq, rfl⟩ := Option.map_eq_some_iff.1 h
  refine ⟨q, hq, ?_, rfl⟩
  split
  · rename_i hptr
    rw [hptr]
    rfl
  · rfl

theorem Agrees.atEntry {a : Assembly} {F : Frame} {birth : Register → Nat} {id : Nat} {slots : Register → Option Value}
    {heap : List Buffer} {params : List (Register × MachineType)} {vs : List Value}
    (hargs : List.Forall₂ (fun q v => v.type = q.2 ∧ ∀ p, v = .ptr p → LentTo a heap id p) params vs)
    (hapart : ∀ slot ∈ F, ∀ q ∈ params, q.1 ≠ slot.register) (hnone : ∀ b, ¬ Owns heap id b) :
    Agrees a F birth (Known.atEntry params F) id (Machine.arguments params vs) slots heap := by
  have habsent : ∀ s ∈ F.map Slot.register, (Known.atEntry params F).status s = .absent := fun s hs => if_pos hs
  have hheap : ∀ s, F.HasHeap s → (Known.atEntry params F).status s ≠ .ready := by
    rintro s ⟨slot, hslot, rfl, -⟩ hr
    rw [habsent _ (List.mem_map_of_mem hslot)] at hr
    cases hr
  have hcontent : ∀ {r : Register} {c : Content}, (Known.atEntry params F).content r = some c →
      c = .argument ∨ ∃ ty, c = .plain ty := by
    intro r c hr
    obtain ⟨q, -, -, rfl⟩ := Known.content_atEntry hr
    split
    · exact .inl rfl
    · exact .inr ⟨_, rfl⟩
  refine ⟨fun slot hslot => ?_, fun r c hr => ?_, fun slot hslot hp => ?_, fun slot hslot _ hr => ?_,
    fun s hs hr _ => absurd hr (hheap s hs), fun r s hr => ?_, fun r s hr => ?_, fun r hr => ?_, ?_⟩
  · cases hc : (Known.atEntry params F).content slot.register with
    | none => rfl
    | some c =>
      obtain ⟨q, hq, -⟩ := Known.content_atEntry hc
      have hfound := List.find?_some hq
      exact absurd (by simpa using hfound) (hapart slot hslot q (List.mem_of_find?_eq_some hq))
  · obtain ⟨q, hq, hty, -⟩ := Known.content_atEntry hr
    obtain ⟨v, hv, htv, -⟩ := Machine.arguments_of_find hargs hq
    exact ⟨v, hv, htv.trans hty.symm⟩
  · exact absurd (habsent _ (List.mem_map_of_mem hslot)) hp
  · rw [habsent _ (List.mem_map_of_mem hslot)] at hr
    cases hr
  · rcases hcontent hr with hc | ⟨ty, hc⟩ <;> cases hc
  · rcases hcontent hr with hc | ⟨ty, hc⟩ <;> cases hc
  · obtain ⟨q, hq, hty, -⟩ := Known.content_atEntry hr
    obtain ⟨v, hv, htv, hlent⟩ := Machine.arguments_of_find hargs hq
    obtain ⟨p, rfl⟩ := Value.eq_ptr (htv.trans hty.symm)
    exact ⟨p, hv, hlent p rfl⟩
  · have hnot : ∀ x, ¬ (Known.atEntry params F).Holder F x := by
      rintro (r | s) hx
      · rcases hcontent hx with hc | ⟨ty, hc⟩ <;> cases hc
      · exact hheap s hx.1 hx.2
    exact ⟨fun x hx => absurd hx (hnot x), fun x _ _ hx => absurd hx (hnot x), fun b hb => absurd hb (hnone b)⟩

/-! ## Calls -/

namespace Scene
variable {X : Scene} {m : Machine} {w : Answer} {P : Plan} {t : Known} {i : Instr} {is : List Instr}

theorem Plans.slots_apart {r : Routine} (h : X.Plans P r) : ∀ slot ∈ P.frame, ∀ q ∈ r.params, q.1 ≠ slot.register := by
  intro slot hslot q hq
  refine (List.nodup_append.1 h.fits.registers).2.2 q.1 (List.mem_map_of_mem hq) slot.register ?_
  rw [Routine.instrs, h.fits.blocks, Plan.blocks, List.flatMap_cons, List.append_assoc, List.filterMap_append,
    Slot.results_prologue]
  exact List.mem_append_left _ (List.mem_map_of_mem hslot)

theorem Plans.ahead {r : Routine} (h : X.Plans P r) {k : Block} (hk : k ∈ r.blocks) :
    (P.setting X.signature r.ret).Ahead k (P.start r.params k) k.instrs := by
  obtain ⟨u, e, n, he, hsteps, hbound, hends⟩ := h.fits.block hk
  exact ⟨u, e, n, he, hsteps, hbound, hends⟩

/-- **A routine is begun**: everything is as it is known before its first instruction. -/
theorem stands_at_entry {f : Routine} {k : Block} {ks : List Block} {id : Nat} {vs : List Value}
    {slots : Nat → Register → Option Value} {heap : List Buffer} (hf : f ∈ X.assembly.routines) (hP : X.Plans P f)
    (hk : f.blocks = k :: ks)
    (hargs : List.Forall₂ (fun q v => v.type = q.2 ∧ ∀ p, v = .ptr p → LentTo X.assembly heap id p) f.params vs)
    (hnone : ∀ b, ¬ Owns heap id b) :
    X.Stands P (Known.atEntry f.params P.frame) ⟨id, f, k, k.instrs, Machine.arguments f.params vs⟩ slots heap ∧
      (X.setting P ⟨id, f, k, k.instrs, Machine.arguments f.params vs⟩).Ahead k (Known.atEntry f.params P.frame)
        k.instrs := by
  have hmem : k ∈ f.blocks := by
    rw [hk]
    exact List.mem_cons_self
  have hid : k.id = P.entry.id := by
    have hblocks := hP.fits.blocks
    rw [hk, Plan.blocks] at hblocks
    rw [(List.cons.inj hblocks).1]
  have hstart : P.start f.params k = Known.atEntry f.params P.frame := if_pos hid
  refine ⟨⟨hf, hP, hmem, List.suffix_refl _, rfl, .atEntry hargs hP.slots_apart hnone⟩, ?_⟩
  have hahead := hP.ahead hmem
  rw [hstart] at hahead
  exact hahead

/-- **Calls of functions are safe.** -/
theorem Sound.enter_safe (hX : X.Runnable) (h : X.Sound m) (hstands : X.Stands P t m.running m.slots m.heap)
    {callee : String} {sig : CallSignature} {ret : MachineType} {args : List (MachineType × Operand)}
    {variadic : Option (List MachineType)} {r : Register}
    (hrest : m.running.rest = ⟨some r, .call callee ret args variadic⟩ :: is)
    (hahead : (X.setting P m.running).Ahead m.running.block (t.define r (.returned ret)) is)
    (hl : ∀ x ∈ args, X.assembly.Links x.2)
    (hcall : (X.setting P m.running).CallsFunction t callee sig ret args variadic r) :
    Safe (m.perform X.assembly w ⟨some r, .call callee ret args variadic⟩) X.Sound := by
  obtain ⟨hcalls, huser, hfixed, hret, hreadable, hfresh⟩ := hcall
  obtain ⟨f, hf, hfind, htakes, hext⟩ := hX.callee callee sig hcalls.known
  have hint : f.isExternal = false := by
    rw [← Bool.not_eq_true, hext]
    exact huser
  obtain ⟨Q, hQ⟩ := hX.plan f hf hint
  show Safe (m.call X.assembly w (some r) callee ret args) _
  unfold Machine.call
  refine (hstands.agrees.args_safe hcalls.typed hl).bind fun vs hvs => ?_
  simp only [hfind, hint, Bool.false_eq_true, if_false]
  -- the arguments are what the parameters ask for
  have hparams : f.params.map Prod.snd = args.map Prod.fst := by
    rw [htakes.params]
    exact hcalls.fixed.eq_of_length (by rw [List.length_map, hcalls.arity hfixed])
  have hargs : List.Forall₂ (fun q v => v.type = q.2 ∧ ∀ p, v = .ptr p → LentTo X.assembly m.heap m.fresh p)
      f.params vs := by
    have hvalues : List.Forall₂ (fun ty v => v.type = ty ∧ ∀ p, v = .ptr p → LentTo X.assembly m.heap m.fresh p)
        (args.map Prod.fst) vs := by
      rw [List.forall₂_map_left_iff]
      refine ((List.forall₂_and_left (p := (· ∈ args)) args vs).2 ⟨fun x hx => hx, hvs⟩).imp ?_
      rintro x v ⟨hx, heval, hty⟩
      refine ⟨hty, fun p hp => ?_⟩
      have hptr : x.1 = .ptr := by rw [← hty, hp]; rfl
      rw [hptr] at heval
      obtain ⟨q, hq, hlent⟩ := hstands.agrees.lent_of_readable (hreadable x hx hptr) (hl x hx) heval
      cases hp.symm.trans hq
      exact hlent.mono h.fresh
    rw [← hparams, List.forall₂_map_left_iff] at hvalues
    exact hvalues
  obtain ⟨k, ks, hk⟩ : ∃ k ks, f.blocks = k :: ks := ⟨_, _, hQ.fits.blocks⟩
  have henter : m.enter f vs = .ok { m with
      running := ⟨m.fresh, f, k, k.instrs, Machine.arguments f.params vs⟩
      callers := m.running :: m.callers
      fresh := m.fresh + 1 } := by
    simp only [Machine.enter, hk, hargs.length_eq, if_true]
  have hnone : ∀ b, ¬ Owns m.heap m.fresh b := fun b hb => Nat.lt_irrefl _ (h.owners _ _ hb)
  refine .of_eq henter ⟨⟨⟨h.fresh, ?_, h.stacked⟩, Nat.lt_succ_self _, fun o b hb => Nat.lt_succ_of_lt (h.owners o b hb)⟩,
    Q, _, stands_at_entry hf hQ hk hargs hnone⟩
  rw [← htakes.ret.trans hcalls.ret_eq.symm] at hret hahead
  exact ⟨P, t, _, is, r, hstands, hrest, rfl, hfresh, hret, hahead⟩

/-! ## Jumps -/

theorem Stands.exists_target {f : Activation} {slots : Nat → Register → Option Value} {heap : List Buffer}
    (h : X.Stands P t f slots heap) {target : BlockId} {mark : Nat} (henters : P.Enters target mark) :
    ∃ k ∈ f.routine.blocks.tail, (f.routine.blocks.find? fun k => k.id == target) = some k ∧
      (X.setting P f).Ahead k (Known.atBlock (P.mark target) false) k.instrs := by
  obtain ⟨hrest, halive, -⟩ := henters
  obtain ⟨k₀, hk₀, hid₀⟩ := List.mem_map.1 hrest
  have hblocks := h.plan.fits.blocks
  have hids := h.plan.fits.ids
  rw [hblocks, Plan.blocks, List.map_cons, List.nodup_cons] at hids
  have hfound : (f.routine.blocks.find? fun k => k.id == target).isSome = true := by
    rw [List.find?_isSome, hblocks]
    exact ⟨k₀, List.mem_cons_of_mem _ hk₀, by simp [hid₀]⟩
  obtain ⟨k, hk⟩ := Option.isSome_iff_exists.1 hfound
  have hid : k.id = target := by simpa using List.find?_some hk
  have hmem : k ∈ f.routine.blocks := List.mem_of_find?_eq_some hk
  have hne : k.id ≠ P.entry.id := by
    rw [hid]
    rintro rfl
    exact hids.1 hrest
  have hstart : P.start f.routine.params k = Known.atBlock (P.mark target) false := by
    rw [Plan.start, if_neg hne, Plan.startOf, hid, decide_eq_false halive]
  have hahead := h.plan.ahead hmem
  rw [hstart] at hahead
  refine ⟨k, ?_, hk, hahead⟩
  rw [hblocks, Plan.blocks] at hmem ⊢
  rcases List.mem_cons.1 hmem with rfl | hmem
  · exact absurd rfl hne
  · exact hmem

/-- **Jumps are safe.** -/
theorem Sound.goto_safe (h : X.Sound m) (hstands : X.Stands P t m.running m.slots m.heap) (hsettled : t.Settled)
    {target : BlockId} (henters : P.Enters target t.mark) : Safe (m.goto target) X.Sound := by
  obtain ⟨k, hk, hfind, hahead⟩ := hstands.exists_target henters
  have hgoto : m.goto target = .ok { m with running := { m.running with block := k, rest := k.instrs } } := by
    unfold Machine.goto
    rw [hfind]
  refine .of_eq hgoto ⟨⟨?_, h.fresh, h.owners⟩, P, _,
    ⟨hstands.routine, hstands.plan, List.mem_of_mem_tail hk, List.suffix_refl _, rfl, ?_⟩, hahead⟩
  · exact h.stacked.frame rfl rfl (fun _ _ => rfl) fun _ _ _ => Iff.rfl
  · exact hstands.agrees.atBlock hsettled henters.2.2 false

/-! ## Returns -/

theorem owns_handOver {heap : List Buffer} {j o o' c : Nat} {v : Value} (hv : ∀ p, v = .ptr p → OwnedBy heap j p) :
    Owns (Machine.handOver heap o' v) o c ↔
      (Owns heap o c ∧ v ≠ .ptr (.heap c 0)) ∨ (o = o' ∧ v = .ptr (.heap c 0)) := by
  cases v with
  | i1 | i32 | i64 | double => simp [Machine.handOver]
  | ptr p =>
    rcases hv p rfl with rfl | ⟨b, rfl, hb⟩
    · simp [Machine.handOver]
    · rw [Machine.handOver, Owns.modify_iff (f := fun k : Buffer => { k with owner := o' }) (fun _ => rfl) (fun _ => rfl)]
      constructor
      · rintro (⟨hne, ho⟩ | ⟨rfl, rfl, -⟩)
        · exact .inl ⟨ho, by simpa using hne⟩
        · exact .inr ⟨rfl, rfl⟩
      · rintro (⟨ho, hne⟩ | ⟨rfl, he⟩)
        · exact .inl ⟨by simpa using hne, ho⟩
        · cases he
          exact .inr ⟨rfl, rfl, j, hb⟩

theorem not_owns_of_ne {heap : List Buffer} {j o b : Nat} {v : Value} (hv : ∀ p, v = .ptr p → OwnedBy heap j p)
    (ho : o ≠ j) (hb : Owns heap o b) : v ≠ .ptr (.heap b 0) := by
  rintro rfl
  rcases hv _ rfl with hn | ⟨c, hc, hown⟩
  · cases hn
  · cases hc
    exact ho (hb.unique hown)

/-- What a function returns: a number, or null or a buffer of its own. -/
def Returns (m : Machine) (v : Value) : Prop :=
  v.type = m.running.routine.ret ∧ ∀ p, v = .ptr p → OwnedBy m.heap m.running.id p

/-- A caller that gets a value is as it is known to be after the call. -/
theorem Waits.agrees {callee : Routine} {g : Activation} {j : Nat} {v : Value} {r : Register} {Q : Plan} {u : Known}
    {slots : Nat → Register → Option Value} {heap : List Buffer} (hg : X.Stands Q u g slots heap)
    (hfresh : (X.setting Q g).Fresh u r) (hret : callee.ret = .i64 ∨ callee.ret = .ptr) (hv : v.type = callee.ret)
    (hown : ∀ p, v = .ptr p → OwnedBy heap j p) (hlt : g.id < j) :
    Agrees X.assembly Q.frame Q.birth (u.define r (.returned callee.ret)) g.id (override g.registers r v) (slots g.id)
      (Machine.handOver heap g.id v) := by
  rcases hret with hret | hret
  · rw [hret] at hv ⊢
    obtain ⟨n, rfl⟩ := Value.eq_i64 hv
    exact hg.agrees.define (c := .plain .i64) hfresh.content hfresh.slot rfl
  · rw [hret] at hv ⊢
    obtain ⟨p, rfl⟩ := Value.eq_ptr hv
    refine hg.agrees.obtain_buffer hfresh.content hfresh.slot ?_ (fun b => ?_) (fun b he hb => ?_) fun b o ho hb => ?_
    · rcases hown p rfl with rfl | ⟨b, rfl, -⟩
      · exact .inl rfl
      · exact .inr ⟨b, rfl⟩
    · rw [owns_handOver hown]
      constructor
      · rintro (⟨hb, -⟩ | ⟨-, he⟩)
        · exact .inl hb
        · exact .inr (by simpa using he)
      · rintro (hb | rfl)
        · exact .inl ⟨hb, not_owns_of_ne hown (by omega) hb⟩
        · exact .inr ⟨rfl, rfl⟩
    · exact not_owns_of_ne hown (by omega) hb (by rw [he])
    · exact (owns_handOver hown).2 (.inl ⟨hb, not_owns_of_ne hown (by omega) hb⟩)

/-- **Returns are safe.** -/
theorem Sound.leave_safe (h : X.Sound m) {v : Value} (hv : Returns m v) : Safe (m.leave v) X.Sound := by
  obtain ⟨hty, hown⟩ := hv
  have hstacked := h.stacked
  unfold Machine.leave
  cases hcallers : m.callers with
  | nil =>
    rw [hcallers] at hstacked
    rw [show m.running.routine.ret = .i32 from hstacked] at hty
    obtain ⟨n, rfl⟩ := Value.eq_i32 hty
    trivial
  | cons g gs =>
    rw [hcallers] at hstacked
    obtain ⟨hlt, ⟨Q, u, i, is, r, hg, hrest, hresult, hfresh, hret, hahead⟩, hstacked⟩ := hstacked
    have hagrees := Waits.agrees hg hfresh hret hty hown hlt
    let m₀ : Machine := { m with running := g, callers := gs }
    let m₁ : Machine := { m₀ with heap := Machine.handOver m.heap g.id v }
    have hnested : X.Nested m₀ := ⟨hstacked, Nat.lt_trans hlt h.fresh, h.owners⟩
    have hmoved : ∀ o b, o ≠ g.id → Owns m₁.heap o b → Owns m.heap o b := by
      intro o b ho hb
      rcases (owns_handOver hown).1 hb with ⟨hb, -⟩ | ⟨he, -⟩
      · exact hb
      · exact absurd he ho
    have hbeside : m₀.Beside m₁ := by
      refine ⟨rfl, rfl, rfl, fun _ _ => rfl, fun o b ho => ⟨hmoved o b (Nat.ne_of_lt ho), fun hb => ?_⟩, hmoved⟩
      have ho : o < g.id := ho
      exact (owns_handOver hown).2 (.inl ⟨hb, not_owns_of_ne hown (by omega) hb⟩)
    simp only [hrest, hresult]
    exact hnested.finish hg hrest hbeside (some r) v hahead hg.alive hagrees

end Scene
end QuillLang
