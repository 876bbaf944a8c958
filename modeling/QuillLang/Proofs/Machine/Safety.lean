import QuillLang.Proofs.Machine.Transfer
/-!
# Runs are safe

Every step of a sound machine is safe and leads to a sound machine, and the machine at the start is sound.  So no run of any
length gives back what is not live, uses what is gone, or gets stuck (`Scene.Runnable.run_safe`).
-/
namespace QuillLang
namespace Scene
variable {X : Scene} {m : Machine} {w : Answer} {P : Plan} {t : Known}

/-! ## One step -/

theorem Stands.links (hX : X.Runnable) {slots : Nat → Register → Option Value} {heap : List Buffer} {f : Activation}
    {i : Instr} {is : List Instr} (h : X.Stands P t f slots heap) (hrest : f.rest = i :: is) :
    ∀ v ∈ i.operation.operands, X.assembly.Links v := by
  have hi : i ∈ f.block.instrs := h.rest.subset (by rw [hrest]; exact List.mem_cons_self)
  exact hX.linked f.routine h.routine i (List.mem_flatMap.2 ⟨f.block, h.block, hi⟩)

theorem Sound.perform_safe (hX : X.Runnable) (h : X.Sound m) {i : Instr} {is : List Instr}
    (hrest : m.running.rest = i :: is) : Safe (m.perform X.assembly w i) X.Sound := by
  obtain ⟨P, t, hstands, hahead⟩ := h.running
  rw [hrest] at hahead
  obtain ⟨t', hstep, hahead⟩ := hahead.next
  have hl := hstands.links hX hrest
  have his : m.Is X.assembly (X.setting P m.running) t := hstands.agrees
  refine Machine.perform_safe his hstands.plan.fits.slots_nodup hl (fun name sig hs hn => ?_) hstep
    (fun m' halive hdid => ?_) ?_
  · obtain ⟨f, -, hf, -, hext⟩ := hX.callee name sig hs
    exact ⟨f, hf, hext.2 hn⟩
  · obtain ⟨m₁, v, rfl, hm₁, hagrees⟩ := hdid
    exact h.toNested.finish hstands hrest hm₁ i.result v hahead (halive.trans hstands.alive) hagrees
  · rintro callee sig ret args variadic r rfl rfl hcall
    exact h.enter_safe hX hstands hrest hahead (fun x hx => hl x.2 (List.mem_map_of_mem hx)) hcall

/-- What is returned is of the type of the routine, and a pointer is null or a buffer of its own. -/
theorem Stands.returns (hstands : X.Stands P t m.running m.slots m.heap) {v : Operand}
    (hv : t.HasType v m.running.routine.ret)
    (hhands : m.running.routine.ret = .ptr →
      ∃ r c, v = .register r ∧ t.content r = some c ∧ (c = .owned ∨ ∃ s, c = .view s)) :
    ∃ x, m.eval X.assembly m.running.routine.ret v = .ok x ∧ Returns m x := by
  have hl : X.assembly.Links v := by
    rintro g rfl
    obtain ⟨r, c, hr, -⟩ := hhands hv
    cases hr
  obtain ⟨x, hx, hty⟩ := hstands.agrees.eval_ok hv hl
  refine ⟨x, hx, hty, ?_⟩
  rintro p rfl
  obtain ⟨r, c, rfl, hc, hcase⟩ := hhands hty.symm
  have hr := Machine.register_of_eval hx
  rcases hcase with rfl | ⟨s, rfl⟩
  · obtain ⟨q, hq, hown⟩ := hstands.agrees.owned_value hc
    cases hr.symm.trans hq
    exact hown
  · obtain ⟨q, hq, -, hown⟩ := hstands.agrees.view_value hc
    cases hr.symm.trans hq
    exact hown

theorem Sound.conclude_safe (h : X.Sound m) (hrest : m.running.rest = []) : Safe (m.conclude X.assembly) X.Sound := by
  obtain ⟨P, t, hstands, hahead⟩ := h.running
  rw [hrest] at hahead
  obtain ⟨e, n, he, -, hends⟩ := hahead.ends
  unfold Machine.conclude
  rw [he]
  cases hends with
  | br hsettled henters => exact h.goto_safe hstands hsettled henters
  | @condBr cond yes no htest hsettled hyes hno =>
    have hl : X.assembly.Links cond := by
      rintro g rfl
      cases htest
    obtain ⟨x, hx, hty⟩ := hstands.agrees.eval_ok htest hl
    obtain ⟨b, rfl⟩ := Value.eq_i1 hty
    simp only [hx]
    cases b with
    | true => exact h.goto_safe hstands hsettled hyes
    | false => exact h.goto_safe hstands hsettled hno
  | ret hvalue hhands =>
    obtain ⟨x, hx, hreturns⟩ := hstands.returns hvalue hhands
    show Safe (m.eval X.assembly m.running.routine.ret _ >>= fun v => m.leave v) _
    rw [hx]
    exact h.leave_safe hreturns
  | unreachable hdead =>
    rw [hstands.alive] at hdead
    cases hdead

/-- **Steps are safe.** -/
theorem Sound.step_safe (hX : X.Runnable) (h : X.Sound m) : Safe (m.step X.assembly w) X.Sound := by
  unfold Machine.step
  cases hrest : m.running.rest with
  | nil => exact h.conclude_safe hrest
  | cons i is => exact h.perform_safe hX hrest

/-! ## Runs -/

theorem Runnable.start_safe (hX : X.Runnable) : Safe X.assembly.start X.Sound := by
  obtain ⟨f, hf, hfind, hint, hparams, hret⟩ := hX.main
  obtain ⟨P, hP⟩ := hX.plan f hf hint
  obtain ⟨k, ks, hk⟩ : ∃ k ks, f.blocks = k :: ks := ⟨_, _, hP.fits.blocks⟩
  have hstart : X.assembly.start =
      .ok ⟨⟨0, f, k, k.instrs, Machine.arguments f.params []⟩, [], [], fun _ _ => none, 1, []⟩ := by
    unfold Assembly.start
    rw [hfind, hparams]
    simp only [hk]
    rfl
  have hnone : ∀ o b, ¬ Owns [] o b := by
    rintro o b ⟨k, hk, -⟩
    cases hk
  have hargs : List.Forall₂ (fun q (v : Value) => v.type = q.2 ∧ ∀ p, v = .ptr p → LentTo X.assembly [] 0 p)
      f.params [] := by
    rw [hparams]
    exact .nil
  exact .of_eq hstart ⟨⟨hret, Nat.zero_lt_one, fun o b hb => absurd hb (hnone o b)⟩, P, _,
    stands_at_entry hf hP hk hargs (hnone 0)⟩

theorem Runnable.steps_safe (hX : X.Runnable) : ∀ (ws : List Answer) {m : Machine}, X.Sound m →
    Safe (ws.foldlM (fun m w => m.step X.assembly w) m) X.Sound
  | [], _, h => h
  | w :: ws, m, h => by
    rw [List.foldlM_cons]
    exact (h.step_safe hX).bind fun _ h' => hX.steps_safe ws h'

/-- **Runs are safe**: a run goes on, ends, or stops at null or outside an array. -/
theorem Runnable.run_safe (hX : X.Runnable) (ws : List Answer) : Safe (X.assembly.run ws) X.Sound :=
  hX.start_safe.bind fun _ h => hX.steps_safe ws h

end Scene
end QuillLang
