import Mathlib.Data.List.Induction
import QuillLang.Proofs.Filled.Firm
/-!
# Runs that fill before they read

Of a run it can be said which slots each activation has filled so far (`Assembly.Filled`).  In a run that fills every slot
before it reads it (`Assembly.FillsFirst`) a step leads from one firm machine to the next (`Scene.Sound.step_firm`), and so
the run never stops at null (`Scene.Runnable.run_firm`).
-/
namespace QuillLang

theorem Routine.EmptiesFirst.ahead {r : Routine} (h : r.EmptiesFirst) {k : Block} (hk : k ∈ r.blocks) {i : Instr}
    {is : List Instr} (hsuffix : i :: is <:+ k.instrs) (hi : i.fills? ≠ none) : ∀ j ∈ is, j.empties? = none := by
  obtain ⟨before, hbefore⟩ := hsuffix
  obtain ⟨entry, rest, hblocks⟩ := List.exists_cons_of_ne_nil (List.ne_nil_of_mem hk)
  obtain ⟨hentry, hrest⟩ := h
  rw [hblocks] at hk hentry hrest
  rcases List.mem_cons.1 hk with rfl | hk
  · obtain ⟨head, code, hcode, hhead, hnone⟩ := hentry k rfl
    rw [hcode] at hbefore
    intro j hj
    rcases List.append_eq_append_iff.1 hbefore with ⟨more, rfl, hmore⟩ | ⟨more, -, hmore⟩
    · cases more with
      | nil => exact hnone j (by rw [← List.nil_append code, ← hmore]; exact List.mem_cons_of_mem i hj)
      | cons x more =>
        cases hmore
        exact absurd (hhead i (by simp)) hi
    · exact hnone j (by simp [hmore, hj])
  · exact fun j hj => hrest k hk j (hbefore ▸ by simp [hj])

namespace Scene
variable {X : Scene} {m : Machine} {w : Answer} {P : Plan} {t t' : Known} {i : Instr} {is : List Instr}
  {filled : Nat → Register → Prop}

theorem Stacked.below {slots : Nat → Register → Option Value} {heap : List Buffer} : ∀ {gs : List Activation}
    {f : Activation}, X.Stacked slots heap f gs → ∀ g ∈ gs, g.id < f.id
  | [], _, _ => by simp
  | g :: gs, f, ⟨hlt, _, hstacked⟩ => by
    intro g' hg'
    rcases List.mem_cons.1 hg' with rfl | hg'
    · exact hlt
    · exact Nat.lt_trans (hstacked.below g' hg') hlt

structure Before (X : Scene) (P : Plan) (t : Known) (m : Machine) (filled : Nat → Register → Prop) (i : Instr)
    (is : List Instr) (t' : Known) : Prop where
  stands : X.Stands P t m.running m.slots m.heap
  rest : m.running.rest = i :: is
  ahead : (X.setting P m.running).Ahead m.running.block t' is
  below : ∀ f ∈ m.callers, f.id < m.running.id
  fresh : m.running.id < m.fresh
  firm : m.Firm filled

namespace Before

theorem fills?_eq (h : X.Before P t m filled i is t') : m.fills? = i.fills? := by
  unfold Machine.fills?
  rw [h.rest]
  rfl

theorem filledAfter (h : X.Before P t m filled i is t') (hnone : i.fills? = none) {m' : Machine} (hm' : m'.Firm filled) :
    m'.Firm (m.filledAfter filled) := hm'.filledAfter (h.fills?_eq.trans hnone)

theorem finish (h : X.Before P t m filled i is t') (hnone : i.fills? = none) {m₁ : Machine} (hm₁ : m.SameStack m₁)
    {v : Value} (hv : ∀ r, i.result = some r → m.running.block.handsOn r is = true → v ≠ .ptr .null) :
    (m₁.finish i.result v).Firm (m.filledAfter filled) := by
  have hrest : m₁.running.rest = i :: is := by
    rw [hm₁.running]
    exact h.rest
  refine h.filledAfter hnone ((h.firm.sameStack hm₁).finish hrest ?_)
  rw [hm₁.running]
  exact hv

theorem not_handsOn (h : X.Before P t m filled i is t') {r : Register}
    (hr : ∀ c, t'.content r = some c → c.isText = false) : m.running.block.handsOn r is ≠ true := by
  intro hhands
  obtain ⟨c, hc, htext⟩ := h.ahead.text_of_handsOn hhands
  rw [hr c hc] at htext
  cases htext

theorem computes (h : X.Before P t m filled i is t') (hstore : ∀ ty value address, i.operation ≠ .store ty value address)
    (hcall : ∀ callee ret args variadic, i.operation ≠ .call callee ret args variadic)
    (hr : ∀ r, i.result = some r → ∀ c, t'.content r = some c → c.isText = false) :
    Clear (m.perform X.assembly w i) fun m' => m'.Firm (m.filledAfter filled) := by
  refine (Machine.perform_clear hstore hcall).mono ?_
  rintro _ ⟨v, rfl⟩
  refine h.finish ?_ (.refl m) fun r hi hhands => absurd hhands (h.not_handsOn (hr r hi))
  unfold Instr.fills?
  split
  · rename_i hop
    exact absurd hop (hstore _ _ _)
  · rfl

theorem store {slot : Slot} {ty : MachineType} {value : Operand} {x : Value}
    (h : X.Before P t m filled ⟨none, .store ty value (.register slot.register)⟩ is t') (hmem : slot ∈ P.frame)
    (hpresent : t.status slot.register ≠ .absent) (hvalue : m.eval X.assembly ty value = .ok x)
    (hnone : (Instr.mk none (.store ty value (.register slot.register))).fills? = none)
    (hempties : ∀ p, x = .ptr p →
      p = .null ∧ (Instr.mk none (.store ty value (.register slot.register))).empties? = some slot.register) :
    Clear (m.perform X.assembly w ⟨none, .store ty value (.register slot.register)⟩) fun m' =>
      m'.Firm (m.filledAfter filled) := by
  refine .of_eq (Machine.perform_store_slot (h.stands.agrees.address slot hmem hpresent) hvalue) ?_
  have hstored := h.firm.setSlot h.below
    (fun hx => h.firm.running.ahead _ (h.rest ▸ List.mem_cons_self) _ (hempties _ hx).2) fun p hp => (hempties p hp).1
  exact h.filledAfter hnone (hstored.finish h.rest fun r hr => by cases hr)

theorem store_owned {slot : Slot} {r : Register} {q : Pointer}
    (h : X.Before P t m filled ⟨none, .store .ptr (.register r) (.register slot.register)⟩ is t')
    (hempties : m.running.routine.EmptiesFirst) (hmem : slot ∈ P.frame) (hpresent : t.status slot.register ≠ .absent)
    (hr : m.running.registers r = some (.ptr q)) :
    Clear (m.perform X.assembly w ⟨none, .store .ptr (.register r) (.register slot.register)⟩) fun m' =>
      m'.Firm (m.filledAfter filled) := by
  refine .of_eq (Machine.perform_store_slot (h.stands.agrees.address slot hmem hpresent) (Machine.eval_register hr)) ?_
  have hne : Value.ptr q ≠ .ptr .null := by
    intro hq
    refine h.firm.running.handed r ?_ (hr.trans (congrArg some hq))
    rw [h.rest, Block.handsOn]
    simp [Instr.handsOn]
  have hahead : ∀ j ∈ m.running.rest, j.empties? ≠ some slot.register := by
    have hsuffix := h.stands.rest
    rw [h.rest] at hsuffix ⊢
    intro j hj
    rcases List.mem_cons.1 hj with rfl | hj
    · simp [Instr.empties?]
    · rw [hempties.ahead h.stands.block hsuffix (by simp [Instr.fills?]) j hj]
      simp
  refine ((h.firm.fill h.below h.fresh hne hahead).finish h.rest fun r hr => by cases hr).congr fun id s => ?_
  rw [Machine.filledAfter, h.fills?_eq]
  simp [Instr.fills?]

theorem args_clear {callee : String} {ret : MachineType} {args : List (MachineType × Operand)}
    {variadic : Option (List MachineType)} {result : Option Register}
    (h : X.Before P t m filled ⟨result, .call callee ret args variadic⟩ is t') (hfree : callee ≠ "free")
    (hreadable : ∀ x ∈ args, x.1 = .ptr → t.Readable x.2) :
    Clear (args.mapM fun x => m.eval X.assembly x.1 x.2) fun vs => .ptr .null ∉ vs := by
  refine (Clear.mapM fun x _ => Machine.eval_clear X.assembly m x.1 x.2).mono fun vs hvs hnull => ?_
  obtain ⟨⟨ty, v⟩, hx, hnull⟩ := hvs _ hnull
  obtain ⟨rfl, hv⟩ := hnull rfl
  have hv : v = .null ∨ ∃ r, v = .register r ∧ m.running.registers r = some (.ptr .null) := hv
  rcases hv with rfl | ⟨r, rfl, hr⟩
  · exact hreadable _ hx rfl
  · refine h.firm.running.handed r ?_ hr
    rw [h.rest, Block.handsOn]
    simp [Instr.handsOn, hfree, hx]

theorem free {r : Register} {q : Pointer} {f : Routine}
    (h : X.Before P t m filled ⟨none, .call "free" .void [(.ptr, .register r)] none⟩ is t')
    (hf : X.assembly.routine? "free" = some f) (hext : f.isExternal = true) (hr : m.running.registers r = some (.ptr q))
    (hown : OwnedBy m.heap m.running.id q) :
    Clear (m.perform X.assembly w ⟨none, .call "free" .void [(.ptr, .register r)] none⟩) fun m' =>
      m'.Firm (m.filledAfter filled) := by
  obtain ⟨m₁, heq, hm₁, hslots, -⟩ := Machine.free_call_ok (w := w) hf hext hr hown
  exact .of_eq heq (h.finish rfl ⟨hm₁.running, hm₁.callers, hslots, hm₁.fresh⟩ fun r hr => by cases hr)

theorem library {callee : String} {ret : MachineType} {args : List (MachineType × Operand)}
    {variadic : Option (List MachineType)} {result : Option Register} {f : Routine}
    (h : X.Before P t m filled ⟨result, .call callee ret args variadic⟩ is (t.receive result (.plain ret)))
    (hf : X.assembly.routine? callee = some f) (hext : f.isExternal = true) (hother : callee ∉ ["malloc", "free", "exit"])
    (hreadable : ∀ x ∈ args, x.1 = .ptr → t.Readable x.2) :
    Clear (m.perform X.assembly w ⟨result, .call callee ret args variadic⟩) fun m' =>
      m'.Firm (m.filledAfter filled) := by
  obtain ⟨hmalloc, hfree, hexit⟩ : callee ≠ "malloc" ∧ callee ≠ "free" ∧ callee ≠ "exit" := by simpa using hother
  show Clear (m.call X.assembly w result callee ret args) _
  rw [Machine.call_external hf hext]
  refine (h.args_clear hfree hreadable).bind fun vs hvs => ?_
  unfold Machine.callExternal
  rw [if_neg hmalloc, if_neg hfree, if_neg hexit]
  refine (Machine.callLibrary_clear hvs).bind fun x hx => ?_
  refine h.finish rfl hx fun r hr hhands => absurd hhands (h.not_handsOn fun c hc => ?_)
  obtain rfl : result = some r := hr
  rcases Agrees.content_define_cases hc with ⟨-, rfl⟩ | ⟨hne, -⟩
  · rfl
  · exact absurd rfl hne

/-- A routine is begun.  What it gets is not null, and it has filled no slot. -/
theorem enter {callee : String} {ret : MachineType} {args : List (MachineType × Operand)}
    {variadic : Option (List MachineType)} {result : Option Register} {f : Routine}
    (h : X.Before P t m filled ⟨result, .call callee ret args variadic⟩ is t')
    (hf : X.assembly.routine? callee = some f) (hint : f.isExternal = false) (hfree : callee ≠ "free")
    (hreadable : ∀ x ∈ args, x.1 = .ptr → t.Readable x.2) :
    Clear (m.perform X.assembly w ⟨result, .call callee ret args variadic⟩) fun m' =>
      m'.Firm (m.filledAfter filled) := by
  show Clear (m.call X.assembly w result callee ret args) _
  unfold Machine.call
  refine (h.args_clear hfree hreadable).bind fun vs hvs => ?_
  simp only [hf, hint, Bool.false_eq_true, if_false]
  unfold Machine.enter
  split
  · exact .stuck
  split
  · have hunfilled : ∀ s, ¬ filled m.fresh s := fun s hs => Nat.lt_irrefl _ (h.firm.fresh _ _ hs)
    refine h.filledAfter rfl ⟨⟨fun r _ hr => ?_, fun s hs => absurd hs (hunfilled s), fun _ _ s _ => hunfilled s⟩, ?_,
      fun id s hs => Nat.lt_succ_of_lt (h.firm.fresh id s hs), h.firm.empty⟩
    · obtain ⟨p, hp, hv⟩ := Option.map_eq_some_iff.1 hr
      exact hvs (hv ▸ (List.of_mem_zip (List.mem_of_find?_eq_some hp)).2)
    · intro g hg
      rcases List.mem_cons.1 hg with rfl | hg
      · exact h.firm.running
      · exact h.firm.callers g hg
  · exact .stuck

end Before

/-- **An instruction keeps a machine firm** and does not stop at null, if what it reads was filled. -/
theorem Sound.perform_firm (hX : X.Runnable) (hempties : ∀ r ∈ X.assembly.routines, r.EmptiesFirst) (h : X.Sound m)
    (hfirm : m.Firm filled) (hreads : ∀ s, m.reads? = some s → filled m.running.id s)
    (hrest : m.running.rest = i :: is) :
    Clear (m.perform X.assembly w i) fun m' => m'.Firm (m.filledAfter filled) := by
  obtain ⟨P, t, hstands, hahead⟩ := h.running
  rw [hrest] at hahead
  obtain ⟨t', hstep, hahead⟩ := hahead.next
  have hl := hstands.links hX hrest
  have hagrees := hstands.agrees
  have hbefore : X.Before P t m filled i is t' := ⟨hstands, hrest, hahead, h.stacked.below, h.fresh, hfirm⟩
  have hdefined : ∀ {r : Register} {c : Content}, c.isText = false → ∀ x, some r = some x →
      ∀ d, (t.define r c).content x = some d → d.isText = false := by
    rintro r c hc _ ⟨⟩ d hd
    rcases Agrees.content_define_cases hd with ⟨-, rfl⟩ | ⟨hne, -⟩
    · exact hc
    · exact absurd rfl hne
  have hexternal : ∀ name sig, X.signature name = some sig → name ∈ External.names →
      ∃ f, X.assembly.routine? name = some f ∧ f.isExternal = true := by
    intro name sig hs hn
    obtain ⟨f, -, hf, -, hext⟩ := hX.callee name sig hs
    exact ⟨f, hf, hext.2 hn⟩
  cases hstep with
  | @alloca slot hmem habsent =>
    refine hbefore.computes (by simp) (by simp) ?_
    rintro _ ⟨⟩ c hc
    rw [Known.content_setStatus, hagrees.apart slot hmem] at hc
    cases hc
  | loadNumber | element | loadCell | arith | compare | cast =>
    exact hbefore.computes (by simp) (by simp) (hdefined rfl)
  | @storeNumber slot v hmem hkind hpresent hvalue =>
    obtain ⟨n, hn, -⟩ := hagrees.number_ok hvalue (hl v (by simp [Operation.operands]))
    exact hbefore.store hmem hpresent hn rfl fun p hp => by cases hp
  | @storeNull slot hmem hheap hstale =>
    exact hbefore.store hmem (by simp [hstale]) rfl rfl fun p hp => ⟨(Value.ptr.inj hp).symm, rfl⟩
  | @storeOwned slot r hmem hheap howned hvacant =>
    obtain ⟨p, hp, -⟩ := hagrees.owned_value howned
    have hpresent : t.status slot.register ≠ .absent := by
      rcases hvacant with hs | ⟨hs, -⟩ <;> rw [hs] <;> simp
    exact hbefore.store_owned (hempties _ hstands.routine) hmem hpresent hp
  | @loadPointer slot r hmem hheap hready hfresh =>
    obtain ⟨p, hslot, -⟩ := hagrees.ledger.owned (.slot slot.register) ⟨⟨slot, hmem, rfl, hheap⟩, hready⟩
    have hslot : m.slots m.running.id slot.register = some (.ptr p) := hslot
    refine .of_eq (Machine.perform_load_slot (hagrees.address slot hmem (by simp [hready])) hslot) ?_
    refine hbefore.finish rfl (.refl m) ?_
    rintro _ ⟨⟩ hhands hp
    have hread : m.reads? = some slot.register := by
      unfold Machine.reads?
      simp [hrest, hhands]
    exact hfirm.running.slots _ (hreads _ hread) (hslot.trans (congrArg some hp))
  | @storeCell s address v hcell hvalue =>
    obtain ⟨p, n, haddress, hown⟩ := hagrees.cell_value hcell
    obtain ⟨x, hx, -⟩ := hagrees.number_ok hvalue (hl v (by simp [Operation.operands]))
    have hp : ∀ id r, p.element n ≠ .slot id r := by
      rcases hown with rfl | ⟨b, rfl, -⟩ <;> simp [Pointer.element]
    unfold Machine.perform
    simp only [hx, Machine.pointer_register haddress]
    exact (Machine.write_clear hp _).bind fun m₁ hm₁ => hbefore.finish rfl hm₁ fun r hr => by cases hr
  | @malloc size r hknown hvalue hfresh =>
    obtain ⟨f, hf, hext⟩ := hexternal _ _ hknown (by decide)
    obtain ⟨n, hn, -⟩ := hagrees.number_ok hvalue (hl size (by simp [Operation.operands]))
    show Clear (m.call X.assembly w (some r) "malloc" .ptr [((Value.i64 n).type, size)]) _
    rw [Machine.call_external_one hf hext hn]
    have hstack : m.SameStack (m.malloc w n).1 := ⟨rfl, rfl, rfl, rfl⟩
    exact hbefore.finish rfl hstack fun _ _ _ hnull => by cases hnull
  | @freeOwned r hknown howned =>
    obtain ⟨f, hf, hext⟩ := hexternal _ _ hknown (by decide)
    obtain ⟨p, hp, hown⟩ := hagrees.owned_value howned
    exact hbefore.free hf hext hp hown
  | @freeView slot r hknown hmem hheap hready hview =>
    obtain ⟨f, hf, hext⟩ := hexternal _ _ hknown (by decide)
    obtain ⟨p, hp, -, hown⟩ := hagrees.view_value hview
    exact hbefore.free hf hext hp hown
  | @exit status hknown hvalue =>
    obtain ⟨f, hf, hext⟩ := hexternal _ _ hknown (by decide)
    obtain ⟨x, hx, hxty⟩ := hagrees.eval_ok hvalue (hl status (by simp [Operation.operands]))
    obtain ⟨n, rfl⟩ := Value.eq_i32 hxty
    show Clear (m.call X.assembly w none "exit" .void [((Value.i32 n).type, status)]) _
    rw [Machine.call_external_one hf hext hx]
    exact fun he => by cases he
  | @external callee sig ret args variadic result hcalls hmem hother hwrites hreadable hgives =>
    obtain ⟨f, hf, hext⟩ := hexternal _ _ hcalls.known (List.mem_map_of_mem (f := External.name) hmem)
    exact hbefore.library hf hext hother hreadable
  | @function callee sig ret args variadic r hcalls huser hfixed hret hreadable hfresh =>
    obtain ⟨f, -, hf, -, hext⟩ := hX.callee callee sig hcalls.known
    have hint : f.isExternal = false := by
      rw [← Bool.not_eq_true, hext]
      exact huser
    refine hbefore.enter hf hint ?_ hreadable
    rintro rfl
    exact huser (by decide)

/-! ## Jumps and returns -/

/-- A block that control goes to hands on nothing from before it, and empties nothing. -/
theorem Stands.goto_firm (hempties : m.running.routine.EmptiesFirst) (hstands : X.Stands P t m.running m.slots m.heap)
    (hfirm : m.Firm filled) {target : BlockId} {mark : Nat} (henters : P.Enters target mark) :
    Clear (m.goto target) fun m' => m'.Firm filled := by
  obtain ⟨k, hk, hfind, hahead⟩ := hstands.exists_target henters
  unfold Machine.goto
  rw [hfind]
  refine ⟨⟨fun r hr => ?_, hfirm.running.slots, fun i hi s hs => ?_⟩, hfirm.callers, hfirm.fresh, hfirm.empty⟩
  · obtain ⟨c, hc, -⟩ := hahead.text_of_handsOn hr
    cases hc
  · rw [hempties.rest k hk i hi] at hs
    cases hs

theorem leave_firm (hfirm : m.Firm filled) {v : Value} (hv : v ≠ .ptr .null) :
    Clear (m.leave v) fun m' => m'.Firm filled := by
  have hcallers := hfirm.callers
  unfold Machine.leave
  split
  · split
    · exact fun he => by cases he
    · exact .stuck
  · rename_i f fs hfs
    rw [hfs] at hcallers
    split
    · exact .stuck
    · rename_i i is hi
      exact Machine.Firm.finish ⟨hcallers f List.mem_cons_self, fun g hg => hcallers g (List.mem_cons_of_mem f hg),
        hfirm.fresh, hfirm.empty⟩ hi fun _ _ _ => hv

/-- **The end of a block keeps a machine firm**, and does not stop at null. -/
theorem Sound.conclude_firm (hempties : ∀ r ∈ X.assembly.routines, r.EmptiesFirst) (h : X.Sound m)
    (hfirm : m.Firm filled) (hrest : m.running.rest = []) :
    Clear (m.conclude X.assembly) fun m' => m'.Firm filled := by
  obtain ⟨P, t, hstands, hahead⟩ := h.running
  rw [hrest] at hahead
  have hroutine := hempties _ hstands.routine
  obtain ⟨e, n, he, -, hends⟩ := hahead.ends
  unfold Machine.conclude
  rw [he]
  cases hends with
  | br hsettled henters => exact hstands.goto_firm hroutine hfirm henters
  | @condBr cond yes no htest hsettled hyes hno =>
    refine (Machine.eval_clear _ _ _ _).bind fun x _ => ?_
    split
    · split
      · exact hstands.goto_firm hroutine hfirm hyes
      · exact hstands.goto_firm hroutine hfirm hno
    · exact .stuck
  | @ret v hvalue hhands =>
    refine (Machine.eval_clear X.assembly m _ v).bind fun x hx => leave_firm hfirm fun hnull => ?_
    obtain ⟨hptr, hv⟩ := hx hnull
    obtain ⟨r, c, rfl, -⟩ := hhands hptr
    obtain ⟨_, hr, hr'⟩ := hv.resolve_left (by simp)
    cases hr
    refine hfirm.running.handed r ?_ hr'
    rw [hrest, Block.handsOn, he, hptr]
    simp
  | unreachable => exact .stuck

/-- **A step keeps a machine firm** and does not stop at null, if what it reads was filled. -/
theorem Sound.step_firm (hX : X.Runnable) (hempties : ∀ r ∈ X.assembly.routines, r.EmptiesFirst) (h : X.Sound m)
    (hfirm : m.Firm filled) (hreads : ∀ s, m.reads? = some s → filled m.running.id s) :
    Clear (m.step X.assembly w) fun m' => m'.Firm (m.filledAfter filled) := by
  unfold Machine.step
  cases hrest : m.running.rest with
  | nil =>
    refine (h.conclude_firm hempties hfirm hrest).mono fun m' hm' => hm'.filledAfter ?_
    rw [Machine.fills?, hrest]
    rfl
  | cons i is => exact h.perform_firm hX hempties hfirm hreads hrest

end Scene

/-! ## Whole runs -/

namespace Assembly
variable {a : Assembly} {ws : List Answer} {w : Answer} {m : Machine}

theorem run_append (a : Assembly) (ws : List Answer) (w : Answer) :
    a.run (ws ++ [w]) = a.run ws >>= fun m => m.step a w := by
  unfold run
  simp

def Filled (a : Assembly) (ws : List Answer) (id : Nat) (s : Register) : Prop :=
  ∃ us m, us <+: ws ∧ us ≠ ws ∧ a.run us = .ok m ∧ m.running.id = id ∧ m.fills? = some s

/-- In each step of the run, what is read was filled before by the same activation. -/
def FillsFirst (a : Assembly) (ws : List Answer) : Prop :=
  ∀ us m s, us <+: ws → us ≠ ws → a.run us = .ok m → m.reads? = some s → a.Filled us m.running.id s

theorem not_filled_nil (a : Assembly) (id : Nat) (s : Register) : ¬ a.Filled [] id s := by
  rintro ⟨us, m, hus, hne, -⟩
  exact hne (List.prefix_nil.1 hus)

theorem prefix_append_iff {us : List Answer} : (us <+: ws ++ [w] ∧ us ≠ ws ++ [w]) ↔ (us <+: ws ∧ us ≠ ws) ∨ us = ws := by
  rw [List.prefix_concat_iff]
  constructor
  · rintro ⟨rfl | hus, hne⟩
    · exact absurd rfl hne
    · by_cases he : us = ws
      · exact .inr he
      · exact .inl ⟨hus, he⟩
  · rintro (⟨hus, -⟩ | rfl)
    · refine ⟨.inr hus, ?_⟩
      rintro rfl
      exact absurd hus.length_le (by simp)
    · simp

theorem filled_append (hm : a.run ws = .ok m) (id : Nat) (s : Register) :
    a.Filled (ws ++ [w]) id s ↔ m.filledAfter (a.Filled ws) id s := by
  constructor
  · rintro ⟨us, m', hus, hne, hm', hid, hs⟩
    rcases prefix_append_iff.1 ⟨hus, hne⟩ with ⟨hus, hne⟩ | rfl
    · exact .inl ⟨us, m', hus, hne, hm', hid, hs⟩
    · cases hm.symm.trans hm'
      exact .inr ⟨hid.symm, hs⟩
  · rintro (⟨us, m', hus, hne, hm', hid, hs⟩ | ⟨rfl, hs⟩)
    · obtain ⟨hus, hne⟩ := prefix_append_iff.2 (.inl ⟨hus, hne⟩)
      exact ⟨us, m', hus, hne, hm', hid, hs⟩
    · obtain ⟨hus, hne⟩ := prefix_append_iff.2 (.inr (Eq.refl ws))
      exact ⟨ws, m, hus, hne, hm, rfl, hs⟩

theorem FillsFirst.init (h : a.FillsFirst (ws ++ [w])) : a.FillsFirst ws := by
  intro us m s hus hne
  obtain ⟨hus, hne⟩ := prefix_append_iff.2 (.inl ⟨hus, hne⟩)
  exact h us m s hus hne

theorem FillsFirst.last (h : a.FillsFirst (ws ++ [w])) (hm : a.run ws = .ok m) {s : Register} (hs : m.reads? = some s) :
    a.Filled ws m.running.id s := by
  obtain ⟨hus, hne⟩ := prefix_append_iff.2 (.inr (Eq.refl ws))
  exact h ws m s hus hne hm hs

end Assembly

/-- **A run that fills before it reads does not stop at null**, and leads to a firm machine. -/
theorem Scene.Runnable.run_firm {X : Scene} (hX : X.Runnable) (hempties : ∀ r ∈ X.assembly.routines, r.EmptiesFirst)
    (ws : List Answer) (hfills : X.assembly.FillsFirst ws) :
    Clear (X.assembly.run ws) fun m => m.Firm (X.assembly.Filled ws) := by
  induction ws using List.reverseRecOn with
  | nil =>
    have hnot := X.assembly.not_filled_nil
    show Clear (X.assembly.start >>= fun m => pure m) _
    unfold Assembly.start
    split
    · exact .stuck
    · split
      · exact .stuck
      · exact ⟨⟨fun _ _ hr => (by cases hr), fun s hs => absurd hs (hnot _ s), fun _ _ s _ => hnot _ s⟩,
          fun f hf => (by cases hf), fun id s hs => absurd hs (hnot id s), fun _ _ _ _ hs => by cases hs⟩
  | append_singleton ws w ih =>
    have hsound := hX.run_safe ws
    have hfirm := ih hfills.init
    rw [Assembly.run_append]
    cases hm : X.assembly.run ws with
    | error e =>
      rw [hm] at hfirm
      exact hfirm
    | ok m =>
      rw [hm] at hsound hfirm
      refine (Scene.Sound.step_firm hX hempties hsound hfirm fun s hs => hfills.last hm hs).mono fun m' hm' => ?_
      exact hm'.congr (Assembly.filled_append hm)

end QuillLang
