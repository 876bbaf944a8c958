import QuillLang.Proofs.Sketch.Store
/-!
# Between two statements

`Walking` is what lowering keeps between two statements: nothing is in hand, every slot may be read, and what the state of
lowering says of functions, variables, loops and returns is what the sketch and a scan of the body say.

Time goes on with the declarations outside loops.  An outermost loop is one moment: the slots declared in it are born when
it begins, and its clock stands still.
-/
namespace QuillLang

/-- What the state of lowering says is what the sketch and the scan say. -/
structure Linked (sc : Scan) (D : Sketch) (s : LowerState) : Prop where
  functions : ∀ name info, s.functions.get? name = some info → info.symbol = "fn." ++ name ∧
    D.signature info.symbol = some ⟨info.params.map Ty.machineType, info.ret.machineType, false⟩
  ret : D.ret = (s.ret.map Ty.machineType).getD .i32
  declared : ∀ name, name ∈ sc.declared ↔ name ∈ s.frames.current.map Slot.name
  early : D.early = sc.early
  loop : 0 < s.loopDepth → ∃ β, D.clock = β + 1 ∧ (sc.returned = false → D.retMark ≤ β)

structure Walking (sc : Scan) (D : Sketch) (s : LowerState) (t : Known) : Prop extends Linked sc D s where
  building : Building D s.frames.current s.builder t
  settled : t.Settled
  dead : s.afterReturn = true → t.dead = true

structure Sketch.Onward (D D' : Sketch) : Prop where
  done : D'.done = D.done
  signature : D'.signature = D.signature
  name : D'.name = D.name
  params : D'.params = D.params
  ret : D'.ret = D.ret
  ids : D.ids <+: D'.ids
  mark : ∀ i ∈ D.ids, D'.mark i = D.mark i
  dead : ∀ i ∈ D.ids, i ∈ D'.dead → i ∈ D.dead
  clock : D.clock ≤ D'.clock

namespace Sketch.Onward
variable {D D' D'' : Sketch}

theorem refl (D : Sketch) : D.Onward D :=
  ⟨rfl, rfl, rfl, rfl, rfl, List.prefix_refl _, fun _ _ => rfl, fun _ _ h => h, Nat.le_refl _⟩

theorem trans (h : D.Onward D') (h' : D'.Onward D'') : D.Onward D'' := by
  refine ⟨h'.done.trans h.done, h'.signature.trans h.signature, h'.name.trans h.name, h'.params.trans h.params,
    h'.ret.trans h.ret, h.ids.trans h'.ids, fun i hi => ?_, fun i hi hd => ?_, Nat.le_trans h.clock h'.clock⟩
  · rw [h'.mark i (h.ids.subset hi), h.mark i hi]
  · exact h.dead i hi (h'.dead i (h.ids.subset hi) hd)

theorem promise (D : Sketch) (pending : List BlockId) : D.Onward { D with pending } :=
  ⟨rfl, rfl, rfl, rfl, rfl, List.prefix_refl _, fun _ _ => rfl, fun _ _ h => h, Nat.le_refl _⟩

theorem retimed {birth : Register → Nat} {clock retMark : Nat} {early : Bool} (h : D.clock ≤ clock) :
    D.Onward (D.retimed birth clock retMark early) :=
  ⟨rfl, rfl, rfl, rfl, rfl, List.prefix_refl _, fun _ _ => rfl, fun _ _ h => h, h⟩

theorem begun {code : List Instr} {e : Terminator} {id : BlockId} {label : String} {pending dead : List BlockId}
    (hid : id ∉ D.ids) (hdead : ∀ i ∈ D.ids, i ∈ dead → i ∈ D.dead) :
    D.Onward (D.begun code e id label pending dead) := by
  refine ⟨rfl, rfl, rfl, rfl, rfl, ?_, fun i hi => ?_, hdead, Nat.le_refl _⟩
  · rw [Sketch.ids_begun]
    exact List.prefix_append _ _
  · have hne : i ≠ id := fun he => hid (he ▸ hi)
    simp only [Sketch.begun, hne, if_false]

theorem mem_tail (h : D.Onward D') {i : BlockId} (hi : i ∈ D.ids.tail) : i ∈ D'.ids.tail := by
  obtain ⟨more, hm⟩ := h.ids
  rw [← hm, List.tail_append_of_ne_nil D.ids_ne_nil]
  exact List.mem_append_left _ hi

end Sketch.Onward

structure LowerState.Same (s s' : LowerState) : Prop where
  functions : s'.functions = s.functions
  scopes : s'.scopes = s.scopes
  outer : s'.frames.outer = s.frames.outer
  ret : s'.ret = s.ret
  depth : s'.loopDepth = s.loopDepth

namespace LowerState.Same
variable {s s' s'' : LowerState}

theorem refl (s : LowerState) : s.Same s := ⟨rfl, rfl, rfl, rfl, rfl⟩

theorem trans (h : s.Same s') (h' : s'.Same s'') : s.Same s'' :=
  ⟨h'.functions.trans h.functions, h'.scopes.trans h.scopes, h'.outer.trans h.outer, h'.ret.trans h.ret,
    h'.depth.trans h.depth⟩

theorem build (s : LowerState) (b : Builder) : s.Same { s with builder := b } := ⟨rfl, rfl, rfl, rfl, rfl⟩

end LowerState.Same

/-- A stretch of lowering, from one point between statements to another; `P` are the blocks still promised after it. -/
structure Walks (D : Sketch) (s : LowerState) (sc : Scan) (P : List BlockId) (D' : Sketch) (s' : LowerState)
    (t' : Known) : Prop where
  walking : Walking sc D' s' t'
  onward : D.Onward D'
  pending : D'.pending = P
  same : s.Same s'
  loop : 0 < s.loopDepth → D'.clock = D.clock

namespace Walks
variable {sc : Scan} {D D' D'' : Sketch} {s s' s'' : LowerState} {t t' t'' : Known} {P P' : List BlockId}

theorem refl (h : Walking sc D s t) : Walks D s sc D.pending D s t := ⟨h, .refl D, rfl, .refl s, fun _ => rfl⟩

theorem trans {sc' : Scan} (h : Walks D s sc P D' s' t') (h' : Walks D' s' sc' P' D'' s'' t'') :
    Walks D s sc' P' D'' s'' t'' := by
  refine ⟨h'.walking, h.onward.trans h'.onward, h'.pending, h.same.trans h'.same, fun hd => ?_⟩
  rw [h'.loop (by rw [h.same.depth]; exact hd), h.loop hd]

end Walks

theorem Walking.emitted {sc : Scan} {D : Sketch} {s : LowerState} {t t' : Known} (h : Walking sc D s t) {b : Builder}
    (hb : Building D s.frames.current b t') (hs : t'.Settled) (hd : t'.dead = t.dead) :
    Walks D s sc D.pending D { s with builder := b } t' :=
  ⟨⟨⟨h.functions, h.ret, h.declared, h.early, h.loop⟩, hb, hs, fun hr => by rw [hd]; exact h.dead hr⟩,
    .refl D, rfl, ⟨rfl, rfl, rfl, rfl, rfl⟩, fun _ => rfl⟩

/-! ## Declarations -/

theorem Building.declare {D : Sketch} {F : Frame} {b : Builder} {t : Known} (h : Building D F b t) (name : String)
    (kind : SlotKind) (birth clock : Nat) (early : Bool) (hb : birth < clock) (hc : D.clock ≤ clock)
    (he : early = false → D.early = false) (hr : kind.isHeap = true → early = false → D.retMark ≤ birth) :
    Building (D.retimed (fun x => if x = ⟨b.nextRegister⟩ then birth else D.birth x) clock D.retMark early)
      (F ++ [⟨name, ⟨b.nextRegister⟩, kind⟩])
      { b with
        nextRegister := b.nextRegister + 1
        prologue := b.prologue ++ Slot.prologue ⟨name, ⟨b.nextRegister⟩, kind⟩ } t := by
  have hold : ∀ slot ∈ F, slot.register ≠ ⟨b.nextRegister⟩ := by
    intro slot hs heq
    have := h.slot_below hs
    rw [heq] at this
    exact Nat.lt_irrefl _ this
  have key := h.extend [⟨name, ⟨b.nextRegister⟩, kind⟩] (fun x => if x = ⟨b.nextRegister⟩ then birth else D.birth x)
    clock D.retMark (b.nextRegister + 1) early ?_ (Nat.le_succ _) (by simp) (by simp) hc ?_ (Nat.le_trans h.retMark hc)
  · simpa using key
  · refine ⟨fun slot hs => List.mem_append_left _ hs, fun slot hs => ?_, fun _ _ h => h, rfl, fun slot hs => ?_,
      fun i m hi => hi.imp id (fun hp => ⟨hp.1, Nat.le_trans hp.2 hc⟩), Nat.le_refl _, he⟩
    · rcases List.mem_append.1 hs with hs | hs
      · exact .inl hs
      · obtain rfl := List.mem_singleton.1 hs
        refine .inr ⟨Nat.le_refl _, fun hheap hearly => ?_⟩
        simpa [Sketch.setting, Sketch.retimed] using hr hheap hearly
    · simp only [Sketch.setting, Sketch.retimed, hold slot hs, if_false]
  · intro slot hs
    rcases List.mem_append.1 hs with hs | hs
    · simp only [hold slot hs, if_false]
      exact Nat.lt_of_lt_of_le (h.births slot hs) hc
    · obtain rfl := List.mem_singleton.1 hs
      simpa using hb

/-- A slot is there for a variable, old or new. -/
structure Declares (D : Sketch) (s : LowerState) (t : Known) (sc : Scan) (D' : Sketch) (s' : LowerState) : Prop
    extends Linked sc D' s' where
  building : Building D' s'.frames.current s'.builder t
  onward : D.Onward D'
  pending : D'.pending = D.pending
  same : s.Same s'
  loop_clock : 0 < s.loopDepth → D'.clock = D.clock
  afterReturn : s'.afterReturn = s.afterReturn

/-- **A declaration finds a slot that may be filled**: what it may hold is freed first, or it holds nothing. -/
theorem Linked.ensures_declareSlot {sc : Scan} {D : Sketch} {s : LowerState} {t : Known} (l : Linked sc D s)
    (h : Building D s.frames.current s.builder t) (name : Ident) (kind : SlotKind) :
    Lower.Ensures (Lower.declareSlot name kind) s fun x s' =>
      ∃ D', Declares D s t (sc.declare (decide (0 < s.loopDepth)) name.name kind.isHeap) D' s' ∧
        x.1 ∈ s'.frames.current ∧ x.1.kind = kind ∧
        (declarationFrees x.2 s.loopDepth = true ∨ t.mark ≤ D'.birth x.1.register) := by
  refine (Lower.Ensures.get (Q := fun a s' => a = s ∧ s' = s) ⟨rfl, rfl⟩).bind ?_
  rintro _ _ ⟨rfl, rfl⟩
  rename_i s
  cases hl : s.frames.lookup name.name with
  | some slot =>
    dsimp only
    by_cases hk : slot.kind = kind
    · rw [if_pos hk]
      have hmem : name.name ∈ sc.declared := by
        rw [l.declared, ← SlotTable.name_of_lookup hl]
        exact List.mem_map_of_mem (SlotTable.mem_of_lookup hl)
      have hsc : sc.declare (decide (0 < s.loopDepth)) name.name kind.isHeap = sc := if_pos hmem
      rw [hsc]
      exact .pure ⟨D, ⟨l, h, .refl D, rfl, .refl s, fun _ => rfl, rfl⟩, SlotTable.mem_of_lookup hl, hk, .inl rfl⟩
    · rw [if_neg hk]
      exact .throw (fun _ => by simp)
  | none =>
    have hnew : name.name ∉ s.frames.current.map Slot.name := SlotTable.notMem_of_lookup hl
    have hmem : name.name ∉ sc.declared := fun hm => hnew ((l.declared _).1 hm)
    obtain ⟨hslot, hcurrent⟩ := Frames.register_of_none hl ⟨s.builder.nextRegister⟩ kind
    have houter : (s.frames.register name.name ⟨s.builder.nextRegister⟩ kind).2.outer = s.frames.outer := rfl
    refine (Lower.Ensures.build (P := fun r b' => r = ⟨s.builder.nextRegister⟩ ∧ b' =
      { s.builder with
        nextRegister := s.builder.nextRegister + 1
        prologue := s.builder.prologue ++ [⟨some ⟨s.builder.nextRegister⟩, .alloca kind.machineType⟩] })
      ⟨rfl, rfl⟩).bind ?_
    rintro _ _ ⟨_, rfl, rfl, rfl⟩
    refine (Lower.Ensures.build (P := fun _ b' => b' =
      { s.builder with
        nextRegister := s.builder.nextRegister + 1
        prologue := s.builder.prologue ++ Slot.prologue ⟨name.name, ⟨s.builder.nextRegister⟩, kind⟩ }) ?_).bind ?_
    · show ({ s.builder with nextRegister := _, prologue := _ } : Builder) = _
      rw [List.append_assoc]
      rfl
    rintro _ _ ⟨_, rfl, rfl⟩
    refine Lower.Ensures.modifyGet ?_
    generalize s.frames.register name.name ⟨s.builder.nextRegister⟩ kind = new at hslot hcurrent houter ⊢
    obtain ⟨_, frames⟩ := new
    obtain rfl := hslot
    have hmem' : (⟨name.name, ⟨s.builder.nextRegister⟩, kind⟩ : Slot) ∈ frames.current := by simp [hcurrent]
    have hdeclared : ∀ x, x ∈ name.name :: sc.declared ↔ x ∈ frames.current.map Slot.name := by
      intro x
      simp only [List.mem_cons, l.declared x, hcurrent, List.map_append, List.mem_append, List.map_cons, List.map_nil,
        List.not_mem_nil, or_false]
      exact or_comm
    rw [show sc.declare (decide (0 < s.loopDepth)) name.name kind.isHeap = _ from if_neg hmem]
    have hearly : ∀ {x : Bool}, (sc.early || x) = false → D.early = false := by
      intro x hx
      rw [l.early]
      exact (Bool.or_eq_false_iff.1 hx).1
    by_cases hd : 0 < s.loopDepth
    · -- in a loop the clock stands still, and the declaration frees
      obtain ⟨β, hβ, hret⟩ := l.loop hd
      have hb := h.declare name.name kind β D.clock
        (sc.early || (kind.isHeap && decide (0 < s.loopDepth) && sc.returned)) (by omega) (Nat.le_refl _) hearly
        (fun hk he => hret (by simpa [hk, hd] using (Bool.or_eq_false_iff.1 he).2))
      rw [← hcurrent] at hb
      refine ⟨_, ⟨?_, hb, .retimed (Nat.le_refl _), rfl, ⟨rfl, rfl, houter, rfl, rfl⟩, fun _ => rfl, rfl⟩, hmem', rfl,
        .inl (by simpa [declarationFrees] using hd)⟩
      exact ⟨l.functions, l.ret, hdeclared, rfl, fun _ => ⟨β, hβ, hret⟩⟩
    · -- outside loops the slot is born now
      have hb := h.declare name.name kind D.clock (D.clock + 1)
        (sc.early || (kind.isHeap && decide (0 < s.loopDepth) && sc.returned)) (Nat.lt_succ_self _) (Nat.le_succ _)
        hearly (fun _ _ => h.retMark)
      rw [← hcurrent] at hb
      refine ⟨_, ⟨?_, hb, .retimed (Nat.le_succ _), rfl, ⟨rfl, rfl, houter, rfl, rfl⟩, fun hd' => absurd hd' hd, rfl⟩,
        hmem', rfl, .inr (by simpa [Sketch.retimed] using h.mark)⟩
      exact ⟨l.functions, l.ret, hdeclared, rfl, fun hd' => absurd hd' hd⟩

end QuillLang
