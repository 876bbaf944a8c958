import QuillLang.Proofs.Sketch.Return
/-!
# Blocks

A test and its block are entered by branches to blocks that were promised before.  A loop comes back to its test: its
clock stands still, so nothing is born between the test and the way back.  By induction over the statements, a body leads
from one point between statements to another (`lowers_block`).
-/
namespace QuillLang

/-- No time has passed, and no return was met. -/
structure Sketch.SameTime (D D' : Sketch) : Prop where
  clock : D'.clock = D.clock
  retMark : D'.retMark = D.retMark

theorem Sketch.SameTime.trans {D D' D'' : Sketch} (h : D.SameTime D') (h' : D'.SameTime D'') : D.SameTime D'' :=
  ⟨h'.clock.trans h.clock, h'.retMark.trans h.retMark⟩

namespace Walking
variable {sc : Scan} {D : Sketch} {s : LowerState} {t : Known}

theorem ensures_createBlock (h : Walking sc D s t) (name : String) :
    Lower.Ensures (Lower.build (Builder.createBlock name)) s fun p s' =>
      ∃ D', Walks D s sc (p.1 :: D.pending) D' s' t ∧ D.SameTime D' := by
  refine ⟨_, ⟨⟨?_, h.building.promise, h.settled, h.dead⟩, .promise D _, rfl, ⟨rfl, rfl, rfl, rfl, rfl⟩,
    fun _ => rfl⟩, rfl, rfl⟩
  exact ⟨h.functions, h.ret, h.declared, h.early, h.loop⟩

theorem ends_br (h : Walking sc D s t) {id : BlockId} (hid : id ∈ D.pending) :
    (D.setting s.frames.current).Ends s.builder.nextRegister t (.br id) :=
  .br h.settled (.inr ⟨hid, h.building.mark⟩)

theorem ends_condBr (h : Walking sc D s t) {cond : Operand} (hc : t.HasType cond .i1) (yes no : BlockId)
    (hyes : yes ∈ D.pending) (hno : no ∈ D.pending) :
    (D.setting s.frames.current).Ends s.builder.nextRegister t (.condBr cond yes no) :=
  .condBr hc h.settled (.inr ⟨hyes, h.building.mark⟩) (.inr ⟨hno, h.building.mark⟩)

/-- **The open block is closed, and a block that was promised is begun.** -/
theorem ensures_startBlock (h : Walking sc D s t) {e : Terminator}
    (he : (D.setting s.frames.current).Ends s.builder.nextRegister t e) {id : BlockId} (label : String)
    {l₁ l₂ : List BlockId} (hp : D.pending = l₁ ++ id :: l₂) :
    Lower.Ensures (Lower.startBlock id label) { s with builder := s.builder.terminated e } fun _ s' =>
      ∃ D', Walks D s sc (l₁ ++ l₂) D' s' (Known.atBlock D.clock false) ∧ D.SameTime D' ∧
        id ∈ D'.ids.tail ∧ id ∉ D'.dead ∧ D'.mark id = D.clock := by
  have hids := h.building.ids
  rw [hp] at hids
  have hperm : (l₁ ++ id :: l₂).Perm (id :: (l₁ ++ l₂)) := List.perm_middle
  have hids' : (D.ids ++ id :: (l₁ ++ l₂)).Nodup := (hperm.append_left D.ids).nodup_iff.1 hids
  have hnew : id ∉ D.ids := by
    intro hi
    exact (List.nodup_append.1 hids').2.2 id hi id (by simp) rfl
  have hdead : id ∉ D.dead := fun hd => hnew (h.building.deadBegun id hd)
  have key := h.building.begun he id label (l₁ ++ l₂) D.dead (Nat.le_refl _) hids' ?_ ?_ ?_
  · rw [decide_eq_false hdead] at key
    refine ⟨_, ⟨⟨?_, key, ⟨by simp [Known.atBlock], fun _ => rfl⟩, fun hr => by cases hr⟩,
      .begun hnew (fun _ _ hd => hd), rfl, ⟨rfl, rfl, rfl, rfl, rfl⟩, fun _ => rfl⟩, ⟨rfl, rfl⟩, ?_, hdead, ?_⟩
    · exact ⟨h.functions, h.ret, h.declared, h.early, h.loop⟩
    · rw [Sketch.ids_begun, List.tail_append_of_ne_nil D.ids_ne_nil]
      simp
    · simp [Sketch.begun]
  · intro i hi
    refine h.building.idsBelow i (List.mem_append_right _ ?_)
    rw [hp]
    exact hperm.mem_iff.2 hi
  · intro i hi
    rw [hp] at hi
    rcases List.mem_cons.1 (hperm.mem_iff.1 hi) with rfl | hi
    · exact .inr ⟨rfl, hdead⟩
    · exact .inl hi
  · intro i
    constructor
    · exact .inl
    · rintro (hi | ⟨rfl, hi⟩) <;> exact hi

theorem ensures_condition (h : Walking sc D s t) (test : Expr) :
    Lower.Ensures (Lower.condition test) s fun v s' =>
      ∃ t', Walks D s sc D.pending D s' t' ∧ t'.HasType v .i1 := by
  refine (h.building.ensures_condition h.settled.ready test).mono ?_
  rintro v _ ⟨b', rfl, t', w, hv⟩
  exact ⟨t', h.emitted w.building ((Known.Holding.of_settled h.settled).writes w).settled w.turns.dead, hv⟩

/-! ## Polling -/

theorem ensures_poll (h : Walking sc D s t) (hg : D.Draws) :
    Lower.Ensures Lower.poll s fun _ s' => ∃ D' t', Walks D s sc D.pending D' s' t' := by
  have he : (⟨"gfx_poll_events", [], .i64, false⟩ : External) ∈ External.graphics := by simp [External.graphics]
  refine (Lower.Ensures.build (h.building.ensures_external (List.mem_append_right _ he) (hg _ he)
    (External.graphics_other he).1 (by simp) ⟨fun hw => absurd hw (External.graphics_other he).2, rfl, fun _ => rfl,
    by simp [Builder.typeArgs]⟩)).bind ?_
  rintro _ _ ⟨b₁, rfl, rfl, hn₁, h₁⟩
  have w₁ : Writes D s.frames.current s.builder t [] [] b₁ _ := .define h.building (by simp) hn₁ h₁
  refine (Lower.Ensures.build (h₁.writes_compare .ne (.inl rfl) (Known.hasType_define _ _ _)
    (Known.hasType_int _ _))).bind ?_
  rintro quit _ ⟨b₂, rfl, t₂, w₂, hquit⟩
  have w := w₁.then_makes w₂
  have k₂ := h.emitted w.building ((Known.Holding.of_settled h.settled).writes w).settled w.turns.dead
  refine (k₂.walking.ensures_createBlock "poll.quit").bind ?_
  rintro ⟨quitBlock, quitLabel⟩ s₃ ⟨D₃, k₃, -⟩
  refine (k₃.walking.ensures_createBlock "poll.continue").bind ?_
  rintro ⟨goOn, goOnLabel⟩ s₄ ⟨D₄, k₄, -⟩
  have hp₄ : D₄.pending = [goOn] ++ quitBlock :: D.pending := by rw [k₄.pending, k₃.pending]; rfl
  have e₄ := k₄.walking.ends_condBr hquit quitBlock goOn (by rw [hp₄]; simp) (by rw [hp₄]; simp)
  refine (Lower.ensures_terminate _).bind ?_
  rintro _ _ rfl
  refine (k₄.walking.ensures_startBlock e₄ quitLabel hp₄).bind ?_
  rintro _ s₅ ⟨D₅, k₅, -⟩
  refine (Lower.Ensures.build (k₅.walking.building.ensures_exit 0)).bind ?_
  rintro _ _ ⟨b₆, rfl, -, h₆⟩
  refine (Lower.ensures_terminate _).bind ?_
  rintro _ _ rfl
  have k₆ : Walking sc D₅ { s₅ with builder := b₆ } { Known.atBlock D₄.clock false with dead := true } :=
    ⟨k₅.walking.toLinked.build b₆, h₆, ⟨k₅.walking.settled.empty, k₅.walking.settled.ready⟩, fun _ => rfl⟩
  have hp₅ : D₅.pending = [] ++ goOn :: D.pending := k₅.pending
  refine (k₆.ensures_startBlock (.unreachable rfl k₆.settled) goOnLabel hp₅).mono ?_
  rintro _ s₇ ⟨D₇, k₇, -⟩
  have k : Walks D₅ s₅ sc D.pending D₇ s₇ _ :=
    ⟨k₇.walking, k₇.onward, k₇.pending, (LowerState.Same.build s₅ b₆).trans k₇.same, k₇.loop⟩
  exact ⟨D₇, _, ((k₂.trans k₃).trans k₄).trans (k₅.trans k)⟩

theorem ensures_graphics (h : Walking sc D s t) (hg : D.Draws) (op : Graphics) :
    Lower.Ensures (Lower.graphics op) s fun _ s' => ∃ D' t', Walks D s sc D.pending D' s' t' := by
  have hints : ∀ {e : External}, e ∈ External.graphics → ∀ {args : List Expr},
      e.signature.params = List.replicate args.length .i64 → e.signature.ret = .void →
      Lower.Ensures (Lower.callWithInts e.name args) s fun _ s' => ∃ D' t', Walks D s sc D.pending D' s' t' :=
    fun he _ hp hret => h.ensures_callWithInts hg he hp hret
  cases op with
  | init => exact hints (e := ⟨"gfx_init", [], .void, false⟩) (by simp [External.graphics]) rfl rfl
  | window title width height => exact h.ensures_window hg title width height
  | delay millis => exact hints (e := ⟨"gfx_delay", [.i64], .void, false⟩) (by simp [External.graphics]) rfl rfl
  | poll => exact h.ensures_poll hg
  | surface width height =>
    exact hints (e := ⟨"gfx_surface", [.i64, .i64], .void, false⟩) (by simp [External.graphics]) rfl rfl
  | pixel x y =>
    exact hints (e := ⟨"gfx_put_pixel", [.i64, .i64], .void, false⟩) (by simp [External.graphics]) rfl rfl
  | getPixel x y result => exact h.ensures_getPixel hg x y result
  | present => exact hints (e := ⟨"gfx_present", [], .void, false⟩) (by simp [External.graphics]) rfl rfl
  | clear => exact hints (e := ⟨"gfx_clear", [], .void, false⟩) (by simp [External.graphics]) rfl rfl
  | color r g b =>
    exact hints (e := ⟨"gfx_set_color", [.i64, .i64, .i64], .void, false⟩) (by simp [External.graphics]) rfl rfl
  | line x1 y1 x2 y2 =>
    exact hints (e := ⟨"gfx_draw_line", [.i64, .i64, .i64, .i64], .void, false⟩) (by simp [External.graphics]) rfl rfl

end Walking

/-! ## Tests and loops -/

/-- A step of lowering leads from one point between statements to another and is scanned by `scan`; it may rely on the
graphics runtime if it draws. -/
def Lowers (draws : Bool) (scan : VarTable → Bool → Scan → Scan) (x : Lower Unit) : Prop :=
  ∀ ⦃sc : Scan⦄ ⦃D : Sketch⦄ ⦃s : LowerState⦄ ⦃t : Known⦄, Walking sc D s t → (draws = true → D.Draws) →
    Lower.Ensures x s fun _ s' => ∃ D' t',
      Walks D s (scan s.scopes.current (decide (0 < s.loopDepth)) sc) D.pending D' s' t'

theorem Sketch.Onward.draws {D D' : Sketch} (h : D.Onward D') (hd : D.Draws) : D'.Draws := by
  intro e he
  rw [h.signature]
  exact hd e he

theorem lowers_when {draws : Bool} (test : Expr) {body : List Stmt} (span : Span)
    (hbody : Lowers draws (fun vars inLoop sc => Stmt.scanAll vars inLoop sc body) (Lower.block body)) :
    Lowers draws (fun vars inLoop sc => (Stmt.when test body span).scan vars inLoop sc)
      (Lower.stmt (.when test body span)) := by
  intro sc D s t h hg
  unfold Lower.stmt
  refine (h.ensures_createBlock "if.cond").bind ?_
  rintro ⟨condBlock, condLabel⟩ s₁ ⟨D₁, k₁, -⟩
  refine (k₁.walking.ensures_createBlock "if.then").bind ?_
  rintro ⟨thenBlock, thenLabel⟩ s₂ ⟨D₂, k₂, -⟩
  refine (k₂.walking.ensures_createBlock "if.end").bind ?_
  rintro ⟨endBlock, endLabel⟩ s₃ ⟨D₃, k₃, -⟩
  have hp₃ : D₃.pending = [endBlock, thenBlock] ++ condBlock :: D.pending := by
    rw [k₃.pending, k₂.pending, k₁.pending]
    rfl
  refine (Lower.ensures_terminate _).bind ?_
  rintro _ _ rfl
  refine (k₃.walking.ensures_startBlock (k₃.walking.ends_br (by rw [hp₃]; simp)) condLabel hp₃).bind ?_
  rintro _ s₄ ⟨D₄, k₄, -⟩
  refine (k₄.walking.ensures_condition test).bind ?_
  rintro cond s₅ ⟨t₅, k₅, hc⟩
  have hp₅ : D₄.pending = [endBlock] ++ thenBlock :: D.pending := k₄.pending
  have e₅ := k₅.walking.ends_condBr hc thenBlock endBlock (by rw [hp₅]; simp) (by rw [hp₅]; simp)
  refine (Lower.ensures_terminate _).bind ?_
  rintro _ _ rfl
  refine (k₅.walking.ensures_startBlock e₅ thenLabel hp₅).bind ?_
  rintro _ s₆ ⟨D₆, k₆, -⟩
  have k := ((((k₁.trans k₂).trans k₃).trans k₄).trans k₅).trans k₆
  refine (hbody k₆.walking (fun hd => k.onward.draws (hg hd))).bind ?_
  rintro _ s₇ ⟨D₇, t₇, k₇⟩
  have hp₇ : D₇.pending = [] ++ endBlock :: D.pending := k₇.pending.trans k₆.pending
  refine (Lower.ensures_terminate _).bind ?_
  rintro _ _ rfl
  refine (k₇.walking.ensures_startBlock (k₇.walking.ends_br (by rw [hp₇]; simp)) endLabel hp₇).mono ?_
  rintro _ s₈ ⟨D₈, k₈, -⟩
  rw [k.same.scopes, k.same.depth] at k₇ k₈
  exact ⟨D₈, _, (k.trans k₇).trans k₈⟩

/-- Before an outermost loop the clock goes on, so that the loop is one moment. -/
theorem Walking.enter_loop {sc : Scan} {D : Sketch} {s : LowerState} {t : Known} (h : Walking sc D s t) :
    ∃ D₀, Walks D s { sc with returned := decide (0 < s.loopDepth) && sc.returned } D.pending D₀ s t ∧
      ∃ β, D₀.clock = β + 1 ∧ ((decide (0 < s.loopDepth) && sc.returned) = false → D₀.retMark ≤ β) := by
  by_cases hd : 0 < s.loopDepth
  · obtain ⟨β, hβ, hr⟩ := h.loop hd
    have hsc : ({ sc with returned := decide (0 < s.loopDepth) && sc.returned } : Scan) = sc := by simp [hd]
    rw [hsc]
    exact ⟨D, .refl h, β, hβ, fun hr' => hr (by simpa [hd] using hr')⟩
  · have hb := h.building.retime (Nat.le_succ _) (Nat.le_refl _) (Nat.le_succ_of_le h.building.retMark)
    refine ⟨_, ⟨⟨?_, hb, h.settled, h.dead⟩, .retimed (Nat.le_succ _), rfl, .refl s, fun hd' => absurd hd' hd⟩, D.clock, rfl,
      fun _ => h.building.retMark⟩
    exact ⟨h.functions, h.ret, h.declared, h.early, fun hd' => absurd hd' hd⟩

theorem lowers_loop {draws : Bool} (test : Expr) {body : List Stmt} (span : Span)
    (hbody : Lowers draws (fun vars inLoop sc => Stmt.scanAll vars inLoop sc body) (Lower.block body)) :
    Lowers draws (fun vars inLoop sc => (Stmt.loop test body span).scan vars inLoop sc)
      (Lower.stmt (.loop test body span)) := by
  intro sc D s t h hg
  unfold Lower.stmt
  obtain ⟨D₀, k₀, β, hβ, hret⟩ := h.enter_loop
  refine (k₀.walking.ensures_createBlock "while.cond").bind ?_
  rintro ⟨condBlock, condLabel⟩ s₁ ⟨D₁, k₁, c₁⟩
  refine (k₁.walking.ensures_createBlock "while.body").bind ?_
  rintro ⟨bodyBlock, bodyLabel⟩ s₂ ⟨D₂, k₂, c₂⟩
  refine (k₂.walking.ensures_createBlock "while.end").bind ?_
  rintro ⟨endBlock, endLabel⟩ s₃ ⟨D₃, k₃, c₃⟩
  have hp₃ : D₃.pending = [endBlock, bodyBlock] ++ condBlock :: D.pending := by
    rw [k₃.pending, k₂.pending, k₁.pending, k₀.pending]
    rfl
  refine (Lower.ensures_terminate _).bind ?_
  rintro _ _ rfl
  refine (k₃.walking.ensures_startBlock (k₃.walking.ends_br (by rw [hp₃]; simp)) condLabel hp₃).bind ?_
  rintro _ s₄ ⟨D₄, k₄, c₄, htail, hdead, hmark⟩
  refine (k₄.walking.ensures_condition test).bind ?_
  rintro cond s₅ ⟨t₅, k₅, hc⟩
  have hp₅ : D₄.pending = [endBlock] ++ bodyBlock :: D.pending := k₄.pending
  have e₅ := k₅.walking.ends_condBr hc bodyBlock endBlock (by rw [hp₅]; simp) (by rw [hp₅]; simp)
  refine (Lower.ensures_terminate _).bind ?_
  rintro _ _ rfl
  refine (k₅.walking.ensures_startBlock e₅ bodyLabel hp₅).bind ?_
  rintro _ s₆ ⟨D₆, k₆, c₆, -⟩
  have k := (((((k₀.trans k₁).trans k₂).trans k₃).trans k₄).trans k₅).trans k₆
  have c := (((c₁.trans c₂).trans c₃).trans c₄).trans c₆
  refine (Lower.Ensures.modify (Q := fun _ s' => s' = { s₆ with loopDepth := s₆.loopDepth + 1 }) rfl).bind ?_
  rintro _ _ rfl
  -- inside the body, one loop deeper
  have hin : Walking { sc with returned := decide (0 < s.loopDepth) && sc.returned } D₆
      { s₆ with loopDepth := s₆.loopDepth + 1 } (Known.atBlock D₄.clock false) := by
    have l := k₆.walking
    refine ⟨⟨l.functions, l.ret, l.declared, l.early, fun _ => ⟨β, ?_, fun hr => ?_⟩⟩, l.building, l.settled,
      l.dead⟩
    · rw [c.clock, hβ]
    · rw [c.retMark]
      exact hret hr
  refine (hbody hin (fun hd => k.onward.draws (hg hd))).bind ?_
  rintro _ s₇ ⟨D₇, t₇, k₇⟩
  have hscan : Stmt.scanAll s₆.scopes.current (decide (0 < s₆.loopDepth + 1))
      { sc with returned := decide (0 < s.loopDepth) && sc.returned } body =
      (Stmt.loop test body span).scan s.scopes.current (decide (0 < s.loopDepth)) sc := by
    rw [k.same.scopes]
    simp [Stmt.scan]
  dsimp only at k₇
  rw [hscan] at k₇
  refine (Lower.Ensures.modify (Q := fun _ s' => s' = { s₇ with loopDepth := s₇.loopDepth - 1 }) rfl).bind ?_
  rintro _ _ rfl
  have hdepth : s₇.loopDepth - 1 = s.loopDepth := by
    rw [k₇.same.depth]
    exact k.same.depth
  have hout : Walking ((Stmt.loop test body span).scan s.scopes.current (decide (0 < s.loopDepth)) sc) D₇
      { s₇ with loopDepth := s₇.loopDepth - 1 } t₇ := by
    have l := k₇.walking
    refine ⟨⟨l.functions, l.ret, l.declared, l.early, fun _ => l.loop ?_⟩, l.building, l.settled, l.dead⟩
    rw [k₇.same.depth]
    exact Nat.succ_pos _
  have hclock : D₇.clock = D₆.clock := k₇.loop (Nat.succ_pos _)
  have k₄₇ : D₄.Onward D₇ := (k₅.onward.trans k₆.onward).trans k₇.onward
  -- the way back: nothing was born since the test
  have hback : (D₇.setting s₇.frames.current).Ends s₇.builder.nextRegister t₇ (.br condBlock) := by
    have hcond : condBlock ∈ D₄.ids := List.mem_of_mem_tail htail
    refine .br k₇.walking.settled (.inl ⟨k₄₇.mem_tail htail, fun hd => hdead (k₄₇.dead _ hcond hd), ?_⟩)
    rw [k₄₇.mark _ hcond, hmark]
    exact Nat.le_trans k₇.walking.building.mark (Nat.le_of_eq (by rw [hclock, c₆.clock, c₄.clock]))
  have hp₇ : D₇.pending = [] ++ endBlock :: D.pending := k₇.pending.trans k₆.pending
  refine (Lower.ensures_terminate _).bind ?_
  rintro _ _ rfl
  refine (hout.ensures_startBlock hback endLabel hp₇).mono ?_
  rintro _ s₈ ⟨D₈, k₈, c₈, -⟩
  refine ⟨D₈, _, k₈.walking, (k.onward.trans k₇.onward).trans k₈.onward, k₈.pending, ?_, fun hd => ?_⟩
  · exact ⟨k₈.same.functions.trans (k₇.same.functions.trans k.same.functions),
      k₈.same.scopes.trans (k₇.same.scopes.trans k.same.scopes),
      k₈.same.outer.trans (k₇.same.outer.trans k.same.outer), k₈.same.ret.trans (k₇.same.ret.trans k.same.ret),
      k₈.same.depth.trans hdepth⟩
  · rw [c₈.clock, hclock]
    exact k.loop hd

/-! ## All statements -/

mutual

theorem lowers_stmt : ∀ st : Stmt,
    Lowers st.graphicsUse?.isSome (fun vars inLoop sc => st.scan vars inLoop sc) (Lower.stmt st)
  | .make name value _ => fun _ _ _ _ h _ => h.ensures_make name value
  | .assign name value _ => fun _ _ _ _ h _ => h.ensures_assign name value
  | .makeArray name size _ => fun _ _ _ _ h _ => h.ensures_makeArray name size
  | .assignArray name position value _ => fun _ _ _ _ h _ => h.ensures_assignArray name position value
  | .when test body span => lowers_when test span (lowers_block body)
  | .loop test body span => lowers_loop test span (lowers_block body)
  | .print value _ => fun _ _ _ _ h _ => h.ensures_print value
  | .free name _ => fun _ _ _ _ h _ => h.ensures_free name
  | .func _ _ _ _ => fun _ D _ t h _ => .pure ⟨D, t, .refl h⟩
  | .ret name _ => fun _ _ _ _ h _ => h.ensures_ret name
  | .call callee args result _ => fun _ _ _ _ h _ => h.ensures_call callee args result
  | .graphics op _ => fun _ _ _ _ h hg => h.ensures_graphics (hg rfl) op

/-- **A body leads from one point between statements to another.** -/
theorem lowers_block : ∀ body : List Stmt,
    Lowers (Stmt.blockGraphicsUse? body).isSome (fun vars inLoop sc => Stmt.scanAll vars inLoop sc body)
      (Lower.block body)
  | [] => fun _ D _ t h _ => .pure ⟨D, t, .refl h⟩
  | st :: rest => by
    intro sc D s t h hg
    unfold Stmt.blockGraphicsUse? at hg
    refine (lowers_stmt st h (fun hd => hg (by simp [hd]))).bind ?_
    rintro _ s₁ ⟨D₁, t₁, k₁⟩
    refine (lowers_block rest k₁.walking (fun hd => k₁.onward.draws (hg (by simp [hd])))).mono ?_
    rintro _ s₂ ⟨D₂, t₂, k₂⟩
    rw [k₁.same.scopes, k₁.same.depth, k₁.pending] at k₂
    exact ⟨D₂, t₂, k₁.trans k₂⟩

end

end QuillLang
