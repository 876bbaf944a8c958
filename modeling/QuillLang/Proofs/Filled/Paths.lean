import QuillLang.Proofs.Filled.Assigned
import QuillLang.Proofs.Points.Fits
/-!
# All ways through a body

A test makes blocks, and the ways through a body meet in them.  Each block that a statement makes takes what is filled
before the statement (`Lower.Takes`), and lowering goes on with at least that filled, whatever statements come in between
(`Lower.Onward`).  So in the code of a program that assigns its texts before it reads them, every way to a read fills the
slot (`Program.fillsFirst_of_lower`).
-/
namespace QuillLang

theorem LowerState.Covered.sure {H : Heads} {σ σ' : LowerState} (h : σ.Covered (H.sure H.id) σ') (hσ : σ.builder.Sure H) :
    σ'.builder.Sure H := hσ.grows h.grows (h.reads hσ.reads)

namespace Lower

/-- Lowering went on from one state to another: what was said of blocks still is, and what was filled still is. -/
structure Onward (H : Heads) (σ : LowerState) (H' : Heads) (σ' : LowerState) : Prop where
  same : ∀ i : BlockId, i.index < σ.builder.nextBlock → H'.sure i = H.sure i
  numbered : σ.builder.nextBlock ≤ σ'.builder.nextBlock
  filled : ∀ s, H.Filled σ.builder s → H'.Filled σ'.builder s
  lookup : ∀ x slot, σ.frames.lookup x = some slot → σ'.frames.lookup x = some slot

/-- A block that was made on the way takes what was filled at the start. -/
structure Takes (H : Heads) (σ : LowerState) (H' : Heads) (σ' : LowerState) (id : BlockId) : Prop where
  below : id.index < σ'.builder.nextBlock
  sure : H'.sure id = H.Filled σ.builder

variable {H H' H'' : Heads} {σ σ' σ'' : LowerState} {id : BlockId}

namespace Onward

theorem trans (h : Onward H σ H' σ') (h' : Onward H' σ' H'' σ'') : Onward H σ H'' σ'' where
  same i hi := (h'.same i (Nat.lt_of_lt_of_le hi h.numbered)).trans (h.same i hi)
  numbered := Nat.le_trans h.numbered h'.numbered
  filled s hs := h'.filled s (h.filled s hs)
  lookup x slot hx := h'.lookup x slot (h.lookup x slot hx)

theorem refl (H : Heads) (σ : LowerState) : Onward H σ H σ :=
  ⟨fun _ _ => rfl, Nat.le_refl _, fun _ hs => hs, fun _ _ hx => hx⟩

theorem of_grows (h : σ.Grows σ') : Onward H σ H σ' :=
  ⟨fun _ _ => rfl, Nat.le_of_eq h.builder.nextBlock.symm, fun _ hs => h.builder.filledBy hs, h.lookup⟩

theorem of_extend (h : σ.builder.Sure H) : Onward H σ (H.extend σ.builder) σ :=
  ⟨fun _ hi => Heads.extend_old hi, Nat.le_refl _, fun _ hs => h.filled_extend hs, fun _ _ hx => hx⟩

theorem at_depth (h : Onward H σ H' σ') (n : Nat) : Onward H σ H' { σ' with loopDepth := n } :=
  ⟨h.same, h.numbered, h.filled, h.lookup⟩

theorem names (h : Onward H σ H' σ') {x : String} (hx : σ.Filled (H.sure H.id) x) : σ'.Filled (H'.sure H'.id) x := by
  obtain ⟨slot, hslot, hfilled⟩ := hx
  exact ⟨slot, h.lookup x slot hslot, fun hkind => h.filled _ (hfilled hkind)⟩

end Onward

namespace Takes

theorem onward (h : Takes H σ H' σ' id) (hon : Onward H' σ' H'' σ'') : Takes H σ H'' σ'' id :=
  ⟨Nat.lt_of_lt_of_le h.below hon.numbered, (hon.same id h.below).trans h.sure⟩

theorem at_block (h : Takes H σ H' σ' id) (j : BlockId) (hn : σ''.builder.nextBlock = σ'.builder.nextBlock) :
    Takes H σ { H' with id := j } σ'' id :=
  ⟨hn ▸ h.below, h.sure⟩

theorem leads (h : Takes H σ H' σ' id) (hon : Onward H σ H' σ') :
    id.index < σ'.builder.nextBlock ∧ ∀ s, H'.sure id s → H'.Filled σ'.builder s := by
  refine ⟨h.below, fun s hs => hon.filled s ?_⟩
  rwa [h.sure] at hs

theorem begins (h : Takes H σ H' σ' id) (hon : Onward H σ H' σ') (hn : σ''.builder.nextBlock = σ'.builder.nextBlock)
    (hkept : σ'.Kept σ'') : Onward H σ { H' with id := id } σ'' where
  same := hon.same
  numbered := hn ▸ hon.numbered
  filled s hs := by
    refine .inl ?_
    show H'.sure id s
    rw [h.sure]
    exact hs
  lookup x slot hx := by
    rw [hkept.frames]
    exact hon.lookup x slot hx

end Takes

theorem gives_jump {t : Terminator} (hon : Onward H σ H' σ') (hsure : σ'.builder.Sure H')
    (ht : ∀ target ∈ t.successors, Takes H σ H' σ' target) (hret : ∀ v, t ≠ .ret v) (hid : Takes H σ H' σ' id)
    (label : String) : Gives (do build (Builder.terminate t); startBlock id label) σ' fun _ σ'' =>
      σ''.builder.Sure { H' with id := id } ∧ Onward H σ { H' with id := id } σ'' ∧
        σ''.builder.nextBlock = σ'.builder.nextBlock := by
  obtain ⟨hended, -, hnext⟩ := hsure.terminate (fun target htarget => (ht target htarget).leads hon)
    fun v hv => absurd hv (hret _)
  obtain ⟨hstart, hnext'⟩ := hended.startBlock (hnext ▸ hid.below) label
  have hn := hnext'.trans hnext
  intro _ σ'' hrun
  have hkept := ((Keeps.build _).bind fun _ => keeps_startBlock id label) σ' _ _ hrun
  cases hrun
  exact ⟨hstart, hid.begins hon hn hkept, hn⟩

/-! ## Statements -/

/-- A step that goes on from one sure state to another, after which the variables `names` are filled. -/
def Goes (H : Heads) (x : Lower Unit) (σ : LowerState) (names : List String) : Prop :=
  Gives x σ fun _ σ' => ∃ H', σ'.builder.Sure H' ∧ Onward H σ H' σ' ∧ ∀ y ∈ names, σ'.Filled (H'.sure H'.id) y

theorem Fills.goes {x : Lower Unit} {names : List String} (h : Fills (H.sure H.id) x σ names) (hsure : σ.builder.Sure H) :
    Goes H x σ names :=
  h.imp fun _ _ ⟨hfit, hgrows, hnames⟩ => ⟨H, hsure.grows hgrows.builder hfit.2, .of_grows hgrows, hnames⟩

theorem gives_createBlock_takes (hsure : σ'.builder.Sure (H.extend σ.builder)) (hon : Onward H σ (H.extend σ.builder) σ')
    (name : String) : Gives (build (Builder.createBlock name)) σ' fun p σ'' => σ''.builder.Sure (H.extend σ.builder) ∧
      Onward H σ (H.extend σ.builder) σ'' ∧ Onward (H.extend σ.builder) σ' (H.extend σ.builder) σ'' ∧
        Takes H σ (H.extend σ.builder) σ'' p.1 := by
  refine .build ⟨hsure.numbered (Nat.le_succ _), ?_, ?_, ⟨Nat.lt_succ_self _, Heads.extend_new hon.numbered⟩⟩
  · exact ⟨hon.same, Nat.le_succ_of_le hon.numbered, hon.filled, hon.lookup⟩
  · exact ⟨fun _ _ => rfl, Nat.le_succ _, fun _ hs => hs, fun _ _ hx => hx⟩

theorem gives_openTest (hsure : σ.builder.Sure H) (cond body rest : String) :
    Gives (openTest cond body rest) σ fun blocks σ' => ∃ H', σ'.builder.Sure H' ∧ Onward H σ H' σ' ∧
      Takes H σ H' σ' blocks.cond ∧ Takes H σ H' σ' blocks.body ∧ Takes H σ H' σ' blocks.rest := by
  refine (gives_createBlock_takes hsure.extend (.of_extend hsure) cond).bind fun p σ₁ ⟨hsure₁, hon₁, _, hcond⟩ => ?_
  refine (gives_createBlock_takes hsure₁ hon₁ body).bind fun q σ₂ ⟨hsure₂, hon₂, h₂, hbody⟩ => ?_
  refine (gives_createBlock_takes hsure₂ hon₂ rest).bind fun ⟨r, restLabel⟩ σ₃ ⟨hsure₃, hon₃, h₃, hrest⟩ => ?_
  have hcond := hcond.onward (h₂.trans h₃)
  have hjump := gives_jump (t := .br p.1) hon₃ hsure₃ (by simpa [Terminator.successors] using hcond) (by simp) hcond p.2
  dsimp only
  rw [← bind_assoc]
  refine hjump.bind ?_
  rintro _ σ₄ ⟨hsure₄, hon₄, hn⟩
  exact .pure ⟨_, hsure₄, hon₄, hcond.at_block _ hn, (hbody.onward h₃).at_block _ hn, hrest.at_block _ hn⟩

theorem gives_openBody {test : Expr} {blocks : TestBlocks} (hsure : σ'.builder.Sure H') (hable : σ'.Able)
    (hon : Onward H σ H' σ') (hbody : Takes H σ H' σ' blocks.body) (hrest : Takes H σ H' σ' blocks.rest)
    (htest : (View.covers (H'.sure H'.id)).Supplies σ' test.variables) :
    Gives (openBody test blocks) σ' fun _ σ'' => σ''.builder.Sure { H' with id := blocks.body } ∧
      Onward H σ { H' with id := blocks.body } σ'' ∧ σ''.builder.nextBlock = σ'.builder.nextBlock := by
  refine ((tidy_condition trivial htest).gives ⟨hable, hsure.reads⟩).bind fun c σ₁ ⟨h₁, _⟩ => ?_
  have hon₁ : Onward H' σ' H' σ₁ := .of_grows h₁.toGrows
  have hjump := gives_jump (t := .condBr c blocks.body blocks.rest) (hon.trans hon₁) (h₁.sure hsure)
    (by simpa [Terminator.successors] using ⟨hbody.onward hon₁, hrest.onward hon₁⟩) (by simp) (hbody.onward hon₁)
    blocks.bodyLabel
  refine hjump.imp ?_
  rintro _ _ ⟨hsure₂, hon₂, hn⟩
  exact ⟨hsure₂, hon₂, hn.trans h₁.grows.nextBlock⟩

theorem goes_poll (hsure : σ.builder.Sure H) (hable : σ.Able) : Goes H poll σ [] := by
  have hsure₀ := hsure.extend
  refine ((Builder.tidy_call trivial (by simp)).covered ⟨hable, hsure₀.reads⟩).bind fun status σ₁ ⟨h₁, hfit₁, hstatus⟩ => ?_
  have hstatus := (View.has_operand _).1 hstatus
  refine ((Builder.tidy_compare hstatus (View.solid_int 0)).gives hfit₁).bind fun quit σ₂ ⟨h₂, _⟩ => ?_
  have h₂ := h₁.trans h₂
  have hon₂ := (Onward.of_extend hsure).trans (.of_grows h₂.toGrows)
  refine (gives_createBlock_takes (h₂.sure hsure₀) hon₂ _).bind fun p σ₃ ⟨hsure₃, hon₃, _, hp⟩ => ?_
  refine (gives_createBlock_takes hsure₃ hon₃ _).bind fun ⟨q, goOnLabel⟩ σ₄ ⟨hsure₄, hon₄, h₄, hq⟩ => ?_
  have hp := hp.onward h₄
  have hjump := gives_jump (t := .condBr quit p.1 q) hon₄ hsure₄ (by simpa [Terminator.successors] using ⟨hp, hq⟩)
    (by simp) hp p.2
  dsimp only
  rw [← bind_assoc]
  refine hjump.bind ?_
  rintro _ σ₅ ⟨hsure₅, hon₅, hn⟩
  have hzero : ∀ v ∈ [Operand.int 0], σ₅.builder.Solid ((H.extend σ.builder).sure p.1) v := by
    simpa using Builder.solid_of_ne_register (by simp)
  have hexit : (Builder.callVariadic "exit" [.int 0] []).Covers _ σ₅.builder _ :=
    Builder.covers_callVariadic hsure₅.reads fun _ => ⟨hzero, by simp⟩
  obtain ⟨hreads, hgrows, -⟩ := hexit
  refine Gives.bind (.build (Q := fun _ σ₆ => σ₆.builder.Reads _ ∧ σ₅.Grows σ₆) ⟨hreads, hgrows, fun _ _ h => h⟩) ?_
  rintro _ σ₆ ⟨hreads₆, hgrows₆⟩
  have hon₆ := Onward.of_grows (H := { H.extend σ.builder with id := p.1 }) hgrows₆
  have hjump := gives_jump (t := .unreachable) (hon₅.trans hon₆) (hsure₅.grows hgrows₆.builder hreads₆)
    (by simp [Terminator.successors]) (by simp) ((hq.at_block p.1 hn).onward hon₆) goOnLabel
  refine hjump.imp ?_
  rintro _ _ ⟨hsure₇, hon₇, -⟩
  exact ⟨_, hsure₇, hon₇, by simp⟩

theorem gives_afterReturn {v : Option (MachineType × Operand)} (hsure : σ'.builder.Sure (H.extend σ.builder))
    (hon : Onward H σ (H.extend σ.builder) σ')
    (hv : ∀ w, v = some (.ptr, w) → σ'.builder.Solid ((H.extend σ.builder).sure H.id) w) :
    Gives (do
      build (Builder.ret v)
      let (dead, label) ← build (Builder.createBlock "return.dead")
      build (Builder.startBlock dead label)
      modify fun s => { s with afterReturn := true }) σ' fun _ σ'' =>
        ∃ H', σ''.builder.Sure H' ∧ Onward H σ H' σ'' ∧ ∀ y ∈ [], σ''.Filled (H'.sure H'.id) y := by
  obtain ⟨hended, -, -⟩ := hsure.terminate (t := .ret v) (by simp [Terminator.successors])
    fun w hw => hv w (Terminator.ret.inj hw)
  intro _ σ'' hrun
  cases hrun
  obtain ⟨hstart, hn⟩ := (hended.numbered (Nat.le_succ _)).startBlock (Nat.lt_succ_self _) _
  refine ⟨_, hstart, ⟨hon.same, hn ▸ Nat.le_succ_of_le hon.numbered, fun s hs => .inl ?_, hon.lookup⟩, by simp⟩
  show (H.extend σ.builder).sure ⟨σ'.builder.nextBlock⟩ s
  rw [Heads.extend_new hon.numbered]
  exact hs

theorem goes_ret {scope : VarTable} {name : Ident} (hsure : σ.builder.Sure H) (hable : σ.Able)
    (hagrees : σ.frames.current.Agrees scope)
    (hname : scope.typeOf name.name = .string → σ.Filled (H.sure H.id) name.name) : Goes H (ret name) σ [] := by
  have hsure₀ := hsure.extend
  have hon₀ := Onward.of_extend hsure
  refine (gives_slotOf_lookup name).bind ?_
  rintro slot σ ⟨rfl, hslot⟩
  have hfilled : slot.kind = .string → (H.extend σ.builder).Filled σ.builder slot.register := fun hkind =>
    hsure.filled_extend (LowerState.filledBy_of_lookup hagrees hname hslot hkind)
  refine .get_bind ?_
  split
  · refine ((tidy_loadSlot (.inl trivial) hfilled name.span).covered ⟨hable, hsure₀.reads⟩).bind ?_
    rintro v σ₁ ⟨h₁, hfit₁, hv⟩
    refine ((Builder.tidy_asInt hv).covered hfit₁).bind fun n σ₂ ⟨h₂, hfit₂, hn⟩ => ?_
    refine ((Builder.tidy_cast ((View.has_operand _).1 hn)).gives hfit₂).bind fun status σ₃ ⟨h₃, _⟩ => ?_
    have h := h₁.trans (h₂.trans h₃)
    exact gives_afterReturn (h.sure hsure₀) (hon₀.trans (.of_grows h.toGrows)) (by simp)
  · rename_i ty _
    refine ((tidy_returnValue (.inl trivial) hfilled ty name.span).covered ⟨hable, hsure₀.reads⟩).bind ?_
    rintro ⟨v, keep⟩ σ₁ ⟨h₁, hfit₁, hv⟩
    refine ((tidy_releaseLocals keep).gives hfit₁).bind fun _ σ₂ ⟨h₂, _⟩ => ?_
    have h := h₁.trans h₂
    refine gives_afterReturn (h.sure hsure₀) (hon₀.trans (.of_grows h.toGrows)) fun w hw => ?_
    obtain ⟨-, rfl⟩ := Prod.mk.inj (Option.some.inj hw)
    have hv : σ₁.builder.Solid _ v := (View.has_operand v).1 ((View.has_pair v keep).1 hv).1
    exact hv.grows h₂.grows

/-- A body begun in the state `σ₀` has come to a place where the walk over it knows the variables `vars` and those in
`assigned` are assigned. -/
structure Arrived (σ₀ : LowerState) (vars : VarTable) (assigned : List String) (H : Heads) (σ : LowerState) : Prop where
  typed : Typed σ₀ vars σ
  able : σ.Able
  sure : σ.builder.Sure H
  names : ∀ x ∈ assigned, σ.Filled (H.sure H.id) x

namespace Arrived
variable {σ₀ : LowerState} {vars : VarTable} {assigned : List String}

theorem fit (h : Arrived σ₀ vars assigned H σ) : (View.covers (H.sure H.id)).Fit σ := ⟨h.able, h.sure.reads⟩

theorem supplies (h : Arrived σ₀ vars assigned H σ) (hpart : vars.Part σ₀.scopes.current) {es : List Expr}
    (hes : ∀ x ∈ es.flatMap (Expr.texts σ₀.scopes.current), x ∈ assigned) :
    (View.covers (H.sure H.id)).Supplies σ (es.flatMap Expr.variables) :=
  LowerState.supplies (h.typed.agrees_scope hpart) fun x hx => h.names x (hes x hx)

theorem supplies_expr (h : Arrived σ₀ vars assigned H σ) (hpart : vars.Part σ₀.scopes.current) {e : Expr}
    (he : ∀ x ∈ [e].flatMap (Expr.texts σ₀.scopes.current), x ∈ assigned) :
    (View.covers (H.sure H.id)).Supplies σ e.variables := by
  have hes := h.supplies hpart he
  rwa [List.flatMap_cons, List.flatMap_nil, List.append_nil] at hes

theorem at_depth (h : Arrived σ₀ vars assigned H σ) (n : Nat) : Arrived σ₀ vars assigned H { σ with loopDepth := n } :=
  ⟨h.typed.kept ⟨⟨rfl, rfl, rfl, rfl⟩, rfl⟩, ⟨h.able.malloc, h.able.functions⟩, h.sure, h.names⟩

theorem gives_body (h : Arrived σ₀ vars assigned H σ) (hpart : vars.Part σ₀.scopes.current) {test : Expr}
    (htest : ∀ x ∈ test.texts σ₀.scopes.current, x ∈ assigned) {cond body rest : String} (hcond : cond ∈ Block.names)
    (hbody : body ∈ Block.names) (hrest : rest ∈ Block.names) {k : TestBlocks → Lower Unit}
    {R : Unit → LowerState → Prop} (hk : ∀ blocks H' σ', Arrived σ₀ vars assigned H' σ' → Onward H σ H' σ' →
      Takes H σ H' σ' blocks.cond → Takes H σ H' σ' blocks.rest → Gives (k blocks) σ' R) :
    Gives (do let blocks ← openTest cond body rest; openBody test blocks; k blocks) σ R := by
  refine (((gives_openTest h.sure cond body rest).and ((tidy_openTest trivial hcond hbody hrest).able h.able)).and
    (h.typed.gives_keeps (keeps_openTest cond body rest))).bind ?_
  rintro blocks σ₁ ⟨⟨⟨H₁, hsure₁, hon₁, hcond, hbody, hrest⟩, hable₁, hlabels⟩, htyped₁⟩
  have h₁ : Arrived σ₀ vars assigned H₁ σ₁ := ⟨htyped₁, hable₁, hsure₁, fun x hx => hon₁.names (h.names x hx)⟩
  have htest₁ := h₁.supplies_expr hpart (e := test) (by simpa using htest)
  refine (((gives_openBody hsure₁ hable₁ hon₁ hbody hrest htest₁).and
    ((tidy_openBody trivial trivial test hlabels.1).able hable₁)).and
    (htyped₁.gives_keeps (keeps_openBody test blocks))).bind ?_
  rintro _ σ₂ ⟨⟨⟨hsure₂, hon₂, hn⟩, hable₂, -⟩, htyped₂⟩
  exact hk blocks _ σ₂ ⟨htyped₂, hable₂, hsure₂, fun x hx => hon₂.names (h.names x hx)⟩ hon₂ (hcond.at_block _ hn)
    (hrest.at_block _ hn)

theorem goes_graphics (h : Arrived σ₀ vars assigned H σ) (hpart : vars.Part σ₀.scopes.current) (op : Graphics) (span : Span)
    (htexts : ∀ x ∈ op.arguments.flatMap (Expr.texts σ₀.scopes.current), x ∈ assigned) :
    Goes H (graphics op) σ (Stmt.graphics op span).target?.toList := by
  have hes := h.supplies hpart htexts
  cases op with
  | poll => exact goes_poll h.sure h.able
  | getPixel x y name =>
    exact ((tidy_getPixel trivial trivial name (by simpa [Graphics.arguments] using hes)).fills h.fit).goes h.sure
  | init | delay | surface | pixel | present | clear | color | line | window =>
    exact ((tidy_graphics trivial trivial (by simp) hes).fills_nil h.fit).goes h.sure

end Arrived

def StmtGoes (s : Stmt) : Prop :=
  ∀ {σ₀ σ : LowerState} {vars : VarTable} {assigned : List String} {H : Heads}, Arrived σ₀ vars assigned H σ →
    (s.declare vars).Part σ₀.scopes.current → s.frees = false → (∀ x ∈ s.texts σ₀.scopes.current, x ∈ assigned) →
      s.innerAssignsFirst σ₀.scopes.current assigned = true → Goes H (stmt s) σ s.target?.toList

def BlockGoes (l : List Stmt) : Prop :=
  ∀ {σ₀ σ : LowerState} {vars : VarTable} {assigned : List String} {H : Heads}, Arrived σ₀ vars assigned H σ →
    (Stmt.declareAll vars l).Part σ₀.scopes.current → Stmt.blockFrees l = false →
      Stmt.blockAssignsFirst σ₀.scopes.current assigned l = true → Goes H (block l) σ []

theorem goes_nothing (hsure : σ.builder.Sure H) : Goes H (pure ()) σ [] := .pure ⟨H, hsure, .refl H σ, by simp⟩

theorem goes_when (test : Expr) {body : List Stmt} (hbody : BlockGoes body) (span : Span) :
    StmtGoes (.when test body span) := by
  intro σ₀ σ vars assigned H h hpart hfrees htexts hinner
  rw [stmt_when]
  have hvars := (Stmt.part_declareAll body vars).trans hpart
  refine h.gives_body hvars (fun x hx => htexts x (by simpa [Stmt.texts, Stmt.expressions] using hx)) (by decide) (by decide)
    (by decide) ?_
  intro blocks H₁ σ₁ h₁ hon₁ _ hrest
  refine (hbody h₁ hpart hfrees hinner).bind ?_
  rintro _ σ₂ ⟨H₂, hsure₂, hon₂, -⟩
  have hrest := hrest.onward hon₂
  have hjump := gives_jump (t := .br blocks.rest) (hon₁.trans hon₂) hsure₂ (by simpa [Terminator.successors] using hrest)
    (by simp) hrest blocks.restLabel
  refine hjump.imp ?_
  rintro _ _ ⟨hsure₃, hon₃, -⟩
  exact ⟨_, hsure₃, hon₃, by simp [Stmt.target?]⟩

theorem goes_loop (test : Expr) {body : List Stmt} (hbody : BlockGoes body) (span : Span) :
    StmtGoes (.loop test body span) := by
  intro σ₀ σ vars assigned H h hpart hfrees htexts hinner
  rw [stmt_loop]
  have hvars := (Stmt.part_declareAll body vars).trans hpart
  refine h.gives_body hvars (fun x hx => htexts x (by simpa [Stmt.texts, Stmt.expressions] using hx)) (by decide) (by decide)
    (by decide) ?_
  intro blocks H₁ σ₁ h₁ hon₁ hcond hrest
  refine Gives.bind (.modify (Q := fun _ σ₂ => σ₂ = { σ₁ with loopDepth := σ₁.loopDepth + 1 }) rfl) ?_
  rintro _ _ rfl
  refine (hbody (h₁.at_depth _) hpart hfrees hinner).bind ?_
  rintro _ σ₂ ⟨H₂, hsure₂, hon₂, -⟩
  refine Gives.bind (.modify (Q := fun _ σ₃ => σ₃ = { σ₂ with loopDepth := σ₂.loopDepth - 1 }) rfl) ?_
  rintro _ _ rfl
  have hon₃ := (((Onward.refl H₁ σ₁).at_depth _).trans hon₂).at_depth (σ₂.loopDepth - 1)
  have hjump := gives_jump (t := .br blocks.cond) (hon₁.trans hon₃) hsure₂
    (by simpa [Terminator.successors] using hcond.onward hon₃) (by simp) (hrest.onward hon₃) blocks.restLabel
  refine hjump.imp ?_
  rintro _ _ ⟨hsure₄, hon₄, -⟩
  exact ⟨_, hsure₄, hon₄, by simp [Stmt.target?]⟩

theorem goes_cons {s : Stmt} {rest : List Stmt} (hs : StmtGoes s) (hrest : BlockGoes rest) : BlockGoes (s :: rest) := by
  intro σ₀ σ vars assigned H h hpart hfrees hassigns
  obtain ⟨hfrees, hfreesRest⟩ := Bool.or_eq_false_iff.1 hfrees
  obtain ⟨hfirst, hassignsRest⟩ := Bool.and_eq_true_iff.1 hassigns
  obtain ⟨htexts, hinner⟩ := Bool.and_eq_true_iff.1 hfirst
  have htexts : ∀ x ∈ s.texts σ₀.scopes.current, x ∈ assigned := by simpa using htexts
  have hpartFirst : (s.declare vars).Part σ₀.scopes.current := (Stmt.part_declareAll rest (s.declare vars)).trans hpart
  refine (((hs h hpartFirst hfrees htexts hinner).and (follows_stmt s h.typed hpartFirst)).and
    ((tidy_stmt (View.whole_acts true) s (fun _ => trivial) fun _ => rfl).able h.able)).bind ?_
  rintro _ σ₁ ⟨⟨⟨H₁, hsure₁, hon₁, hnames₁⟩, htyped₁⟩, hable₁, -⟩
  have h₁ : Arrived σ₀ (s.declare vars) (s.target?.toList ++ assigned) H₁ σ₁ :=
    ⟨htyped₁, hable₁, hsure₁, List.forall_mem_append.2 ⟨hnames₁, fun x hx => hon₁.names (h.names x hx)⟩⟩
  refine (hrest h₁ hpart hfreesRest hassignsRest).imp ?_
  rintro _ σ₂ ⟨H₂, hsure₂, hon₂, -⟩
  exact ⟨H₂, hsure₂, hon₁.trans hon₂, by simp⟩

mutual

theorem goes_stmt : ∀ s : Stmt, StmtGoes s
  | .make name value span => by
    intro h hpart _ htexts _
    have hvars := (Stmt.part_declare (.make name value span) _).trans hpart
    exact (fills_make h.fit name (h.supplies_expr hvars htexts)).goes h.sure
  | .assign name value _ => by
    intro h hpart _ htexts _
    exact ((tidy_assign trivial name (h.supplies_expr hpart htexts)).fills h.fit).goes h.sure
  | .makeArray name size span => by
    intro h hpart _ htexts _
    have hvars := (Stmt.part_declare (.makeArray name size span) _).trans hpart
    exact (fills_makeArray h.fit name (h.supplies_expr hvars htexts)).goes h.sure
  | .assignArray name position value _ => by
    intro h hpart _ htexts _
    have hes := h.supplies hpart htexts
    simp only [Stmt.expressions, List.flatMap_cons, List.flatMap_nil, List.append_nil, View.supplies_append] at hes
    exact ((tidy_assignArray trivial name hes.1 hes.2).fills_nil h.fit).goes h.sure
  | .print value _ => by
    intro h hpart _ htexts _
    exact ((tidy_print trivial (h.supplies_expr hpart htexts)).fills_nil h.fit).goes h.sure
  | .free _ _ => by
    intro _ _ hfrees
    cases hfrees
  | .func _ _ _ _ => fun h _ _ _ _ => goes_nothing h.sure
  | .ret name _ => by
    intro h hpart _ htexts _
    refine goes_ret h.sure h.able (h.typed.agrees_scope hpart) fun htext => h.names _ (htexts _ ?_)
    simp [Stmt.texts, htext]
  | .call callee args result _ => by
    intro h hpart _ htexts _
    have hcall := ((tidy_call trivial callee result (h.supplies hpart htexts)).fills h.fit).goes h.sure
    cases result <;> exact hcall
  | .graphics op span => fun h hpart _ htexts _ => h.goes_graphics hpart op span htexts
  | .when test body span => goes_when test (goes_block body) span
  | .loop test body span => goes_loop test (goes_block body) span

theorem goes_block : ∀ l : List Stmt, BlockGoes l
  | [] => fun h _ _ _ => goes_nothing h.sure
  | s :: rest => goes_cons (goes_stmt s) (goes_block rest)

end

/-! ## Routines -/

theorem fills_bindParams {S : Register → Prop} (names : List Ident) : ∀ (tys : List Ty) (regs : List Register)
    {σ : LowerState}, names.length = tys.length → tys.length = regs.length → (View.covers S).Fit σ →
      (∀ r ∈ regs, σ.builder.Solid S (.register r)) → Fills S (bindParams names tys regs) σ (names.map Ident.name) := by
  induction names with
  | nil =>
    intro tys regs σ _ _ hσ _
    unfold bindParams
    exact .pure ⟨hσ, ⟨.refl _, fun _ _ hx => hx⟩, by simp⟩
  | cons name names ih =>
    intro tys regs σ hnames htys hσ hregs
    obtain ⟨ty, tys, rfl⟩ := List.exists_cons_of_length_eq_add_one hnames.symm
    obtain ⟨reg, regs, rfl⟩ := List.exists_cons_of_length_eq_add_one htys.symm
    obtain ⟨hreg, hregs⟩ := List.forall_mem_cons.1 hregs
    unfold bindParams
    refine (gives_grows_declareSlot hσ name _).bind ?_
    rintro ⟨slot, redeclared⟩ σ₁ ⟨hfit₁, hgrows₁, hslot⟩
    have hsolid := hreg.grows hgrows₁.builder
    refine (fills_storeSlot hfit₁ ?_ hslot redeclared).bind ?_
    · cases ty with
      | int => exact (View.has_lowered_int _).2 hsolid
      | string => exact (View.has_lowered_text _).2 ⟨hsolid, fun h => by cases h⟩
    rintro _ σ₂ ⟨hfit₂, hgrows₂, hname⟩
    have hgrows := hgrows₁.trans hgrows₂
    refine (ih tys regs (Nat.succ.inj hnames) (Nat.succ.inj htys) hfit₂
      fun r hr => (hregs r hr).grows hgrows.builder).imp ?_
    rintro _ σ₃ ⟨hfit₃, hgrows₃, hfilled⟩
    refine ⟨hfit₃, hgrows.trans hgrows₃, List.forall_mem_cons.2 ⟨?_, hfilled⟩⟩
    exact (hname name.name (by simp)).grows hgrows₃

theorem gives_sure_openFunction (hrests : σ.builder.Rests) (hable : σ.Able) (sigs : Signatures) (f : FuncDecl) :
    Gives (openFunction sigs f) σ fun p σ' => σ'.Able ∧ ∃ H, σ'.builder.Sure H ∧
      ∀ r ∈ p.2, σ'.builder.Solid (H.sure H.id) (.register r) := by
  refine (gives_functionInfo f.name).bind ?_
  rintro info σ ⟨rfl, -⟩
  refine ((Gives.of_ensures (hrests.startRoutine _ _ _)).and
    (able_startRoutine hable (machineType_ne_void info.ret) _ _)).bind ?_
  rintro regs σ₁ ⟨⟨H, hsure, hregs⟩, hable₁⟩
  refine Gives.bind (.modify (Q := fun _ σ₂ => σ₂.builder = σ₁.builder ∧ σ₂.Able)
    ⟨rfl, hable₁.malloc, hable₁.functions⟩) ?_
  rintro _ σ₂ ⟨hbuilder, hable₂⟩
  rw [← hbuilder] at hsure hregs
  exact .pure ⟨hable₂, H, hsure, hregs⟩

theorem gives_sure_openTop (hrests : σ.builder.Rests) (hable : σ.Able) (p : Program) :
    Gives (openTop p) σ fun _ σ' => σ'.Able ∧ ∃ H, σ'.builder.Sure H := by
  refine ((Gives.of_ensures (hrests.startRoutine _ _ _)).and (able_startRoutine hable (by simp) _ _)).bind ?_
  rintro regs σ₁ ⟨⟨H, hsure, -⟩, hable₁⟩
  exact .modify ⟨⟨hable₁.malloc, hable₁.functions⟩, H, hsure⟩

theorem gives_ended_implicitReturn (hsure : σ.builder.Sure H) (hable : σ.Able) (ret : Ty) :
    Gives (implicitReturn ret) σ fun _ σ' => σ'.builder.Ended H := by
  refine .get_bind ?_
  split
  · exact .build (hsure.terminate (by simp [Terminator.successors]) (by simp)).1
  · refine ((tidy_releaseLocals none).covered ⟨hable, hsure.reads⟩).bind ?_
    rintro _ σ₁ ⟨h₁, hfit₁, -⟩
    split
    · exact .build ((h₁.sure hsure).terminate (by simp [Terminator.successors]) (by simp)).1
    · refine ((Builder.tidy_stringConstant "").covered hfit₁).bind ?_
      rintro empty σ₂ ⟨h₂, hfit₂, hempty⟩
      refine ((Builder.tidy_copyText hempty.1).gives hfit₂).bind ?_
      rintro v σ₃ ⟨h₃, hv⟩
      refine .build (((h₁.trans (h₂.trans h₃)).sure hsure).terminate (by simp [Terminator.successors]) fun w hw => ?_).1
      cases hw
      exact hv.1

theorem gives_rests_finish (hended : σ.builder.Ended H) :
    Gives (build Builder.finishRoutine) σ fun _ σ' => σ'.builder.Rests :=
  .of_ensures hended.finishRoutine

theorem gives_rests_end (hsure : σ.builder.Sure H) (hable : σ.Able) (ret : Ty) : Gives (do
    unless (← get).builder.isTerminated do implicitReturn ret
    build Builder.finishRoutine
    leaveFunction) σ fun _ σ' => σ'.builder.Rests := by
  have hopen : σ.builder.isTerminated = false := by
    obtain ⟨k, hk, hterm⟩ := hsure.reads.block
    simp only [Builder.isTerminated, hk, hterm, Option.isSome_none]
  refine .get_bind ?_
  rw [hopen]
  refine (gives_ended_implicitReturn hsure hable ret).bind fun _ σ₁ hended => ?_
  exact (gives_rests_finish hended).bind fun _ σ₂ hrests => .modify hrests

theorem gives_rests_endTop (hsure : σ.builder.Sure H) : Gives (do
    if (← get).afterReturn then build Builder.unreachable
    else build (Builder.ret (some (.i32, .int 0)))
    build Builder.finishRoutine) σ fun _ σ' => σ'.builder.Rests := by
  refine .get_bind ?_
  split
  · refine (Gives.of_ensures (hsure.terminate (t := .unreachable) (by simp [Terminator.successors]) (by simp))).bind ?_
    exact fun _ σ₁ h₁ => gives_rests_finish h₁.1
  · refine (Gives.of_ensures (hsure.terminate (t := .ret (some (.i32, .int 0))) (by simp [Terminator.successors])
      (by simp))).bind ?_
    exact fun _ σ₁ h₁ => gives_rests_finish h₁.1

end Lower

namespace Program
variable {p : Program} {sigs : Signatures} {options : LowerOptions} {withGraphics : Bool}

open Lower

/-- **The routine of a function whose texts are assigned is sure.** -/
theorem gives_rests_function {before after : List FuncDecl} {f : FuncDecl} {σ₀ : LowerState}
    (hgraphics : declaresGraphics options.graphics p = .ok withGraphics) (hfunctions : p.functions = before ++ f :: after)
    (hbefore : (openProgram p sigs withGraphics before).run (initial options) = .ok ((), σ₀)) (hfrees : p.frees = false)
    (hassigns : Stmt.blockAssignsFirst (f.scope sigs) (f.params.map Ident.name) f.body = true) (hrests : σ₀.builder.Rests) :
    Gives (function sigs f) σ₀ fun _ σ => σ.builder.Rests := by
  have hf : f ∈ p.functions := by simp [hfunctions]
  have hable : σ₀.Able := by
    have hknown : ∀ f' ∈ before, f' ∈ p.functions := fun f' hf' => by simp [hfunctions, hf']
    obtain ⟨es, signature, hcore, hd, hidle⟩ := (ensures_openProgram p sigs options hgraphics hknown).of_ok hbefore
    exact hd.able hcore hidle.signatures
  rw [function_eq]
  intro _ σ' hrun
  obtain ⟨⟨info, regs⟩, σ₁, hopen, hrun⟩ := exists_of_run_bind hrun
  obtain ⟨hparams, hnames, hregs, hstart, hbody⟩ := opens_function hgraphics hfunctions hbefore hopen
  obtain ⟨hable₁, H, hsure, hsolid⟩ := gives_sure_openFunction hrests hable sigs f _ _ hopen
  obtain ⟨_, σ₂, hbind, hrun⟩ := exists_of_run_bind hrun
  obtain ⟨hfit₂, hgrows₂, hfilled⟩ :=
    fills_bindParams f.params info.params regs hnames hregs ⟨hable₁, hsure.reads⟩ hsolid _ _ hbind
  have htyped := hstart.gives_bindParams f.params info.params regs hnames hregs _ _ hbind
  rw [hparams] at htyped
  have harrived : Arrived σ₁ (f.paramTable sigs) (f.params.map Ident.name) H σ₂ :=
    ⟨htyped, hfit₂.1, hsure.grows hgrows₂.builder hfit₂.2, hfilled⟩
  rw [← hbody.scope] at hassigns
  obtain ⟨_, σ₃, hblock, hrun⟩ := exists_of_run_bind hrun
  have hpart : (Stmt.declareAll (f.paramTable sigs) f.body).Part σ₁.scopes.current := by
    rw [hbody.scope]
    exact fun _ _ h => h
  have hkeeps := Stmt.blockFrees_of_functions p.statements hfrees hf
  obtain ⟨H₃, hsure₃, -, -⟩ := goes_block f.body harrived hpart hkeeps hassigns _ _ hblock
  have hable₃ := ((acts_block f.body fun _ => rfl).able harrived.able _ _ hblock).1
  exact gives_rests_end hsure₃ hable₃ info.ret _ _ hrun

theorem gives_rests_topLevel {σ₀ : LowerState} (hgraphics : declaresGraphics options.graphics p = .ok withGraphics)
    (hbefore : (openProgram p sigs withGraphics p.functions).run (initial options) = .ok ((), σ₀)) (hfrees : p.frees = false)
    (hassigns : Stmt.blockAssignsFirst (Stmt.declareAll Table.empty p.statements) [] p.statements = true)
    (hrests : σ₀.builder.Rests) : Gives (topLevel p) σ₀ fun _ σ => σ.builder.Rests := by
  obtain ⟨es, signature, hcore, hd, hidle⟩ := (ensures_openProgram p sigs options hgraphics fun _ h => h).of_ok hbefore
  rw [topLevel_eq]
  refine ((gives_openTop hd hidle p).and (gives_sure_openTop hrests (hd.able hcore hidle.signatures) p)).bind ?_
  rintro _ σ₁ ⟨⟨hframes, hbody⟩, hable₁, H, hsure⟩
  rw [← hbody.scope] at hassigns
  have hpart : (Stmt.declareAll Table.empty p.statements).Part σ₁.scopes.current := by
    rw [hbody.scope]
    exact fun _ _ h => h
  have harrived : Arrived σ₁ Table.empty [] H σ₁ := ⟨.start hframes, hable₁, hsure, by simp⟩
  refine (goes_block p.statements harrived hpart hfrees hassigns).bind ?_
  rintro _ σ₂ ⟨H₂, hsure₂, -, -⟩
  exact gives_rests_endTop hsure₂

theorem gives_rests_openProgram_nil (p : Program) (sigs : Signatures) (options : LowerOptions) (withGraphics : Bool) :
    Gives (openProgram p sigs withGraphics []) (initial options) fun _ σ => σ.builder.Rests := by
  refine (gives_opening p sigs options withGraphics).imp ?_
  rintro _ σ ⟨-, h⟩
  exact ⟨h.routine, h.block, fun r hr => ⟨fun _ _ => False, by simp, by simp [h.routines r hr]⟩⟩

theorem gives_rests_openProgram (hgraphics : declaresGraphics options.graphics p = .ok withGraphics)
    (hfrees : p.frees = false) (hassigns : p.assignsFirst sigs = true) (fs : List FuncDecl) :
    ∀ after, p.functions = fs ++ after →
      Gives (openProgram p sigs withGraphics fs) (initial options) fun _ σ => σ.builder.Rests := by
  induction fs using List.reverseRecOn with
  | nil => exact fun _ _ => gives_rests_openProgram_nil p sigs options withGraphics
  | append_singleton fs f ih =>
    intro after hfunctions
    have hfunctions : p.functions = fs ++ f :: after := by rw [hfunctions, List.append_assoc]; rfl
    have hf : Stmt.blockAssignsFirst (f.scope sigs) (f.params.map Ident.name) f.body = true :=
      List.all_eq_true.1 (Bool.and_eq_true_iff.1 hassigns).2 f (by simp [hfunctions])
    rw [openProgram_append]
    intro _ σ' hrun
    obtain ⟨_, σ, hbefore, hrun⟩ := exists_of_run_bind hrun
    obtain ⟨_, σ₁, hfunction, hrun⟩ := exists_of_run_bind hrun
    cases hrun
    exact gives_rests_function hgraphics hfunctions hbefore hfrees hf (ih _ hfunctions _ _ hbefore) _ _ hfunction

/-- **The code of a program that assigns its texts first fills before it reads**, in every run. -/
theorem fillsFirst_of_lower {a : Assembly} (h : p.lower sigs options = .ok a) (hfrees : p.frees = false)
    (hassigns : p.assignsFirst sigs = true) (ws : List Answer) : a.FillsFirst ws := by
  obtain ⟨withGraphics, σ, hgraphics, hrun, rfl⟩ := exists_run_of_lower h
  rw [program_eq] at hrun
  obtain ⟨_, σ₀, hbefore, htop⟩ := exists_of_run_bind hrun
  have hrests₀ := gives_rests_openProgram hgraphics hfrees hassigns p.functions [] (by simp) _ _ hbefore
  have hrests := gives_rests_topLevel hgraphics hbefore hfrees (Bool.and_eq_true_iff.1 hassigns).1 hrests₀ _ _ htop
  refine Assembly.fillsFirst_of_sure ?_ ws
  unfold Builder.finish
  rw [Builder.closeRoutine_of_none hrests.routine hrests.block]
  exact hrests.routines

end Program
end QuillLang
