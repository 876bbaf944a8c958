import QuillLang.Proofs.MemorySafety
import QuillLang.Proofs.Texts.Expr
import QuillLang.Proofs.Texts.Points
/-!
# The values of expressions

Wherever lowering comes to an expression, the code that it emits computes the value of the expression, and on the heap it
leaves nothing behind but an owned result.  This is said of any machine that stands before the code and whose slots hold
what the expression reads.
-/
namespace QuillLang

namespace Machine

def Addresses (m : Machine) (F : Frame) : Prop :=
  ∀ slot ∈ F, m.running.registers slot.register = some (.ptr (.slot m.running.id slot.register))

def Yields (a : Assembly) (m : Machine) : Lowered → Datum → Prop
  | .int o, .number n => m.eval a .i64 o = .ok (.i64 n)
  | .bool o, .outcome c => m.eval a .i1 o = .ok (.i1 c)
  | .text t, .text s => ∃ p, m.eval a .ptr t.value = .ok (.ptr p) ∧ m.text a p = .ok s
  | _, _ => False

/-- Code that began at `m` has come to `m'` with the value `v` of an expression, which stands for `d`. -/
structure Evaluates (a : Assembly) (m : Machine) (v : Lowered) (d : Datum) (m' : Machine) : Prop where
  value : m'.Yields a v d
  slots : m'.slots = m.slots
  output : m'.output = m.output
  callers : m'.callers = m.callers
  /-- No block that was there is changed or freed. -/
  kept : m.heap <+: m'.heap
  /-- The one live block that was not there is that of an owned result. -/
  added : ∀ b, (m.heap.length ≤ b ∧ ∃ k, m'.heap[b]? = some k ∧ k.live = true) ↔
    ∃ o, v = .text (.owned o) ∧ m'.eval a .ptr o = .ok (.ptr (.heap b 0))
  room : ∀ b k, m.heap.length ≤ b → m'.heap[b]? = some k → k.live = true → k.text.length < k.size

variable {a : Assembly} {m m' : Machine} {n₀ n : Nat} {v : Lowered} {d : Datum} {F : Facts} {ps : List Piece}

theorem InHand.yields (h : InHand a m n₀ F ps n m') (hv : v.Shows a m d F ps) : m'.Yields a v d := by
  cases hv with
  | int o z => exact h.eval (.fact List.mem_cons_self)
  | bool o c => exact h.eval (.fact List.mem_cons_self)
  | borrowed o text => exact ⟨_, h.eval (.fact List.mem_cons_self), h.text_of_base text⟩
  | owned o text room => exact ⟨_, h.eval (.fact List.mem_cons_self), text ▸ h.text_of_piece List.mem_cons_self⟩

theorem InHand.added_iff (h : InHand a m n₀ F ps n m') (hv : v.Shows a m d F ps) (b : Nat) :
    (m.heap.length ≤ b ∧ ∃ k, m'.heap[b]? = some k ∧ k.live = true) ↔
      ∃ o, v = .text (.owned o) ∧ m'.eval a .ptr o = .ok (.ptr (.heap b 0)) := by
  -- the live blocks beyond the earlier ones are the pieces, and only an owned result has one
  have honly : (m.heap.length ≤ b ∧ ∃ k, m'.heap[b]? = some k ∧ k.live = true) ↔ b ∈ ps.map Piece.block := by
    constructor
    · rintro ⟨hb, k, hk, hlive⟩
      exact h.heap.only b k hb hk hlive
    · intro hb
      obtain ⟨q, hq, rfl⟩ := List.mem_map.1 hb
      obtain ⟨k, hk, hlive, -⟩ := h.heap.there q hq
      exact ⟨h.heap.later q hq, k, hk, hlive⟩
  rw [honly]
  cases hv with
  | int | bool | borrowed => simp
  | @owned o q s text room =>
    have heval : m'.eval a .ptr o = .ok (.ptr (.heap q.block 0)) := h.eval (.fact List.mem_cons_self)
    constructor
    · intro hb
      obtain rfl : b = q.block := by simpa using hb
      exact ⟨o, rfl, heval⟩
    · rintro ⟨o', ho, hb⟩
      cases ho
      rw [heval] at hb
      cases hb
      exact List.mem_cons_self

theorem Has.evaluates (h : Has a m n₀ v d [] [] n m') : m.Evaluates a v d m' := by
  obtain ⟨⟨F, ps⟩, hv, hm⟩ := h
  simp only [List.append_nil] at hv hm
  refine ⟨hm.yields hv, hm.slots_eq, ?_, ?_, hm.heap.kept, hm.added_iff hv, fun b k hb hk hlive => ?_⟩
  · rw [hm.frame]
  · rw [hm.frame]
  · have hmem := hm.heap.only b k hb hk hlive
    cases hv with
    | int | bool | borrowed => cases hmem
    | @owned o q s text room =>
      obtain rfl : b = q.block := by simpa using hmem
      obtain ⟨k', hk', -, hsize, htext⟩ := hm.heap.there q List.mem_cons_self
      obtain rfl : k = k' := Option.some.inj (hk.symm.trans hk')
      rw [htext, hsize, text]
      exact room

end Machine

namespace Program
variable {p : Program} {sigs : Signatures} {options : LowerOptions} {owner : Option FuncDecl} {e : Expr} {v : Lowered}
  {σ σ' : LowerState}

/-- **The code of an expression computes its value and is neutral on the heap.**  Lowering an expression whose texts have no
zero characters emits straight code.  Let a machine stand before it, in an assembly with the library and the constants, with
slots in which the expression has a value.  Whatever the world answers, the code runs to its end without a fault and gives
that value.  No slot and no block that was there is changed, the one block that is left is that of an owned result, and all
that is written on the way is inside its block. -/
theorem expr_evaluates (hvisits : p.Visits sigs options owner (.expr e) σ) (hrun : (Lower.expr e).run σ = .ok (v, σ'))
    (hnul : ∀ s ∈ e.literals, '\x00' ∉ s.toList) :
    ∃ is, σ'.builder.code = σ.builder.code ++ is ∧
      ∀ (a : Assembly) (m : Machine) (rest : List Instr) (d : Datum), a.Supports →
        (∀ g ∈ σ'.builder.assembly.globals, g ∈ a.globals) → m.running.rest = is ++ rest →
        m.Addresses σ.frames.current → m.datum? σ.frames e = some d →
          m.Proceeds a is.length fun m' => m'.running.rest = rest ∧ m.Evaluates a v d m' := by
  have hpoised := hvisits.poised
  have hemits : Lower.Emits (Lower.expr e) := .of_tidy fun _ => Lower.tidy_expr trivial e (View.straight_supplies _)
  obtain ⟨is, his⟩ := (hemits σ _ _ hrun).2.code
  refine ⟨is, his.symm, fun a m rest d ha hglobals hrest haddresses hd => ?_⟩
  have hplaced : Lower.Placed σ.frames σ.builder.nextRegister m :=
    fun slot hslot => ⟨hpoised.below slot hslot, haddresses slot hslot⟩
  have hbrings : Lower.Brings σ.frames a (m.InHand a σ.builder.nextRegister [] []) (Lower.expr e) _ :=
    Lower.brings_expr ha hplaced e hnul hd
  have hcarries := hbrings.carries σ hpoised.primed rfl _ _ hrun hglobals m rest
  rw [Builder.codeTo_of_append his.symm] at hcarries
  -- at the start there is nothing in hand, so at the end there is the value alone
  exact (hcarries hrest (.start a m _)).imp fun m' hm' => ⟨hm'.1, hm'.2.evaluates⟩

def joinedValue : Expr :=
  let here : Span := ⟨⟨1, 1, 0⟩, ⟨1, 1, 0⟩⟩
  .binary .add (.binary .add (.var "s" here) (.number 7 here) here)
    (.binary .lt (.var "s" here) (.string "b" here) here) here

def joinedText : Stmt :=
  let here : Span := ⟨⟨1, 1, 0⟩, ⟨1, 1, 0⟩⟩
  .make ⟨"s", here⟩ (.string "ab" here) here

def joined : Program :=
  let here : Span := ⟨⟨1, 1, 0⟩, ⟨1, 1, 0⟩⟩
  ⟨[joinedText, .assign ⟨"s", here⟩ joinedValue here], here⟩

def openJoined : Lower Unit := do
  Lower.openProgram joined (Signatures.infer joined) false joined.functions
  Lower.openTop joined
  Lower.stmt joinedText

/-- The program itself comes, after seven steps, to a machine at which the code of the expression joins `ab`, `7` and `1`. -/
theorem joined_evaluates : ∃ a σ σ' v is rest m,
    joined.lower (Signatures.infer joined) .standard = .ok a ∧
    joined.Visits (Signatures.infer joined) .standard none (.expr joinedValue) σ ∧
    (Lower.expr joinedValue).run σ = .ok (v, σ') ∧ σ'.builder.code = σ.builder.code ++ is ∧
    a.run (List.replicate 7 .quiet) = .ok m ∧ m.running.rest = is ++ rest ∧
    m.Proceeds a is.length fun m' => m'.running.rest = rest ∧ m.Evaluates a v (.text (Utf8.bytes "ab71")) m' := by
  have hany : (openJoined.run (Lower.initial .standard)).toOption.any fun before =>
      ((Lower.expr joinedValue).run before.2).toOption.any fun after =>
      (joined.lower (Signatures.infer joined) .standard).toOption.any fun a =>
      (a.run (List.replicate 7 .quiet)).toOption.any fun m =>
        decide ((∀ e ∈ External.core, (a.routine? e.name).any Routine.isExternal = true) ∧
          (a.globals.map Global.name).Nodup ∧ (∀ g ∈ after.2.builder.assembly.globals, g ∈ a.globals) ∧
          after.2.builder.code.drop before.2.builder.code.length <+: m.running.rest ∧
          (∀ slot ∈ before.2.frames.current,
            m.running.registers slot.register = some (.ptr (.slot m.running.id slot.register))) ∧
          m.datum? before.2.frames joinedValue = some (.text (Utf8.bytes "ab71"))) := by
    decide +kernel
  obtain ⟨⟨_, σ⟩, hbefore, hany⟩ := exists_of_any hany
  obtain ⟨⟨v, σ'⟩, hexpr, hany⟩ := exists_of_any hany
  obtain ⟨a, ha, hany⟩ := exists_of_any hany
  obtain ⟨m, hm, hany⟩ := exists_of_any hany
  obtain ⟨hlibrary, hdistinct, hglobals, ⟨rest, hrest⟩, haddresses, hd⟩ := of_decide_eq_true hany
  obtain ⟨_, σ₁, hopen, hbefore⟩ := Lower.exists_of_run_bind hbefore
  obtain ⟨_, σ₂, htop, hmake⟩ := Lower.exists_of_run_bind hbefore
  have hstmt := ((Visits.top rfl hopen htop).inside (.later hmake)).inside (.first _ _ σ)
  have hvisits := hstmt.inside (.value (e := joinedValue) rfl)
  obtain ⟨is, his, heval⟩ := expr_evaluates hvisits hexpr (by decide +kernel)
  have hcode : is ++ rest = m.running.rest := by
    rw [his, List.drop_left] at hrest
    exact hrest
  have hsupports : a.Supports := ⟨fun e he => (Option.any_eq_true _ _).1 (hlibrary e he), hdistinct⟩
  exact ⟨a, σ, σ', v, is, rest, m, ha, hvisits, hexpr, his, hm, hcode.symm,
    heval a m rest _ hsupports hglobals hcode.symm haddresses hd⟩

end Program
end QuillLang
