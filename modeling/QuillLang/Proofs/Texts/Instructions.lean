import QuillLang.Proofs.Texts.InHand
/-!
# The instructions of an expression

One rule for each instruction that code for expressions is made of.  Arithmetic, loads and calls that only read add a fact;
`malloc` adds a piece, `strcpy`, `strcat` and `sprintf` fill the newest one, and `free` gives one back.
-/
namespace QuillLang

/-- An assembly that code for expressions can be run in: the library is there, and constants go by different names. -/
structure Assembly.Supports (a : Assembly) : Prop where
  library : ∀ e ∈ External.core, ∃ f, a.routine? e.name = some f ∧ f.isExternal = true
  distinct : (a.globals.map Global.name).Nodup

namespace Machine
variable {a : Assembly} {w : Answer} {m m' : Machine}

theorem staysInside_of_target {i : Instr} {rest : List Instr} (hrest : m.running.rest = i :: rest)
    (h : i.operation.target? = none) : m.StaysInside a m' := by
  intro i' rest' v hi hv
  rw [hrest] at hi
  cases hi
  rw [h] at hv
  cases hv

theorem rest_finish {i : Instr} {rest : List Instr} (hrest : m.running.rest = i :: rest) (result : Option Register)
    (v : Value) : (m.finish result v).running.rest = rest :=
  congrArg List.tail hrest

abbrev Evals (a : Assembly) (m : Machine) : List (MachineType × Operand) → List Value → Prop :=
  List.Forall₂ fun x v => m.eval a x.1 x.2 = .ok v

theorem mapM_eval {args : List (MachineType × Operand)} {vs : List Value} (h : Evals a m args vs) :
    (args.mapM fun x => m.eval a x.1 x.2) = .ok vs := by
  induction h with
  | nil => rfl
  | cons hx _ ih =>
    rw [List.mapM_cons, hx, ih]
    rfl

theorem perform_external (ha : a.Supports) {e : External} (he : e ∈ External.core) {args : List (MachineType × Operand)}
    {vs : List Value} (hargs : Evals a m args vs) (result : Option Register) (ret : MachineType)
    (variadic : Option (List MachineType)) :
    m.perform a w ⟨result, .call e.name ret args variadic⟩ = m.callExternal a w result e.name ret vs := by
  obtain ⟨f, hf, hext⟩ := ha.library e he
  show m.call a w result e.name ret args = _
  rw [call_external hf hext, mapM_eval hargs]
  rfl

end Machine

namespace Builder
open Build Machine
variable {a : Assembly} {m₀ : Machine} {n₀ : Nat} {F : Facts} {ps : List Piece}

/-! ## Values -/

theorem brings_value {operation : Operation} {v : Value} (htarget : operation.target? = none)
    (h : ∀ n m w r, InHand a m₀ n₀ F ps n m → m.perform a w ⟨some r, operation⟩ = .ok (m.finish (some r) v)) :
    Brings a (InHand a m₀ n₀ F ps) (emitResult operation) fun o => InHand a m₀ n₀ ((o, v) :: F) ps := by
  refine brings_emitResult fun n m rest w hrest hm => ?_
  exact ⟨_, h n m w _ hm, staysInside_of_target hrest htarget, rest_finish hrest _ v, hm.finish v⟩

theorem brings_intOp {op : ArithOp} {l r : Operand} {x y z : Int64} (hl : F.Yield l (.i64 x)) (hr : F.Yield r (.i64 y))
    (hop : ∀ w, op.apply w x y = z) :
    Brings a (InHand a m₀ n₀ F ps) (intOp op l r) fun o => InHand a m₀ n₀ ((o, .i64 z) :: F) ps := by
  refine brings_value rfl fun n m w r hm => ?_
  have hx : m.eval a .i64 l = .ok (.i64 x) := hm.eval hl
  have hy : m.eval a .i64 _ = .ok (.i64 y) := hm.eval hr
  simp [perform, hx, hy, Value.arith, hop, bind, Except.bind]

theorem brings_compare {op : CompareOp} {l r : Operand} {x y : Int64} (hl : F.Yield l (.i64 x)) (hr : F.Yield r (.i64 y)) :
    Brings a (InHand a m₀ n₀ F ps) (compare op .i64 l r) fun o =>
      InHand a m₀ n₀ ((o, .i1 (op.holds x.toInt y.toInt)) :: F) ps := by
  refine brings_value rfl fun n m w r hm => ?_
  have hx : m.eval a .i64 l = .ok (.i64 x) := hm.eval hl
  have hy : m.eval a .i64 _ = .ok (.i64 y) := hm.eval hr
  simp [perform, hx, hy, Value.compare, bind, Except.bind]

theorem brings_compareSign {op : CompareOp} {o : Operand} {x : Int32} (ho : F.Yield o (.i32 x)) :
    Brings a (InHand a m₀ n₀ F ps) (compare op .i32 o (.int 0)) fun o =>
      InHand a m₀ n₀ ((o, .i1 (op.holds x.toInt 0)) :: F) ps := by
  refine brings_value rfl fun n m w r hm => ?_
  have hx : m.eval a .i32 o = .ok (.i32 x) := hm.eval ho
  have hzero : m.eval a .i32 (.int 0) = .ok (.i32 0) := rfl
  simp [perform, hx, hzero, Value.compare, bind, Except.bind]

theorem brings_widen {o : Operand} {c : Bool} (ho : F.Yield o (.i1 c)) :
    Brings a (InHand a m₀ n₀ F ps) (cast .zext o .i1 .i64) fun o =>
      InHand a m₀ n₀ ((o, .i64 (if c then 1 else 0)) :: F) ps := by
  refine brings_value rfl fun n m w r hm => ?_
  have hx : m.eval a .i1 o = .ok (.i1 c) := hm.eval ho
  simp [perform, hx, Value.cast, bind, Except.bind]

theorem brings_loadSlot {s : Register} {v : Value} (hbelow : s.index < n₀)
    (hregister : m₀.running.registers s = some (.ptr (.slot m₀.running.id s)))
    (hslot : m₀.slots m₀.running.id s = some v) :
    Brings a (InHand a m₀ n₀ F ps) (load v.type (.register s)) fun o => InHand a m₀ n₀ ((o, v) :: F) ps := by
  refine brings_value rfl fun n m w r hm => ?_
  have haddress : m.running.registers s = some (.ptr (.slot m₀.running.id s)) := (hm.registers s hbelow).trans hregister
  have hvalue : m.slots m₀.running.id s = some v := by
    rw [hm.slots_eq]
    exact hslot
  simp only [perform, pointer_register haddress]
  show (m.read v.type (.slot m₀.running.id s) >>= fun v => Except.ok (m.finish (some r) v)) = _
  rw [read_slot hvalue]
  rfl

theorem brings_element {base index : Operand} {p : Pointer} {i : Int64} (hbase : F.Yield base (.ptr p))
    (hindex : F.Yield index (.i64 i)) :
    Brings a (InHand a m₀ n₀ F ps) (element .i64 base index) fun o => InHand a m₀ n₀ ((o, .ptr (p.element i)) :: F) ps := by
  refine brings_value rfl fun n m w r hm => ?_
  have hx : m.eval a .ptr base = .ok (.ptr p) := hm.eval hbase
  have hy : m.eval a .i64 index = .ok (.i64 i) := hm.eval hindex
  simp [perform, pointer, number, hx, hy, bind, Except.bind]

theorem brings_loadCell {address : Operand} {b : Nat} {i : Int64} {k : Buffer}
    (haddress : F.Yield address (.ptr (.heap b (8 * i.toInt)))) (hk : m₀.heap[b]? = some k) (hlive : k.live = true)
    (hbounds : 0 ≤ i.toInt ∧ 8 * i.toInt + 8 ≤ k.size) :
    Brings a (InHand a m₀ n₀ F ps) (load .i64 address) fun o =>
      InHand a m₀ n₀ ((o, .i64 (k.cells i.toInt.toNat)) :: F) ps := by
  refine brings_value rfl fun n m w r hm => ?_
  have hx : m.eval a .ptr address = .ok (.ptr (.heap b (8 * i.toInt))) := hm.eval haddress
  have hoffset : 0 ≤ 8 * i.toInt ∧ 8 * i.toInt + 8 ≤ k.size := ⟨by omega, hbounds.2⟩
  have hindex : 8 * i.toInt / 8 = i.toInt := by omega
  have hcell : m.cell (.heap b (8 * i.toInt)) = .ok (b, k, i.toInt.toNat) := by
    simp only [cell, hm.heap.get_of_before hk, hlive, Bool.true_eq_false, if_false, if_pos hoffset, hindex]
  simp only [perform, pointer, hx, bind, Except.bind, Machine.read, hcell, if_true]

/-! ## Constants -/

theorem text_global (ha : a.Supports) {g : Global} (hg : g ∈ a.globals) (hnul : '\x00' ∉ g.content.toList) (m : Machine) :
    m.text a (.global g.name) = .ok (Utf8.bytes g.content) := by
  simp only [text, find?_of_nodup Global.name ha.distinct hg, Utf8.takeWhile_bytes hnul]

theorem brings_stringConstant (ha : a.Supports) {content : String} (hnul : '\x00' ∉ content.toList) :
    Brings a (InHand a m₀ n₀ F ps) (stringConstant content) fun g n m =>
      ∃ p, m₀.text a p = .ok (Utf8.bytes content) ∧ InHand a m₀ n₀ ((.global g, .ptr p) :: F) ps n m where
  emits := emits_stringConstant content
  carries b _ := by
    intro hglobals m rest hrest hm
    have hmem := hglobals _ (mem_globals_stringConstant content b)
    have hcode : ((stringConstant content).run b).2.code = b.code ∧
        ((stringConstant content).run b).2.nextRegister = b.nextRegister := by
      obtain ⟨name, -, hrun⟩ | ⟨hnone, hrun⟩ := b.stringConstant_cases content <;> rw [hrun] <;> exact ⟨rfl, rfl⟩
    rw [codeTo_of_append (hcode.1.trans (List.append_nil _).symm)] at hrest ⊢
    rw [hcode.2]
    refine ⟨hrest, _, text_global ha hmem hnul m₀, { hm with facts := List.forall_mem_cons.2 ⟨⟨trivial, ?_⟩, hm.facts⟩ }⟩
    exact if_pos ⟨rfl, List.mem_map.2 ⟨_, hmem, rfl⟩⟩

/-! ## Calls that read -/

theorem brings_read (ha : a.Supports) (name : String) (ret : MachineType)
    (he : External.mk name ⟨[.ptr], ret, false⟩ ∈ External.core) (hret : ret ≠ .void)
    (hname : name ∉ ["malloc", "free", "exit", "strcpy", "strcat", "sprintf"]) {o : Operand} {s : List UInt8} {v : Value}
    (ho : Readable a m₀ F ps o s) (heffect : ∀ w p, Library.effect w name ret [.text p s] = some ⟨none, [], v⟩) :
    Brings a (InHand a m₀ n₀ F ps) (call name [o]) fun r => InHand a m₀ n₀ ((r, v) :: F) ps := by
  simp only [List.mem_cons, List.not_mem_nil, or_false, not_or] at hname
  refine brings_callVariadic he hret fun n m rest w hrest hm => ?_
  obtain ⟨p, hp, htext⟩ := hm.read ho
  have hcall : m.callExternal a w (some ⟨n⟩) name ret [.ptr p] = .ok (m.finish (some ⟨n⟩) v) :=
    callExternal_of_reads ⟨hname.1, hname.2.1, hname.2.2.1⟩ (.cons (.text htext) .nil) (heffect w p)
  refine ⟨_, (perform_external ha he (.cons hp .nil) _ _ _).trans hcall, ?_, rest_finish hrest _ v, hm.finish v⟩
  refine staysInside_of_target hrest ?_
  simp [Operation.target?, typeArgs, hname]

theorem brings_strcmp (ha : a.Supports) {l r : Operand} {s t : List UInt8} (hl : Readable a m₀ F ps l s)
    (hr : Readable a m₀ F ps r t) :
    Brings a (InHand a m₀ n₀ F ps) (call "strcmp" [l, r]) fun o =>
      InHand a m₀ n₀ ((o, .i32 (Library.order s t)) :: F) ps := by
  refine brings_callVariadic (e := ⟨"strcmp", [.ptr, .ptr], .i32, false⟩) (by decide) (by decide)
    fun n m rest w hrest hm => ?_
  obtain ⟨p, hp, htext⟩ := hm.read hl
  obtain ⟨q, hq, htext'⟩ := hm.read hr
  have hcall : m.callExternal a w (some ⟨n⟩) "strcmp" .i32 [.ptr p, .ptr q] =
      .ok (m.finish (some ⟨n⟩) (.i32 (Library.order s t))) :=
    callExternal_of_reads (by decide) (.cons (.text htext) (.cons (.text htext') .nil)) rfl
  exact ⟨_, (perform_external ha (by decide) (.cons hp (.cons hq .nil)) _ _ _).trans hcall,
    staysInside_of_target hrest rfl, rest_finish hrest _ _, hm.finish _⟩

/-! ## Pieces -/

theorem brings_malloc (ha : a.Supports) {size : Operand} {z : Int64} (hsize : F.Yield size (.i64 z)) :
    Brings a (InHand a m₀ n₀ F ps) (call "malloc" [size]) fun o n m =>
      ∃ q : Piece, q.size = z.toUInt64.toNat ∧ InHand a m₀ n₀ ((o, .ptr (.heap q.block 0)) :: F) (q :: ps) n m := by
  refine brings_callVariadic (e := ⟨"malloc", [.i64], .ptr, false⟩) (by decide) (by decide) fun n m rest w hrest hm => ?_
  have heval : m.eval a .i64 size = .ok (.i64 z) := hm.eval hsize
  have hheap := hm.withHeap (hm.heap.alloc (k := ⟨true, m.running.id, z.toUInt64.toNat, w.text, w.cells⟩) rfl)
  have hexternal := perform_external (w := w) ha (e := ⟨"malloc", [.i64], .ptr, false⟩) (by decide)
    (.cons (a := (.i64, size)) heval .nil) (some ⟨n⟩) .ptr none
  exact ⟨_, hexternal, staysInside_of_target hrest rfl, rest_finish hrest _ _, _, rfl, hheap.finish _⟩

theorem performs_write (ha : a.Supports) {e : External} (he : e ∈ External.core)
    (hname : e.name ≠ "malloc" ∧ e.name ≠ "free" ∧ e.name ≠ "exit") {q : Piece} {dst : Operand}
    (hdst : (dst, .ptr (.heap q.block 0)) ∈ F) {more : List (MachineType × Operand)} {s : List UInt8} {ret : MachineType}
    {variadic : Option (List MachineType)} (hfits : s.length < q.size)
    (hmore : ∀ n m, InHand a m₀ n₀ F (q :: ps) n m → ∃ vs args, Evals a m more vs ∧
      List.Forall₂ (Passes a m) vs args ∧ ∀ w p, ∃ v, Library.effect w e.name ret (.text p q.text :: args) =
        some ⟨some s, [], v⟩) (n : Nat) :
    Performs a (InHand a m₀ n₀ F (q :: ps)) ⟨some ⟨n⟩, .call e.name ret ((.ptr, dst) :: more) variadic⟩ n (n + 1)
      (InHand a m₀ n₀ F ({ q with text := s } :: ps)) := by
  intro m rest w hrest hm
  obtain ⟨vs, args, hvs, hpasses, heffect⟩ := hmore n m hm
  obtain ⟨v, hv⟩ := heffect w (.heap q.block 0)
  obtain ⟨k, hk, hlive, hsize, htext⟩ := hm.heap.there q List.mem_cons_self
  have heval : m.eval a .ptr dst = .ok (.ptr (.heap q.block 0)) := hm.eval (.fact hdst)
  have hcall := callExternal_of_writes (some ⟨n⟩) hname hk hlive
    (.cons (.text (hm.text_of_piece List.mem_cons_self)) hpasses) hv
  refine ⟨_, (perform_external ha he (.cons heval hvs) _ _ _).trans hcall, ?_, rest_finish hrest _ v, ?_⟩
  · intro i rest' o hi ho
    rw [hrest] at hi
    cases hi
    obtain rfl : dst = o := by
      simp only [Operation.target?] at ho
      split at ho
      · exact Option.some.inj ho
      · cases ho
    refine ⟨q.block, { k with text := s }, heval, ?_, hlive, hsize ▸ hfits⟩
    exact List.getElem?_set_self (List.getElem?_eq_some_iff.1 hk).1
  · exact ((hm.withHeap (hm.heap.fill hk s)).finish v).weaken (List.subset_cons_self _ _)

theorem brings_strcpy (ha : a.Supports) {q : Piece} {dst src : Operand} {s : List UInt8}
    (hdst : (dst, .ptr (.heap q.block 0)) ∈ F) (hsrc : Readable a m₀ F (q :: ps) src s) (hfits : s.length < q.size) :
    Brings a (InHand a m₀ n₀ F (q :: ps)) (call "strcpy" [dst, src]) fun _ =>
      InHand a m₀ n₀ F ({ q with text := s } :: ps) := by
  refine brings_callVariadic (e := ⟨"strcpy", [.ptr, .ptr], .ptr, false⟩) (by decide) (by decide) fun n => ?_
  refine performs_write ha (by decide) (by decide) hdst hfits (fun n m hm => ?_) n
  obtain ⟨p, hp, htext⟩ := hm.read hsrc
  exact ⟨[.ptr p], [.text p s], .cons hp .nil, .cons (.text htext) .nil, fun _ _ => ⟨_, rfl⟩⟩

theorem brings_strcat (ha : a.Supports) {q : Piece} {dst src : Operand} {s : List UInt8}
    (hdst : (dst, .ptr (.heap q.block 0)) ∈ F) (hsrc : Readable a m₀ F (q :: ps) src s)
    (hfits : (q.text ++ s).length < q.size) :
    Brings a (InHand a m₀ n₀ F (q :: ps)) (call "strcat" [dst, src]) fun _ =>
      InHand a m₀ n₀ F ({ q with text := q.text ++ s } :: ps) := by
  refine brings_callVariadic (e := ⟨"strcat", [.ptr, .ptr], .ptr, false⟩) (by decide) (by decide) fun n => ?_
  refine performs_write ha (by decide) (by decide) hdst hfits (fun n m hm => ?_) n
  obtain ⟨p, hp, htext⟩ := hm.read hsrc
  exact ⟨[.ptr p], [.text p s], .cons hp .nil, .cons (.text htext) .nil, fun _ _ => ⟨_, rfl⟩⟩

theorem brings_sprintf (ha : a.Supports) {q : Piece} {dst o : Operand} {g : String} {x : Int64}
    (hdst : (dst, .ptr (.heap q.block 0)) ∈ F) (hformat : Readable a m₀ F (q :: ps) (.global g) (Utf8.bytes "%lld"))
    (ho : F.Yield o (.i64 x)) (hfits : 20 < q.size) :
    Brings a (InHand a m₀ n₀ F (q :: ps)) (callVariadic "sprintf" [dst, .global g] [(.i64, o)]) fun _ =>
      InHand a m₀ n₀ F ({ q with text := Utf8.bytes (Decimal.ofInt64 x) } :: ps) := by
  refine brings_callVariadic (e := ⟨"sprintf", [.ptr, .ptr], .i32, true⟩) (by decide) (by decide) fun n => ?_
  refine performs_write ha (by decide) (by decide) hdst
    (Nat.lt_of_le_of_lt (Decimal.length_bytes_ofInt64 x) hfits) (fun n m hm => ?_) n
  obtain ⟨p, hp, htext⟩ := hm.read hformat
  have hx : m.eval a .i64 o = .ok (.i64 x) := hm.eval ho
  refine ⟨[.ptr p, .i64 x], [.text p (Utf8.bytes "%lld"), .other (.i64 x)], .cons hp (.cons hx .nil),
    .cons (.text htext) (.cons (.number x) .nil), fun w p' => ?_⟩
  rw [← Library.format_number]
  exact ⟨_, rfl⟩

theorem brings_free (ha : a.Supports) {q : Piece} {o : Operand} (ho : (o, .ptr (.heap q.block 0)) ∈ F) :
    Brings a (InHand a m₀ n₀ F (q :: ps)) (call "free" [o]) fun _ => InHand a m₀ n₀ F ps where
  emits := emits_callVariadic "free" [o] []
  carries b hb := by
    have hsig : b.signatures.get? "free" = some ⟨[.ptr], .void, false⟩ :=
      hb.core ⟨"free", [.ptr], .void, false⟩ (by decide)
    have hrun : (call "free" [o]).run b =
        (.null, b.emitted [⟨none, .call "free" .void [(.ptr, o)] none⟩] b.nextRegister) := by
      unfold call callVariadic
      rw [run_bind]
      have hget : (get : Build Nat Builder).run b = (b, b) := rfl
      rw [hget, hsig]
      rfl
    rw [hrun]
    refine Performs.carries hb.isOpen fun m rest w hrest hm => ?_
    obtain ⟨k, hk, hlive, -⟩ := hm.heap.there q List.mem_cons_self
    have heval : m.eval a .ptr o = .ok (.ptr (.heap q.block 0)) := hm.eval (.fact ho)
    have hfree : m.free (.heap q.block 0) = .ok (m.setBuffer q.block { k with live := false }) := by
      simp [Machine.free, hk, hlive]
    have hcall : m.callExternal a w none "free" .void [.ptr (.heap q.block 0)] =
        .ok ((m.setBuffer q.block { k with live := false }).finish none (.ptr .null)) := by
      show (m.free (.heap q.block 0) >>= fun m' => Except.ok (m'.finish none (.ptr .null))) = _
      rw [hfree]
      rfl
    have hexternal := perform_external (w := w) ha (e := ⟨"free", [.ptr], .void, false⟩) (by decide)
      (.cons (a := (.ptr, o)) heval .nil) none .void none
    refine ⟨_, hexternal.trans hcall, staysInside_of_target hrest rfl, rest_finish hrest _ _, ?_⟩
    exact (hm.withHeap (hm.heap.drop (k := { k with live := false }) rfl)).advance _

end Builder
end QuillLang
