import Mathlib.Data.List.TakeWhile
import QuillLang.Proofs.Machine.Perform
import QuillLang.Proofs.Meaning.Expr
import QuillLang.Proofs.Texts.Datum
/-!
# The library on texts

What calls of the library do to a machine whose arguments are texts: `strlen`, `strcmp` and `atol` read, `strcpy`, `strcat`
and `sprintf` write to the block of their first argument.  A number is written in 20 bytes at most, and the sign that
`strcmp` gives is the order of byte strings.
-/
namespace QuillLang

/-! ## Bytes -/

theorem Utf8.zero_notMem_bytes {s : String} (h : '\x00' ∉ s.toList) : 0 ∉ bytes s := by
  intro hmem
  obtain ⟨c, hc, hbyte⟩ := List.mem_flatMap.1 hmem
  have hpos : 0 < c.val.toNat := by
    refine Nat.pos_of_ne_zero fun hzero => h ?_
    have hchar : c = '\x00' := Char.ext (UInt32.toNat_inj.1 hzero)
    exact hchar ▸ hc
  have hne : ∀ n, 0 < n → n < 256 → (0 : UInt8) ≠ UInt8.ofNat n := by
    intro n hn hlt heq
    have hnat := congrArg UInt8.toNat heq
    rw [UInt8.toNat_ofNat_of_lt' hlt] at hnat
    exact absurd hnat (Nat.ne_of_lt hn)
  -- a byte of a longer encoding has its high bit set
  unfold String.utf8EncodeChar at hbyte
  dsimp only at hbyte
  split at hbyte
  · exact hne _ hpos (by omega) (List.mem_singleton.1 hbyte)
  · split at hbyte
    · simp only [List.mem_cons, List.not_mem_nil, or_false] at hbyte
      rcases hbyte with h | h <;> exact hne _ (by omega) (by omega) h
    · split at hbyte
      · simp only [List.mem_cons, List.not_mem_nil, or_false] at hbyte
        rcases hbyte with h | h | h <;> exact hne _ (by omega) (by omega) h
      · simp only [List.mem_cons, List.not_mem_nil, or_false] at hbyte
        rcases hbyte with h | h | h | h <;> exact hne _ (by omega) (by omega) h

theorem Utf8.takeWhile_bytes {s : String} (h : '\x00' ∉ s.toList) : (bytes s).takeWhile (· ≠ 0) = bytes s :=
  List.takeWhile_eq_self_iff.2 fun _ hb => decide_eq_true fun hzero => zero_notMem_bytes h (hzero ▸ hb)

theorem Utf8.length_bytes_of_ascii {s : String} (h : ∀ c ∈ s.toList, c.val.toNat ≤ 127) :
    (bytes s).length = s.toList.length := by
  unfold bytes
  rw [List.length_flatMap, List.map_congr_left fun c hc => (by
    rw [String.utf8EncodeChar.eq_1, if_pos (h c hc)]
    rfl : (String.utf8EncodeChar c).length = 1)]
  simp

namespace Decimal

theorem ascii_ofNat (n : Nat) : ∀ c ∈ (ofNat n).toList, c.val.toNat ≤ 127 := by
  intro c hc
  have hdigit := isDigit_of_mem hc
  have hbound : c.toNat ≤ 57 := by
    have hbounds : 48 ≤ c.toNat ∧ c.toNat ≤ 57 := by simpa [Char.isDigit, UInt32.le_iff_toNat_le] using hdigit
    exact hbounds.2
  exact Nat.le_trans hbound (by decide)

theorem length_bytes_ofNat {n : Nat} (h : n < 10 ^ 19) : (Utf8.bytes (ofNat n)).length ≤ 19 := by
  rw [Utf8.length_bytes_of_ascii (ascii_ofNat n)]
  unfold ofNat
  rw [String.toList_ofList]
  exact (Nat.length_toDigits_le_iff (by decide) (by decide)).2 h

theorem length_bytes_ofInt64 (n : Int64) : (Utf8.bytes (ofInt64 n)).length ≤ 20 := by
  have hlow := n.le_toInt
  have hhigh := n.toInt_lt
  unfold ofInt64 ofInt
  split
  · have hsign : Utf8.bytes ("-" ++ ofNat n.toInt.natAbs) = 45 :: Utf8.bytes (ofNat n.toInt.natAbs) := by
      unfold Utf8.bytes
      rw [String.toList_append, List.flatMap_append]
      rfl
    rw [hsign, List.length_cons]
    exact Nat.succ_le_succ (length_bytes_ofNat (by omega))
  · exact Nat.le_succ_of_le (length_bytes_ofNat (by omega))

end Decimal

namespace Library

theorem format_number (n : Int64) : format (Utf8.bytes "%lld") [.other (.i64 n)] = Utf8.bytes (Decimal.ofInt64 n) := by
  have hbytes : Utf8.bytes "%lld" = [37, 108, 108, 100] := by decide
  rw [hbytes]
  simp [format]

theorem order_eq : ∀ s t : List UInt8, order s t = if s < t then -1 else if s = t then 0 else 1
  | [], [] => by decide
  | [], y :: ys => by simp [order]
  | x :: xs, [] => by simp [order]
  | x :: xs, y :: ys => by
    unfold order
    rw [order_eq xs ys]
    simp only [List.cons_lt_cons_iff, List.cons.injEq]
    by_cases hlt : x < y
    · simp [hlt]
    · by_cases hgt : y < x
      · have hne : x ≠ y := fun h => UInt8.lt_irrefl _ (h ▸ hgt)
        simp [hlt, hgt, hne]
      · have heq : x = y := UInt8.le_antisymm (UInt8.not_lt.1 hgt) (UInt8.not_lt.1 hlt)
        simp [heq]

end Library

theorem CompareOp.holds_order (s t : List UInt8) :
    holds .eq (Library.order s t).toInt 0 = decide (s = t) ∧ holds .ne (Library.order s t).toInt 0 = decide (s ≠ t) ∧
    holds .slt (Library.order s t).toInt 0 = decide (s < t) ∧ holds .sle (Library.order s t).toInt 0 = decide (s ≤ t) ∧
    holds .sgt (Library.order s t).toInt 0 = decide (t < s) ∧ holds .sge (Library.order s t).toInt 0 = decide (t ≤ s) := by
  have hone : (1 : Int32).toInt = 1 := by decide
  have hzero : (0 : Int32).toInt = 0 := by decide
  have hminus : (-1 : Int32).toInt = -1 := by decide
  rw [Library.order_eq]
  by_cases hlt : s < t
  · have hle : s ≤ t := List.le_of_lt hlt
    have hne : s ≠ t := fun h => List.lt_irrefl t (h ▸ hlt)
    simp [holds, hlt, hne, hle, List.not_lt.2 hle, List.not_le.2 hlt, hminus]
  · by_cases heq : s = t
    · subst heq
      simp [holds, hlt, hzero]
    · have hle : t ≤ s := List.not_lt.1 hlt
      have hgt : t < s := List.not_le.1 fun h => heq (List.le_antisymm h hle)
      simp [holds, hlt, heq, hle, hgt, List.not_le.2 hgt, hone]

/-! ## Calls -/

namespace Machine
variable {a : Assembly} {w : Answer} {m : Machine} {p : Pointer} {s : List UInt8}

theorem not_dangles_of_text (h : m.text a p = .ok s) : m.dangles a p = false := by
  cases p with
  | null => cases h
  | slot i r => cases h
  | global g =>
    simp only [text] at h
    split at h
    · rename_i c hc
      have hname : c.name = g := by simpa using List.find?_some hc
      have hmem : g ∈ a.globals.map Global.name := List.mem_map.2 ⟨c, List.mem_of_find?_eq_some hc, hname⟩
      simpa [dangles] using hmem
    · cases h
  | heap b offset =>
    simp only [text] at h
    split at h
    · rename_i k hk
      split at h
      · rename_i hlive
        simp [dangles, hk, hlive.1, hlive.2]
      · cases h
    · cases h

inductive Passes (a : Assembly) (m : Machine) : Value → Argument → Prop where
  | text {p : Pointer} {s : List UInt8} (h : m.text a p = .ok s) : Passes a m (.ptr p) (.text p s)
  | number (n : Int64) : Passes a m (.i64 n) (.other (.i64 n))

theorem Passes.argument_eq {v : Value} {x : Argument} (h : Passes a m v x) : m.argument a v = .ok x := by
  cases h with
  | text h =>
    simp only [argument, h]
    rfl
  | number n => rfl

theorem Passes.not_bad {v : Value} {x : Argument} (h : Passes a m v x) : m.badArgument a v = false := by
  cases h with
  | text h => exact not_dangles_of_text h
  | number n => rfl

theorem any_badArgument {vs : List Value} {args : List Argument} (h : List.Forall₂ (Passes a m) vs args) :
    vs.any (m.badArgument a) = false := by
  induction h with
  | nil => rfl
  | cons hx _ ih => rw [List.any_cons, hx.not_bad, ih, Bool.or_false]

theorem mapM_argument {vs : List Value} {args : List Argument} (h : List.Forall₂ (Passes a m) vs args) :
    vs.mapM (m.argument a) = .ok args := by
  induction h with
  | nil => rfl
  | cons hx _ ih =>
    rw [List.mapM_cons, hx.argument_eq, ih]
    rfl

theorem callLibrary_eq {name : String} {ret : MachineType} {vs : List Value} {args : List Argument} {e : Library.Effect}
    (hargs : List.Forall₂ (Passes a m) vs args) (heffect : Library.effect w name ret args = some e) :
    m.callLibrary a w name ret vs = (do
      let m' ← m.writeFirst vs e.written
      .ok ({ m' with output := m'.output ++ e.printed }, e.result)) := by
  unfold callLibrary
  rw [any_badArgument hargs, mapM_argument hargs]
  simp only [Bool.false_eq_true, if_false, bind, Except.bind, heffect]

theorem callExternal_of_reads {result : Option Register} {callee : String} {ret : MachineType} {vs : List Value}
    {args : List Argument} {v : Value} (hcallee : callee ≠ "malloc" ∧ callee ≠ "free" ∧ callee ≠ "exit")
    (hargs : List.Forall₂ (Passes a m) vs args) (heffect : Library.effect w callee ret args = some ⟨none, [], v⟩) :
    m.callExternal a w result callee ret vs = .ok (m.finish result v) := by
  have hwrite : m.writeFirst vs none = .ok m := by
    cases vs with
    | nil => rfl
    | cons v _ => cases v <;> rfl
  unfold callExternal
  rw [if_neg hcallee.1, if_neg hcallee.2.1, if_neg hcallee.2.2, callLibrary_eq hargs heffect, hwrite]
  show Except.ok (finish { m with output := m.output ++ [] } result v) = _
  rw [List.append_nil]

theorem callExternal_of_writes (result : Option Register) {callee : String} {ret : MachineType} {vs : List Value}
    {args : List Argument} {v : Value} {b : Nat} {k : Buffer}
    (hcallee : callee ≠ "malloc" ∧ callee ≠ "free" ∧ callee ≠ "exit") (hk : m.heap[b]? = some k) (hlive : k.live = true)
    (hargs : List.Forall₂ (Passes a m) (.ptr (.heap b 0) :: vs) args)
    (heffect : Library.effect w callee ret args = some ⟨some s, [], v⟩) :
    m.callExternal a w result callee ret (.ptr (.heap b 0) :: vs) =
      .ok ((m.setBuffer b { k with text := s }).finish result v) := by
  have hwrite : m.writeFirst (.ptr (.heap b 0) :: vs) (some s) = .ok (m.setBuffer b { k with text := s }) := by
    simp [writeFirst, setText, hk, hlive]
  unfold callExternal
  rw [if_neg hcallee.1, if_neg hcallee.2.1, if_neg hcallee.2.2, callLibrary_eq hargs heffect, hwrite]
  show Except.ok (finish { m.setBuffer b { k with text := s } with output := m.output ++ [] } result v) = _
  rw [List.append_nil]
  rfl

end Machine
end QuillLang
