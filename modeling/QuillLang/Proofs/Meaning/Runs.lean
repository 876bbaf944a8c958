import QuillLang.Proofs.ByteOrder
import QuillLang.Proofs.Machine.Step
import QuillLang.Proofs.Meaning.Basic
/-!
# Machines that do what is meant

A machine follows an effect when it prints what the effect prints and then is where the effect's value says, whatever the
world answers on the way (`Machine.Follows`).  An effect that reaches the bound `n` keeps the machine busy for `n` steps at
least, which is how endless runs are told from those that end.
-/
namespace QuillLang

/-! ## Printed numbers -/

namespace Decimal

theorem ofNat_injective {m n : Nat} (h : ofNat m = ofNat n) : m = n := by
  have hdigits : Nat.toDigits 10 m = Nat.toDigits 10 n := String.ofList_injective h
  rw [← Nat.ofDigitChars_ten_toDigits (n := m), hdigits, Nat.ofDigitChars_ten_toDigits]

theorem isDigit_of_mem {n : Nat} {c : Char} (h : c ∈ (ofNat n).toList) : c.isDigit = true := by
  unfold ofNat at h
  rw [String.toList_ofList] at h
  exact Nat.isDigit_of_mem_toDigits (by decide) (by decide) h

theorem minus_ne (m n : Nat) : "-" ++ ofNat m ≠ ofNat n := by
  intro h
  have hminus : '-' ∈ (ofNat n).toList := by
    rw [← h, String.toList_append]
    exact List.mem_append_left _ (by decide)
  exact absurd (isDigit_of_mem hminus) (by decide)

theorem ofInt_injective {x y : Int} (h : ofInt x = ofInt y) : x = y := by
  unfold ofInt at h
  split at h
  · split at h
    · have hsame := ofNat_injective ((String.append_right_inj _).1 h)
      omega
    · exact absurd h (minus_ne _ _)
  · split at h
    · exact absurd h.symm (minus_ne _ _)
    · have hsame := ofNat_injective h
      omega

theorem minus_or_isDigit {n : Int} {c : Char} (hc : c ∈ (ofInt n).toList) : c = '-' ∨ c.isDigit = true := by
  unfold ofInt at hc
  split at hc
  · rw [String.toList_append] at hc
    rcases List.mem_append.1 hc with hc | hc
    · exact .inl (by simpa using hc)
    · exact .inr (isDigit_of_mem hc)
  · exact .inr (isDigit_of_mem hc)

theorem newline_notMem (n : Int) : 10 ∉ Utf8.bytes (ofInt n) := by
  intro h
  obtain ⟨c, hc, hmem⟩ := List.mem_flatMap.1 h
  rcases minus_or_isDigit hc with rfl | hdigit
  · exact absurd hmem (by decide)
  · have hbounds : 48 ≤ c.toNat ∧ c.toNat ≤ 57 := by simpa [Char.isDigit, UInt32.le_iff_toNat_le] using hdigit
    have hascii : c.val.toNat ≤ 127 := Nat.le_trans hbounds.2 (by decide)
    rw [String.utf8EncodeChar.eq_1, if_pos hascii, List.mem_singleton] at hmem
    have hten : c.toNat % 256 = 10 := by simpa using (congrArg UInt8.toNat hmem).symm
    omega

end Decimal

/-- Numbers as they are printed, each on a line of its own. -/
def printed (vs : List Int64) : List UInt8 := vs.flatMap fun v => Utf8.bytes (Decimal.ofInt64 v) ++ [10]

theorem printed_append (vs us : List Int64) : printed (vs ++ us) = printed vs ++ printed us := List.flatMap_append

theorem printed_cons (v : Int64) (vs : List Int64) :
    printed (v :: vs) = Utf8.bytes (Decimal.ofInt64 v) ++ 10 :: printed vs := by
  simp [printed]

theorem printed_injective : ∀ {vs us : List Int64}, printed vs = printed us → vs = us
  | [], [], _ => rfl
  | [], u :: us, h => by
    rw [printed_cons] at h
    exact absurd h.symm (List.append_ne_nil_of_right_ne_nil _ (List.cons_ne_nil _ _))
  | v :: vs, [], h => by
    rw [printed_cons] at h
    exact absurd h (List.append_ne_nil_of_right_ne_nil _ (List.cons_ne_nil _ _))
  | v :: vs, u :: us, h => by
    rw [printed_cons, printed_cons] at h
    have hline : ∀ (x : Int64) (rest : List UInt8),
        (Utf8.bytes (Decimal.ofInt64 x) ++ 10 :: rest).takeWhile (· ≠ 10) = Utf8.bytes (Decimal.ofInt64 x) := by
      intro x rest
      rw [List.takeWhile_append_of_pos]
      · simp
      · intro b hb
        exact decide_eq_true fun he => Decimal.newline_notMem x.toInt (he ▸ hb)
    have hbytes : Utf8.bytes (Decimal.ofInt64 v) = Utf8.bytes (Decimal.ofInt64 u) := by
      rw [← hline v (printed vs), h, hline]
    have hrest : printed vs = printed us := by
      rw [hbytes] at h
      exact (List.cons.inj (List.append_cancel_left h)).2
    have hv : v = u := Int64.toInt_inj.1 (Decimal.ofInt_injective (Utf8.bytes_injective hbytes))
    rw [hv, printed_injective hrest]

namespace Machine
variable {a : Assembly} {m m' m'' : Machine} {k l n : Nat} {α β : Type}

/-! ## Several steps -/

/-- `k` steps lead from a machine to another, whatever the world answers. -/
def Reaches (a : Assembly) (k : Nat) (m m' : Machine) : Prop :=
  ∀ ws : List Answer, ws.length = k → ws.foldlM (fun m w => m.step a w) m = .ok m'

namespace Reaches

theorem refl (m : Machine) : Reaches a 0 m m := by
  intro ws hws
  rw [List.length_eq_zero_iff.1 hws]
  rfl

theorem trans (h : Reaches a k m m') (h' : Reaches a l m' m'') : Reaches a (k + l) m m'' := by
  intro ws hws
  have htake : (ws.take k).length = k := by
    rw [List.length_take]
    omega
  have hdrop : (ws.drop k).length = l := by
    rw [List.length_drop]
    omega
  rw [← List.take_append_drop k ws, List.foldlM_append, h _ htake]
  exact h' _ hdrop

theorem one (h : ∀ w, m.step a w = .ok m') : Reaches a 1 m m' := by
  intro ws hws
  obtain ⟨w, rfl⟩ := List.length_eq_one_iff.1 hws
  show (m.step a w >>= fun m => .ok m) = .ok m'
  rw [h w]
  rfl

end Reaches

/-! ## Following an effect -/

/-- The machine prints what an effect prints and comes to `Q`; where the effect reaches the bound `n`, it makes `n` steps at
least. -/
def Follows (a : Assembly) (n : Nat) (m : Machine) (x : Effect α) (Q : α → Machine → Prop) : Prop :=
  match x.ending with
  | .done v => ∃ k m', Reaches a k m m' ∧ m'.output = m.output ++ printed x.prints ∧ Q v m'
  | .fails t => t = .undefined
  | .unfinished => ∃ k m', n ≤ k ∧ Reaches a k m m' ∧ m'.output = m.output ++ printed x.prints

namespace Follows
variable {x : Effect α} {f : α → Effect β} {Q Q' : α → Machine → Prop} {R : β → Machine → Prop}

theorem pure {v : α} (h : Q v m) : Follows a n m (Pure.pure v) Q :=
  ⟨0, m, .refl m, (List.append_nil _).symm, h⟩

theorem undefined : Follows a n m (Effect.fail .undefined) Q := rfl

theorem mono (h : Follows a n m x Q) (hl : l ≤ n) (hQ : ∀ v m', Q v m' → Q' v m') : Follows a l m x Q' := by
  unfold Follows at h ⊢
  split at h
  · obtain ⟨k, m', hreach, houtput, hq⟩ := h
    exact ⟨k, m', hreach, houtput, hQ _ _ hq⟩
  · exact h
  · obtain ⟨k, m', hk, hreach, houtput⟩ := h
    exact ⟨k, m', Nat.le_trans hl hk, hreach, houtput⟩

theorem le (h : Follows a n m x Q) (hl : l ≤ n) : Follows a l m x Q := h.mono hl fun _ _ h => h

theorem imp (h : Follows a n m x Q) (hQ : ∀ v m', Q v m' → Q' v m') : Follows a n m x Q' := h.mono (Nat.le_refl n) hQ

theorem ended (h : Follows a n m x Q) : Follows a n m x fun v m' => x.ending = .done v ∧ Q v m' := by
  unfold Follows at h ⊢
  split at h
  · rename_i v hv
    obtain ⟨k, m', hreach, houtput, hq⟩ := h
    exact ⟨k, m', hreach, houtput, hv, hq⟩
  · exact h
  · exact h

theorem after (hk : Reaches a k m m') (houtput : m'.output = m.output) (h : Follows a n m' x Q) :
    Follows a (k + n) m x Q := by
  unfold Follows at h ⊢
  split at h
  · obtain ⟨l, m'', hreach, hout, hq⟩ := h
    exact ⟨k + l, m'', hk.trans hreach, by rw [hout, houtput], hq⟩
  · exact h
  · obtain ⟨l, m'', hl, hreach, hout⟩ := h
    exact ⟨k + l, m'', Nat.add_le_add_left hl k, hk.trans hreach, by rw [hout, houtput]⟩

theorem step (hstep : ∀ w, m.step a w = .ok m') (houtput : m'.output = m.output) (h : Follows a n m' x Q) :
    Follows a (n + 1) m x Q := by
  rw [Nat.add_comm]
  exact h.after (.one hstep) houtput

theorem bind (h : Follows a n m x Q) (hf : ∀ v m', Q v m' → Follows a n m' (f v) R) : Follows a n m (x >>= f) R := by
  obtain ⟨prints, ending⟩ := x
  cases ending with
  | done v =>
    obtain ⟨k, m', hreach, hout, hq⟩ := h
    have hnext := hf v m' hq
    show Follows a n m ⟨prints ++ (f v).prints, (f v).ending⟩ R
    unfold Follows at hnext ⊢
    dsimp only
    split at hnext
    · obtain ⟨l, m'', hreach', hout', hr⟩ := hnext
      refine ⟨k + l, m'', hreach.trans hreach', ?_, hr⟩
      rw [hout', hout, printed_append, List.append_assoc]
    · exact hnext
    · obtain ⟨l, m'', hl, hreach', hout'⟩ := hnext
      refine ⟨k + l, m'', Nat.le_add_left_of_le hl, hreach.trans hreach', ?_⟩
      rw [hout', hout, printed_append, List.append_assoc]
  | fails t => exact h
  | unfinished => exact h

end Follows

/-! ## Single instructions -/

def resume (m : Machine) (rest : List Instr) (registers : Register → Option Value) : Machine :=
  { m with running := { m.running with rest := rest, registers := registers } }

variable {i : Instr} {rest : List Instr}

theorem step_eq_perform (h : m.running.rest = i :: rest) (w : Answer) : m.step a w = m.perform a w i := by
  unfold step
  rw [h]

theorem finish_some (h : m.running.rest = i :: rest) (r : Register) (v : Value) :
    m.finish (some r) v = m.resume rest (override m.running.registers r v) := by
  unfold finish resume
  rw [h]
  rfl

end Machine

namespace Operand

def Denotes (registers : Register → Option Value) (v : Value) : Operand → Prop
  | .register r => registers r = some v
  | .int n => v = .i64 n
  | .float _ | .null | .global _ => False

def Below (n : Nat) : Operand → Prop
  | .register r => r.index < n
  | .int _ | .float _ | .null | .global _ => True

theorem Denotes.eval {a : Assembly} {m : Machine} {v : Value} {o : Operand} (h : o.Denotes m.running.registers v) :
    m.eval a v.type o = .ok v := by
  cases o with
  | register r =>
    have h : m.running.registers r = some v := h
    simp [Machine.eval, h]
  | int n =>
    obtain rfl : v = .i64 n := h
    rfl
  | float _ => cases h
  | null => cases h
  | global _ => cases h

theorem Denotes.congr {regs regs' : Register → Option Value} {v : Value} {n : Nat} {o : Operand} (h : o.Denotes regs v)
    (hn : o.Below n) (hregs : ∀ r : Register, r.index < n → regs' r = regs r) : o.Denotes regs' v := by
  cases o with
  | register r => exact (hregs r hn).trans h
  | int n => exact h
  | float _ => cases h
  | null => cases h
  | global _ => cases h

theorem Below.mono {n n' : Nat} {o : Operand} (h : o.Below n) (hn : n ≤ n') : o.Below n' := by
  cases o with
  | register r => exact Nat.lt_of_lt_of_le h hn
  | int _ | float _ | null | global _ => trivial

end Operand
end QuillLang
