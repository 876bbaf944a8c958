import QuillLang.Proofs.Machine.Control
import QuillLang.Proofs.Meaning.Program
/-!
# Lowering preserves the meaning of programs of numbers

What can be seen of a program is what it prints, whether it ends, and its exit status.  A lowered program of numbers shows
what its source means, whatever the world outside answers: it ends if and only if the source does, with the same prints and
the same status, and while it runs it has printed a part of what the source prints, and sooner or later any such part.
-/
namespace QuillLang

/-! ## What can be seen -/

namespace Assembly
variable {a : Assembly} {w : Nat → Answer} {j k : Nat} {m m' : Machine}

def after (a : Assembly) (w : Nat → Answer) (k : Nat) : Except Halt Machine := a.run ((List.range k).map w)

def Exits (a : Assembly) (w : Nat → Answer) (prints : List Int64) (status : Int32) : Prop :=
  ∃ k m, a.after w k = .ok m ∧ m.step a (w k) = .error (.exit status) ∧ m.output = printed prints

def RunsForever (a : Assembly) (w : Nat → Answer) : Prop := ∀ k, ∃ m, a.after w k = .ok m

theorem after_succ (a : Assembly) (w : Nat → Answer) (k : Nat) :
    a.after w (k + 1) = a.after w k >>= fun m => m.step a (w k) := by
  unfold after run
  rw [List.range_succ, List.map_append, bind_assoc]
  congr 1
  funext m
  rw [List.foldlM_append]
  congr 1
  funext m
  exact bind_pure _

/-- A machine that made `k` steps made every number of steps below, and has printed since. -/
theorem exists_after_of_le (h : a.after w k = .ok m) (hj : j ≤ k) :
    ∃ m', a.after w j = .ok m' ∧ m'.output <+: m.output := by
  induction k generalizing m with
  | zero =>
    obtain rfl := Nat.le_zero.1 hj
    exact ⟨m, h, List.prefix_refl _⟩
  | succ k ih =>
    by_cases hlast : j = k + 1
    · rw [hlast]
      exact ⟨m, h, List.prefix_refl _⟩
    · rw [after_succ] at h
      obtain ⟨m₁, hm₁, hstep⟩ := exists_of_bind_ok h
      obtain ⟨m', hm', hpre⟩ := ih hm₁ (by omega)
      exact ⟨m', hm', hpre.trans (Machine.output_step hstep)⟩

theorem le_of_stops {e : Halt} (h : a.after w k = .ok m) (hstop : m.step a (w k) = .error e)
    (hj : a.after w j = .ok m') : j ≤ k := by
  by_contra hlt
  obtain ⟨m₁, hm₁, -⟩ := exists_after_of_le hj (show k + 1 ≤ j by omega)
  rw [after_succ, h] at hm₁
  have hstep : m.step a (w k) = .ok m₁ := hm₁
  rw [hstop] at hstep
  cases hstep

theorem Exits.unique {prints prints' : List Int64} {status status' : Int32} (h : a.Exits w prints status)
    (h' : a.Exits w prints' status') : prints = prints' ∧ status = status' := by
  obtain ⟨k, m, hk, hstop, hprints⟩ := h
  obtain ⟨k', m', hk', hstop', hprints'⟩ := h'
  obtain rfl : k = k' := Nat.le_antisymm (le_of_stops hk' hstop' hk) (le_of_stops hk hstop hk')
  obtain rfl : m = m' := Except.ok.inj (hk.symm.trans hk')
  rw [hstop] at hstop'
  cases hstop'
  exact ⟨printed_injective (hprints.symm.trans hprints'), rfl⟩

theorem after_of_reaches {m₀ : Machine} (hstart : a.start = .ok m₀) (h : Machine.Reaches a k m₀ m) :
    a.after w k = .ok m := by
  unfold after run
  rw [hstart]
  exact h _ (by simp)

end Assembly

namespace Program
variable {p : Program} {a : Assembly}

/-- Under every bound the program ends in the machine as it does in the source, or the machine goes on for as many steps as
the bound allows. -/
theorem DoneBy.cases (h : p.DoneBy a) (hdefined : p.IsDefined) (w : Nat → Answer) (n : Nat) :
    (∃ status, p.run n = ⟨(p.run n).prints, .done status⟩ ∧ a.Exits w (p.run n).prints status) ∨
      ((p.run n).ending = .unfinished ∧
        ∃ k m, n ≤ k ∧ a.after w k = .ok m ∧ m.output = printed (p.run n).prints) := by
  obtain ⟨m₀, hstart, houtput, hfollows⟩ := h
  have hrun := hfollows n
  unfold Machine.Follows at hrun
  rw [houtput] at hrun
  split at hrun
  · rename_i status hdone
    obtain ⟨k, m, hreach, hprints, hstop⟩ := hrun
    exact .inl ⟨status, by rw [← hdone], k, m, Assembly.after_of_reaches hstart hreach, hstop _, hprints⟩
  · rename_i t hfails
    exact absurd (hrun ▸ hfails) (hdefined n)
  · rename_i hunfinished
    obtain ⟨k, m, hk, hreach, hprints⟩ := hrun
    exact .inr ⟨hunfinished, k, m, hk, Assembly.after_of_reaches hstart hreach, hprints⟩

theorem DoneBy.exits_iff (h : p.DoneBy a) (hdefined : p.IsDefined) (w : Nat → Answer) (prints : List Int64)
    (status : Int32) : a.Exits w prints status ↔ p.Ends prints status := by
  constructor
  · intro hexits
    have ⟨k, m, hk, hstop, _⟩ := hexits
    rcases h.cases hdefined w (k + 1) with ⟨status', hrun, hexits'⟩ | ⟨-, l, m', hl, hl', -⟩
    · obtain ⟨hprints, rfl⟩ := hexits.unique hexits'
      exact ⟨k + 1, hprints ▸ hrun⟩
    · have hle := Assembly.le_of_stops hk hstop hl'
      omega
  · rintro ⟨n, hn⟩
    rcases h.cases hdefined w n with ⟨status', hrun, hexits⟩ | ⟨hunfinished, -⟩
    · rw [hn] at hrun hexits
      cases hrun
      exact hexits
    · rw [hn] at hunfinished
      cases hunfinished

theorem DoneBy.runsForever_iff (h : p.DoneBy a) (hdefined : p.IsDefined) (w : Nat → Answer) :
    a.RunsForever w ↔ p.NeverEnds := by
  constructor
  · intro hforever n
    rcases h.cases hdefined w n with ⟨status, -, k, m, hk, hstop, -⟩ | ⟨hunfinished, -⟩
    · obtain ⟨m', hm'⟩ := hforever (k + 1)
      have hle := Assembly.le_of_stops hk hstop hm'
      omega
    · exact hunfinished
  · intro hnever k
    rcases h.cases hdefined w k with ⟨status, hrun, -⟩ | ⟨-, l, m, hl, hm, -⟩
    · have hunfinished := hnever k
      rw [hrun] at hunfinished
      cases hunfinished
    · obtain ⟨m', hm', -⟩ := Assembly.exists_after_of_le hm hl
      exact ⟨m', hm'⟩

theorem DoneBy.ends_or_neverEnds (h : p.DoneBy a) (hdefined : p.IsDefined) (w : Nat → Answer) :
    (∃ prints status, p.Ends prints status) ∨ p.NeverEnds := by
  by_cases hends : ∃ prints status, p.Ends prints status
  · exact .inl hends
  · refine .inr fun n => ?_
    rcases h.cases hdefined w n with ⟨status, hrun, -⟩ | ⟨hunfinished, -⟩
    · exact absurd ⟨_, status, n, hrun⟩ hends
    · exact hunfinished

/-- Under every bound, what the source prints is printed by some step, and at least by step `n`. -/
theorem DoneBy.exists_after (h : p.DoneBy a) (hdefined : p.IsDefined) (w : Nat → Answer) (n : Nat) :
    ∃ k m, a.after w k = .ok m ∧ m.output = printed (p.run n).prints ∧
      ∀ j m', a.after w j = .ok m' → j ≤ n → j ≤ k := by
  rcases h.cases hdefined w n with ⟨status, -, k, m, hk, hstop, hprints⟩ | ⟨-, k, m, hn, hk, hprints⟩
  · exact ⟨k, m, hk, hprints, fun j m' hj _ => Assembly.le_of_stops hk hstop hj⟩
  · exact ⟨k, m, hk, hprints, fun j m' _ hj => Nat.le_trans hj hn⟩

theorem DoneBy.output_within (h : p.DoneBy a) (hdefined : p.IsDefined) (w : Nat → Answer) {k : Nat} {m : Machine}
    (hk : a.after w k = .ok m) : m.output <+: printed (p.run k).prints := by
  obtain ⟨l, m', hl, hprints, hle⟩ := h.exists_after hdefined w k
  obtain ⟨m₁, hm₁, hpre⟩ := Assembly.exists_after_of_le hl (hle k m hk (Nat.le_refl k))
  rw [hk] at hm₁
  cases hm₁
  rw [← hprints]
  exact hpre

/-- **Lowering preserves the meaning of programs of numbers.**  In every world, the lowered program ends if and only if the
source does, with the same prints and the same status; it runs for ever if and only if the source does, and there is no third
case.  All that the source prints, under whatever bound, is printed at some step, and after `k` steps nothing is printed that
the source does not print under the bound `k`. -/
theorem lower_preserves_meaning {p : Program} {options : LowerOptions} {a : Assembly} (hp : p.isNumeric = true)
    (h : p.lower (Signatures.infer p) options = .ok a) (hdefined : p.IsDefined) (w : Nat → Answer) :
    (∀ prints status, a.Exits w prints status ↔ p.Ends prints status) ∧
      (a.RunsForever w ↔ p.NeverEnds) ∧
      ((∃ prints status, p.Ends prints status) ∨ p.NeverEnds) ∧
      (∀ n, ∃ k m, a.after w k = .ok m ∧ m.output = printed (p.run n).prints) ∧
      ∀ k m, a.after w k = .ok m → m.output <+: printed (p.run k).prints := by
  obtain ⟨functions, hrealized⟩ := realized_of_lower hp (Signatures.allInt_infer hp) h
  obtain ⟨es, fs, main, signature, hassembled⟩ := assembled_of_lower h
  have hdone := hrealized.doneBy hassembled
  refine ⟨hdone.exits_iff hdefined w, hdone.runsForever_iff hdefined w, hdone.ends_or_neverEnds hdefined w, fun n => ?_,
    fun k m hk => hdone.output_within hdefined w hk⟩
  obtain ⟨k, m, hk, hprints, -⟩ := hdone.exists_after hdefined w n
  exact ⟨k, m, hk, hprints⟩

/-- A test in a loop, a recursive function that runs off its end at last, and code after each `return`. -/
def countdown : Program :=
  let here : Span := ⟨⟨1, 1, 0⟩, ⟨1, 1, 0⟩⟩
  let name (x : String) : Ident := ⟨x, here⟩
  let var (x : String) : Expr := .var x here
  let less (x : String) : Expr := .binary .sub (var x) (.number 1 here) here
  ⟨[.func (name "sum") [name "n"]
      [.make (name "s") (.number 0 here) here,
        .when (var "n")
          [.call (name "sum") [less "n"] (some (name "s")) here,
            .assign (name "s") (.binary .add (var "s") (var "n") here) here, .ret (name "s") here,
            .print (var "n") here] here] here,
    .make (name "i") (.number 2 here) here,
    .loop (var "i") [.when (less "i") [.print (var "i") here] here, .assign (name "i") (less "i") here] here,
    .call (name "sum") [.number 3 here] (some (name "i")) here,
    .print (var "i") here, .ret (name "i") here, .print (.number 0 here) here], here⟩

theorem countdown_exits : countdown.isNumeric = true ∧ countdown.Ends [2, 6] 6 ∧
    ∃ a, countdown.lower (Signatures.infer countdown) .standard = .ok a ∧ ∀ w, a.Exits w [2, 6] 6 := by
  have hnumeric : countdown.isNumeric = true := by decide
  have hends : countdown.Ends [2, 6] 6 := ⟨4, by decide +kernel⟩
  have hany : ((countdown.lower (Signatures.infer countdown) .standard).toOption.any fun _ => true) = true := by
    decide +kernel
  obtain ⟨a, ha, -⟩ := exists_of_any hany
  refine ⟨hnumeric, hends, a, ha, fun w => ?_⟩
  exact ((lower_preserves_meaning hnumeric ha hends.isDefined w).1 [2, 6] 6).2 hends

end Program
end QuillLang
