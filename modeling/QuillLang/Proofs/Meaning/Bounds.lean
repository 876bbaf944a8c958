import QuillLang.Proofs.Meaning.Basic
/-!
# A greater bound shows more

A run under a bound is the run under any greater bound, or it reached its bound and printed a part of what the other prints
(`Program.run_within`).  So the meaning of a program does not hang on the bound: a program ends in one way only, and one that
ends is defined.
-/
namespace QuillLang

namespace Effect
variable {α β : Type} {x y : Effect α}

/-- One effect is the other, or the part of it before a bound. -/
def Within (x y : Effect α) : Prop := x = y ∨ x.ending = .unfinished ∧ x.prints <+: y.prints

namespace Within

theorem refl (x : Effect α) : x.Within x := .inl rfl

theorem unfinished : Effect.unfinished.Within y := .inr ⟨rfl, List.nil_prefix⟩

theorem bind {f g : α → Effect β} (h : x.Within y) (hf : ∀ v, (f v).Within (g v)) : (x >>= f).Within (y >>= g) := by
  show (Effect.bind x f).Within (Effect.bind y g)
  obtain ⟨prints, ending⟩ := x
  rcases h with rfl | ⟨hending, hprints⟩
  · cases ending with
    | done v =>
      rcases hf v with heq | ⟨hending, hprints⟩
      · simp only [Effect.bind, heq]
        exact refl _
      · exact .inr ⟨hending, (List.prefix_append_right_inj _).2 hprints⟩
    | fails t => exact refl _
    | unfinished => exact refl _
  · -- the first effect reached its bound, and the second prints on
    obtain rfl : ending = .unfinished := hending
    obtain ⟨prints', ending'⟩ := y
    refine .inr ⟨rfl, ?_⟩
    cases ending' with
    | done v => exact hprints.trans (List.prefix_append _ _)
    | fails t => exact hprints
    | unfinished => exact hprints

end Within
end Effect

theorem rounds_within {test : Vars → Effect Int64} {body body' : Vars → Effect Flow}
    (hbody : ∀ vars, (body vars).Within (body' vars)) :
    ∀ {n n' : Nat}, n ≤ n' → ∀ vars, (rounds test body n vars).Within (rounds test body' n' vars)
  | 0, _, _, _ => .unfinished
  | n + 1, n' + 1, hn, vars => by
    unfold rounds
    refine (Effect.Within.refl _).bind fun v => ?_
    split
    · exact .refl _
    · refine (hbody vars).bind fun flow => ?_
      cases flow with
      | goes vars => exact rounds_within hbody (Nat.le_of_succ_le_succ hn) vars
      | returns v => exact .refl _

namespace Stmt
variable {call call' : String → List Int64 → Effect Int64} {n n' : Nat}

mutual

theorem run_within (hcall : ∀ name vs, (call name vs).Within (call' name vs)) (hn : n ≤ n') : ∀ (s : Stmt) (vars : Vars),
    (run call n s vars).Within (run call' n' s vars)
  | .make x value _, vars | .assign x value _, vars => by
    unfold run
    exact .refl _
  | .when test body _, vars => by
    unfold run
    refine (Effect.Within.refl _).bind fun v => ?_
    split
    · exact .refl _
    · exact runAll_within hcall hn body vars
  | .loop test body _, vars => by
    unfold run
    exact rounds_within (runAll_within hcall hn body) hn vars
  | .call callee args result _, vars => by
    unfold run
    refine (Effect.Within.refl _).bind fun vs => ?_
    exact (hcall callee.name vs).bind fun v => .refl _
  | .print _ _, vars | .func _ _ _ _, vars | .ret _ _, vars | .makeArray _ _ _, vars | .assignArray _ _ _ _, vars
  | .free _ _, vars | .graphics _ _, vars => by
    unfold run
    exact .refl _

theorem runAll_within (hcall : ∀ name vs, (call name vs).Within (call' name vs)) (hn : n ≤ n') :
    ∀ (body : List Stmt) (vars : Vars), (runAll call n body vars).Within (runAll call' n' body vars)
  | [], vars => by
    unfold runAll
    exact .refl _
  | s :: rest, vars => by
    unfold runAll
    refine (run_within hcall hn s vars).bind fun flow => ?_
    cases flow with
    | goes vars => exact runAll_within hcall hn rest vars
    | returns v => exact .refl _

end

theorem runBody_within (hcall : ∀ name vs, (call name vs).Within (call' name vs)) (hn : n ≤ n') (body : List Stmt)
    (vars : Vars) :
    (runBody call n body vars).Within (runBody call' n' body vars) :=
  (runAll_within hcall hn body vars).bind fun _ => .refl _

end Stmt

namespace Program
variable {p : Program}

theorem call_within : ∀ {n n' : Nat}, n ≤ n' → ∀ name vs, (p.call n name vs).Within (p.call n' name vs)
  | 0, _, _, _, _ => .unfinished
  | n + 1, n' + 1, hn, name, vs => by
    unfold call
    have hle : n ≤ n' := Nat.le_of_succ_le_succ hn
    split
    · exact .refl _
    · exact Stmt.runBody_within (call_within hle) hle _ _

/-- **A greater bound shows more**, and what was shown stays. -/
theorem run_within {n n' : Nat} (hn : n ≤ n') : (p.run n).Within (p.run n') :=
  (Stmt.runBody_within (call_within hn) hn _ _).bind fun _ => .refl _

/-! ## What is meant -/

/-- No divisor is zero, and no quotient is too great. -/
def IsDefined (p : Program) : Prop := ∀ n, (p.run n).ending ≠ .fails .undefined

def Ends (p : Program) (prints : List Int64) (status : Int32) : Prop := ∃ n, p.run n = ⟨prints, .done status⟩

def NeverEnds (p : Program) : Prop := ∀ n, (p.run n).ending = .unfinished

theorem run_eq_run {n n' : Nat} (h : (p.run n).ending ≠ .unfinished) (h' : (p.run n').ending ≠ .unfinished) :
    p.run n = p.run n' := by
  have hmax : ∀ k, (p.run k).ending ≠ .unfinished → k ≤ max n n' → p.run k = p.run (max n n') := by
    intro k hk hle
    rcases p.run_within hle with heq | ⟨hunfinished, -⟩
    · exact heq
    · exact absurd hunfinished hk
  rw [hmax n h (Nat.le_max_left n n'), hmax n' h' (Nat.le_max_right n n')]

theorem Ends.isDefined {prints : List Int64} {status : Int32} (h : p.Ends prints status) : p.IsDefined := by
  intro n hn
  obtain ⟨n', hn'⟩ := h
  have hsame : p.run n = p.run n' := by
    apply run_eq_run
    · rw [hn]
      exact fun h => by cases h
    · rw [hn']
      exact fun h => by cases h
  rw [hsame, hn'] at hn
  cases hn

end Program
end QuillLang
