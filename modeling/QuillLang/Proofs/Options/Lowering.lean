import QuillLang.Proofs.Options.Alike
/-!
# Two runs of lowering

Lowering is run twice from states that are alike.  As long as it meets no drawing statement, or both states have declared
the drawing routines or neither has, the two runs do the same: both refuse the program for one fault, or they end in states
that are alike (`Lower.Orderly.blind`).  And they never refuse it because drawing is not allowed; that is decided before.
-/
namespace QuillLang

/-- Alike in what is built, and the same in everything else. -/
structure LowerState.Alike (g g' : Bool) (s s' : LowerState) : Prop where
  builder : s.builder.Alike g g' s'.builder
  functions : s.functions = s'.functions
  scopes : s.scopes = s'.scopes
  frames : s.frames = s'.frames
  ret : s.ret = s'.ret
  loopDepth : s.loopDepth = s'.loopDepth
  afterReturn : s.afterReturn = s'.afterReturn
  /-- No function of the program is called by the name of a drawing routine. -/
  symbols : ∀ name info, s.functions.get? name = some info → External.draws info.symbol = false

theorem LowerState.Alike.eq {g g' : Bool} {s s' : LowerState} (h : s.Alike g g' s') :
    s' = { s with builder := s'.builder } := by
  obtain ⟨-, hfunctions, hscopes, hframes, hret, hdepth, hafter, -⟩ := h
  rw [hfunctions, hscopes, hframes, hret, hdepth, hafter]

namespace Lower
variable {α : Type} {g g' : Bool} {x : Lower α}

/-- Runs that end alike, or with one fault that is not that drawing is not allowed. -/
inductive Agree (g g' : Bool) : Except LowerError (α × LowerState) → Except LowerError (α × LowerState) → Prop where
  | ok (a : α) {s s' : LowerState} (h : s.Alike g g' s') : Agree g g' (.ok (a, s)) (.ok (a, s'))
  | error (e : LowerError) (h : ∀ span, e ≠ .graphicsDisabled span) : Agree g g' (.error e) (.error e)

theorem Agree.build {s s' : LowerState} {step : Build Nat α} (h : step.Blind g g') (hs : s.Alike g g' s') :
    Agree g g' ((build step).run s) ((build step).run s') := by
  obtain ⟨hresult, hstate⟩ := h _ _ hs.builder
  show Agree g g' (.ok ((step.run s.builder).1, _)) (.ok ((step.run s'.builder).1, _))
  rw [← hresult]
  exact .ok _ { hs with builder := hstate }

/-- **A step made of calls in order is blind** if the drawing routines that it may call are declared alike. -/
theorem Orderly.blind {p q : Builder.Phase} {s : LowerState} {P : α → LowerState → Prop}
    (h : Orderly (View.plain (g = g')) s p x P q) :
    ∀ {s' : LowerState}, s.Alike g g' s' → Agree g g' (x.run s) (x.run s') := by
  induction h with
  | pure => exact fun hs => .ok _ hs
  | throw _ h => exact fun _ => .error _ h
  | imp _ _ ih => exact ih
  | @get_bind _ s _ _ f _ same _ ih =>
    intro s' hs
    have hf : f s' = f s := (congrArg _ hs.eq).trans (same s s'.builder)
    show Agree g g' ((f s).run s) ((f s').run s')
    rw [hf]
    exact ih hs
  | @modifyGet _ s _ m _ same le =>
    intro s' hs
    have hbuilder : (m s).2.builder = s.builder := congrArg (fun r => r.2.builder) (same s s.builder)
    have hsame := same s s'.builder
    rw [← hs.eq] at hsame
    show Agree g g' (.ok ((m s).1, (m s).2)) (.ok ((m s').1, (m s').2))
    rw [hsame]
    exact .ok _ ⟨hbuilder ▸ hs.builder, rfl, rfl, rfl, rfl, rfl, rfl, le hs.symbols⟩
  | call c next _ sound => exact fun hs => .build (c.blind next sound) hs
  | @bind _ _ s _ _ _ x _ _ _ first _ ihx ihf =>
    intro s' hs
    have hrun := ihx hs
    have hgives := first.gives (.inr hs.symbols)
    rw [run_bind, run_bind]
    generalize x.run s' = r' at hrun
    generalize hr : x.run s = r at hrun
    cases hrun with
    | ok a h' =>
      obtain ⟨hle, hP⟩ := hgives _ _ hr
      exact ihf a _ hle hP h'
    | error e he => exact .error e he
  | @functionInfo _ s _ _ _ _ _ name _ ih =>
    intro s' hs
    rw [run_bind, run_bind, run_functionInfo, run_functionInfo, ← hs.functions]
    cases hinfo : s.functions.get? name.name with
    | none => exact .error _ (by simp)
    | some info => exact ih info (.inr (hs.symbols _ info hinfo)) trivial hs
  | @isTerminated _ s _ f _ same _ _ ihopen ihended =>
    intro s' hs
    have hf : f s' = f s := (congrArg _ hs.eq).trans (same s s'.builder hs.builder.isTerminated.symm)
    show Agree g g' ((f s).run s) ((f s').run s')
    rw [hf]
    cases hterminated : s.builder.isTerminated with
    | false => exact ihopen hterminated hs
    | true => exact ihended hterminated hs

end Lower
end QuillLang
