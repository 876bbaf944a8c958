import QuillLang.Proofs.Signatures.Rearranged
/-!
# Inferred signatures

Inference comes to an end on every program, with the least signatures that the program's own calls and returns allow
(`Signatures.infer_least_closed`).  A function that returns nothing has no result on record and counts as returning a number;
the inferred table is also below those that leave such results out (`Program.Allows`).
-/
namespace QuillLang

/-- A table that is enough for a program, with a result that is not on record taken for a number. -/
def Program.Allows (p : Program) (sigs : Signatures) : Prop :=
  ∀ d ∈ p.demands sigs, match d.entry with
    | .argument _ _ => sigs.Meets d
    | .result f => d.ty ≤ sigs.returnType f

namespace Signatures
variable {p : Program} {s t : Signatures}

/-! ## Results on record -/

def Entry.func? : Entry → Option String
  | argument _ _ => none
  | result f => some f

/-- The table with a result on record for each of the functions, a number where there was none. -/
def withResults (s : Signatures) (fs : List String) : Signatures := s.mergeAll (fs.map fun f => ⟨.result f, .int⟩)

theorem returnType_mergeReturn (s : Signatures) (func f : String) :
    (s.mergeReturn func .int).returnType f = s.returnType f := by
  unfold returnType
  rw [returns_mergeReturn]
  by_cases h : f = func
  · subst h
    rw [if_pos rfl, Option.getD_some]
    cases (s.returns.get? f).getD .int <;> rfl
  · rw [if_neg h]

theorem recorded?_withResults : ∀ (fs : List String) (s : Signatures) (f : String),
    (s.withResults fs).recorded? f = s.recorded? f
  | [], _, _ => rfl
  | g :: fs, s, f => recorded?_withResults fs (s.mergeReturn g .int) f

theorem returnType_withResults : ∀ (fs : List String) (s : Signatures) (f : String),
    (s.withResults fs).returnType f = s.returnType f
  | [], _, _ => rfl
  | g :: fs, s, f => (returnType_withResults fs (s.mergeReturn g .int) f).trans (returnType_mergeReturn s g f)

theorem demands_congr (h : ∀ f, s.recorded? f = t.recorded? f) (p : Program) : p.demands s = p.demands t := by
  have hparam : s.paramType = t.paramType := by
    funext f i
    rw [paramType, paramType, h]
  have hfunc : ∀ f : FuncDecl, f.demands s = f.demands t := by
    intro f
    rw [FuncDecl.demands, FuncDecl.demands, FuncDecl.paramTable, FuncDecl.paramTable, hparam]
  simp only [Program.demands, hfunc]

/-- A table that is enough is closed once the results asked for are on record. -/
theorem closed_withResults (h : p.Allows t) :
    p.Closed (t.withResults ((p.demands t).filterMap fun d => d.entry.func?)) := by
  intro d hd
  rw [demands_congr (recorded?_withResults _ t) p] at hd
  have hd' := h d hd
  obtain ⟨entry, ty⟩ := d
  cases entry with
  | argument callee position =>
    obtain ⟨ty', hrecorded, hle⟩ := hd'
    exact ⟨ty', by rw [at?, recorded?_withResults]; exact hrecorded, hle⟩
  | result f =>
    have hmem : f ∈ (p.demands t).filterMap fun d => d.entry.func? := List.mem_filterMap.2 ⟨_, hd, rfl⟩
    have hresult := mergeAll_meets t (List.mem_map_of_mem (f := fun f => ⟨.result f, .int⟩) hmem)
    obtain ⟨ty', hrecorded, -⟩ := hresult
    -- what is on record is what was returned by default
    have htype := returnType_withResults ((p.demands t).filterMap fun d => d.entry.func?) t f
    rw [returnType, show Table.get? (withResults t _).returns f = some ty' from hrecorded, Option.getD_some] at htype
    exact ⟨ty', hrecorded, htype ▸ hd'⟩

theorem returnType_mono (h : s ≤ t) (f : String) : s.returnType f ≤ t.returnType f := by
  unfold returnType
  cases hs : s.returns.get? f with
  | none => exact Ty.int_le _
  | some ty =>
    obtain ⟨ty', ht, hle⟩ := h.returns f ty hs
    rw [ht]
    exact hle

theorem infer_below_of_allows (h : p.Allows t) :
    (∀ f tys, (infer p).recorded? f = some tys → ∃ tys', t.recorded? f = some tys' ∧ Ty.Under tys tys') ∧
      ∀ f, (infer p).returnType f ≤ t.returnType f := by
  have hle := (infer_isLeast p).2 (closed_withResults h)
  constructor
  · intro f tys hf
    obtain ⟨tys', hf', hunder⟩ := hle.params f tys hf
    rw [recorded?_withResults] at hf'
    exact ⟨tys', hf', hunder⟩
  · intro f
    have hf := returnType_mono hle f
    rwa [returnType_withResults] at hf

/-! ## Main theorem -/

/-- **Inference ends, with the least closed signatures.**  The walks over a program settle after at most as many of them as
there are arguments and returns, and two more; what they settle at is inferred.  It is closed under the program, below
every other closed table and below every table that leaves out results that are numbers.  So it stays the same when calls
that stand side by side trade places and when functions are declared elsewhere. -/
theorem infer_least_closed (p : Program) :
    (∃ n ≤ Stmt.evidenceAll p.statements + 2, ∀ m, n ≤ m → (walkProgram p)^[m] empty = infer p) ∧
      IsLeast {s | p.Closed s} (infer p) ∧
      (∀ t, p.Allows t →
        (∀ f tys, (infer p).recorded? f = some tys → ∃ tys', t.recorded? f = some tys' ∧ Ty.Under tys tys') ∧
          ∀ f, (infer p).returnType f ≤ t.returnType f) ∧
      ∀ q, p.Rearranged q → infer q = infer p := by
  have hends : ∃ n ≤ Stmt.evidenceAll p.statements + 2, ∀ m, n ≤ m → (walkProgram p)^[m] empty = infer p := by
    obtain ⟨n, hn, hinfer⟩ := settle_eq_iterate (walkProgram p) (Stmt.evidenceAll p.statements + 2) empty
    have hinfer : infer p = (walkProgram p)^[n] empty := hinfer
    have hfixed := walkProgram_infer p
    refine ⟨n, hn, fun m hm => ?_⟩
    obtain ⟨k, rfl⟩ := Nat.exists_eq_add_of_le' hm
    rw [Function.iterate_add_apply, ← hinfer, Function.iterate_fixed hfixed]
  exact ⟨hends, infer_isLeast p, fun t ht => infer_below_of_allows ht, fun q hq => infer_of_rearranged hq⟩

def handOn (func param callee : String) (more : List Stmt) : FuncDecl :=
  let here : Span := ⟨⟨1, 1, 0⟩, ⟨1, 1, 0⟩⟩
  ⟨⟨func, here⟩, [⟨param, here⟩], .call ⟨callee, here⟩ [.var param here] none here :: .ret ⟨param, here⟩ here :: more, here⟩

/-- The two functions of a relay, and a call of each; only one of them is called with a text. -/
def relay : Program :=
  let here : Span := ⟨⟨1, 1, 0⟩, ⟨1, 1, 0⟩⟩
  let there := handOn "there" "x" "back" []
  let back := handOn "back" "y" "there" []
  ⟨[.call back.name [.number 1 here] none here, .call there.name [.string "a" here] none here,
    .func there.name there.params there.body there.span, .func back.name back.params back.body back.span], here⟩

/-- The same with the calls the other way round, and one function declared inside the other. -/
def relayInside : Program :=
  let here : Span := ⟨⟨1, 1, 0⟩, ⟨1, 1, 0⟩⟩
  let there := handOn "there" "x" "back" []
  let back := handOn "back" "y" "there" [.func there.name there.params there.body there.span]
  ⟨[.call there.name [.string "a" here] none here, .call back.name [.number 1 here] none here,
    .func back.name back.params back.body back.span], here⟩

theorem infer_relayInside : relay.Rearranged relayInside ∧ infer relayInside = infer relay ∧
    ∀ f, f = "there" ∨ f = "back" → (infer relay).recorded? f = some [.string] ∧ (infer relay).returnType f = .string := by
  have hrearranged : relay.Rearranged relayInside := by
    have hswap : relay.Rearranged ⟨_, relay.span⟩ := .swap (.here (.calls _ _ _ _ _ _ _ _ _))
    exact hswap.trans (.move (f := handOn "there" "x" "back" []) (.later (.later (.here (.declaration _))))
      (.later (.later (.func (.later (.later (.here (.declaration []))))))))
  refine ⟨hrearranged, (infer_least_closed relay).2.2.2 relayInside hrearranged, ?_⟩
  rintro f (rfl | rfl) <;> decide +kernel

end Signatures
end QuillLang
