import QuillLang.Typing.Infer
import Mathlib.Order.Basic
/-!
# Signatures in order

A number is less than a text, and a table of signatures is less than another when all that it records is recorded there with
the same type or a greater one.  What a program asks of its signatures is a list of demands, one for every argument of a call
and every return.  A table meets a demand when it records enough there, and merging a demand into a table gives the least
table above that meets it (`Signatures.merge_le_iff`).
-/
namespace QuillLang

/-! ## Types -/

namespace Ty

instance : LE Ty := ⟨fun s t => s = .int ∨ t = .string⟩

theorem int_le (t : Ty) : .int ≤ t := .inl rfl

theorem le_string (t : Ty) : t ≤ .string := .inr rfl

theorem eq_int_of_le {t : Ty} (h : t ≤ .int) : t = .int := by
  rcases h with h | h
  · exact h
  · cases h

theorem eq_string_of_le {t : Ty} (h : .string ≤ t) : t = .string := by
  rcases h with h | h
  · cases h
  · exact h

instance : PartialOrder Ty where
  le_refl t := by cases t <;> simp [LE.le]
  le_trans s t u hst htu := by
    rcases hst with rfl | rfl
    · exact int_le u
    · rw [eq_string_of_le htu]
      exact le_string s
  le_antisymm s t hst hts := by
    rcases hst with rfl | rfl
    · exact (eq_int_of_le hts).symm
    · exact eq_string_of_le hts

theorem join_le_iff {s t u : Ty} : s.join t ≤ u ↔ s ≤ u ∧ t ≤ u := by
  cases s with
  | int => simp [join, int_le]
  | string =>
    constructor
    · intro h
      exact ⟨h, (le_string t).trans h⟩
    · exact fun h => h.1

theorem join_le_join {s s' t t' : Ty} (hs : s ≤ s') (ht : t ≤ t') : s.join t ≤ s'.join t' := by
  have hjoin := join_le_iff.1 (le_refl (s'.join t'))
  exact join_le_iff.2 ⟨hs.trans hjoin.1, ht.trans hjoin.2⟩

/-- Every position of the first list is there in the second, with no lesser type. -/
def Under : List Ty → List Ty → Prop
  | [], _ => True
  | _ :: _, [] => False
  | s :: ss, t :: ts => s ≤ t ∧ Under ss ts

theorem under_refl : ∀ ts : List Ty, Under ts ts
  | [] => trivial
  | t :: ts => ⟨le_refl t, under_refl ts⟩

theorem under_trans : ∀ {ss ts us : List Ty}, Under ss ts → Under ts us → Under ss us
  | [], _, _, _, _ => trivial
  | _ :: _, _ :: _, _ :: _, hst, htu => ⟨hst.1.trans htu.1, under_trans hst.2 htu.2⟩

theorem under_antisymm : ∀ {ss ts : List Ty}, Under ss ts → Under ts ss → ss = ts
  | [], [], _, _ => rfl
  | s :: ss, t :: ts, hst, hts => by rw [le_antisymm hst.1 hts.1, under_antisymm hst.2 hts.2]

theorem Under.getElem? : ∀ {ss ts : List Ty}, Under ss ts → ∀ {i : Nat} {s : Ty}, ss[i]? = some s →
    ∃ t, ts[i]? = some t ∧ s ≤ t
  | s :: ss, t :: ts, h, 0, u, hu => by
    simp only [List.getElem?_cons_zero, Option.some.injEq] at hu
    exact ⟨t, rfl, hu ▸ h.1⟩
  | s :: ss, t :: ts, h, i + 1, u, hu => by
    rw [List.getElem?_cons_succ] at hu ⊢
    exact h.2.getElem? hu

/-- Merging a type into a position asks for that position and no more. -/
theorem mergeAt_under_iff : ∀ (ss : List Ty) (i : Nat) (ty : Ty) (ts : List Ty),
    Under (mergeAt ss i ty) ts ↔ Under ss ts ∧ ∃ t, ts[i]? = some t ∧ ty ≤ t
  | _, _, _, [] => by
    constructor
    · intro h
      unfold mergeAt at h
      split at h <;> exact h.elim
    · rintro ⟨-, t, ht, -⟩
      cases ht
  | [], 0, ty, t :: ts => by simp [mergeAt, Under]
  | [], i + 1, ty, t :: ts => by
    have ih := mergeAt_under_iff [] i ty ts
    simpa [mergeAt, Under, int_le] using ih
  | s :: ss, 0, ty, t :: ts => by
    simp only [mergeAt, Under, join_le_iff, List.getElem?_cons_zero, Option.some.injEq, exists_eq_left']
    exact and_right_comm
  | s :: ss, i + 1, ty, t :: ts => by
    have ih := mergeAt_under_iff ss i ty ts
    simp only [mergeAt, Under, List.getElem?_cons_succ, ih]
    exact and_assoc.symm

end Ty

/-! ## Tables of signatures -/

namespace Signatures

/-- All that is recorded is recorded above, with no lesser type. -/
structure Below (s t : Signatures) : Prop where
  params : ∀ f tys, s.recorded? f = some tys → ∃ tys', t.recorded? f = some tys' ∧ Ty.Under tys tys'
  returns : ∀ f ty, s.returns.get? f = some ty → ∃ ty', t.returns.get? f = some ty' ∧ ty ≤ ty'

instance : LE Signatures := ⟨Below⟩

theorem below_antisymm {s t : Signatures} (hst : s ≤ t) (hts : t ≤ s) : s = t := by
  have hparams : s.params = t.params := by
    apply Table.ext_get?
    intro f
    show s.recorded? f = t.recorded? f
    cases hs : s.recorded? f with
    | some tys =>
      obtain ⟨tys', ht, hle⟩ := hst.params f tys hs
      obtain ⟨tys'', hs', hle'⟩ := hts.params f tys' ht
      cases hs.symm.trans hs'
      rw [ht, Ty.under_antisymm hle hle']
    | none =>
      cases ht : t.recorded? f with
      | none => rfl
      | some tys =>
        obtain ⟨tys', hs', -⟩ := hts.params f tys ht
        cases hs.symm.trans hs'
  have hreturns : s.returns = t.returns := by
    apply Table.ext_get?
    intro f
    cases hs : s.returns.get? f with
    | some ty =>
      obtain ⟨ty', ht, hle⟩ := hst.returns f ty hs
      obtain ⟨ty'', hs', hle'⟩ := hts.returns f ty' ht
      cases hs.symm.trans hs'
      rw [ht, le_antisymm hle hle']
    | none =>
      cases ht : t.returns.get? f with
      | none => rfl
      | some ty =>
        obtain ⟨ty', hs', -⟩ := hts.returns f ty ht
        cases hs.symm.trans hs'
  cases s
  cases t
  cases hparams
  cases hreturns
  rfl

instance : PartialOrder Signatures where
  le_refl s := ⟨fun _ tys h => ⟨tys, h, Ty.under_refl tys⟩, fun _ ty h => ⟨ty, h, le_refl ty⟩⟩
  le_trans s t u hst htu := by
    constructor
    · intro f tys hs
      obtain ⟨tys', ht, hle⟩ := hst.params f tys hs
      obtain ⟨tys'', hu, hle'⟩ := htu.params f tys' ht
      exact ⟨tys'', hu, Ty.under_trans hle hle'⟩
    · intro f ty hs
      obtain ⟨ty', ht, hle⟩ := hst.returns f ty hs
      obtain ⟨ty'', hu, hle'⟩ := htu.returns f ty' ht
      exact ⟨ty'', hu, hle.trans hle'⟩
  le_antisymm _ _ := below_antisymm

theorem empty_le (s : Signatures) : empty ≤ s := ⟨fun _ _ h => (by cases h), fun _ _ h => (by cases h)⟩

theorem paramType_mono {s t : Signatures} (h : s ≤ t) (f : String) (i : Nat) : s.paramType f i ≤ t.paramType f i := by
  unfold paramType
  cases hs : s.recorded? f with
  | none => exact Ty.int_le _
  | some tys =>
    obtain ⟨tys', ht, hle⟩ := h.params f tys hs
    rw [ht, Option.getD_some, Option.getD_some]
    cases hi : tys[i]? with
    | none => exact Ty.int_le _
    | some ty =>
      obtain ⟨ty', hi', hty⟩ := hle.getElem? hi
      rw [hi']
      exact hty

end Signatures

/-! ## Demands -/

inductive Signatures.Entry where
  | argument (callee : String) (position : Nat)
  | result (func : String)
  deriving DecidableEq

/-- What a piece of a program asks of the signatures: a type at a place, or one above it. -/
structure Demand where
  entry : Signatures.Entry
  ty : Ty
  deriving DecidableEq

def Demand.Under (d d' : Demand) : Prop := d.entry = d'.entry ∧ d.ty ≤ d'.ty

namespace Signatures
variable {s t : Signatures} {d : Demand}

def at? (s : Signatures) : Entry → Option Ty
  | .argument callee position => (s.recorded? callee).bind (·[position]?)
  | .result func => s.returns.get? func

def Meets (s : Signatures) (d : Demand) : Prop := ∃ ty, s.at? d.entry = some ty ∧ d.ty ≤ ty

def merge (s : Signatures) (d : Demand) : Signatures :=
  match d.entry with
  | .argument callee position => s.mergeParam callee position d.ty
  | .result func => s.mergeReturn func d.ty

theorem at?_mono (h : s ≤ t) {entry : Entry} {ty : Ty} (hs : s.at? entry = some ty) :
    ∃ ty', t.at? entry = some ty' ∧ ty ≤ ty' := by
  cases entry with
  | argument callee position =>
    obtain ⟨tys, hs, hi⟩ := Option.bind_eq_some_iff.1 hs
    obtain ⟨tys', ht, hle⟩ := h.params callee tys hs
    obtain ⟨ty', hi', hty⟩ := hle.getElem? hi
    exact ⟨ty', Option.bind_eq_some_iff.2 ⟨tys', ht, hi'⟩, hty⟩
  | result func => exact h.returns func ty hs

theorem Meets.of_under {d' : Demand} (hd : s.Meets d') (h : d.Under d') : s.Meets d := by
  obtain ⟨ty, hs, hty⟩ := hd
  exact ⟨ty, h.1 ▸ hs, h.2.trans hty⟩

theorem Meets.paramType {f : String} {i : Nat} (h : s.Meets ⟨.argument f i, .string⟩) : s.paramType f i = .string := by
  obtain ⟨ty, hty, hle⟩ := h
  obtain ⟨tys, htys, hi⟩ := Option.bind_eq_some_iff.1 hty
  rw [Signatures.paramType, htys, Option.getD_some, hi, Option.getD_some]
  exact Ty.eq_string_of_le hle

theorem Meets.returnType {f : String} (h : s.Meets ⟨.result f, .string⟩) : s.returnType f = .string := by
  obtain ⟨ty, hty, hle⟩ := h
  rw [Signatures.returnType, show s.returns.get? f = some ty from hty, Option.getD_some]
  exact Ty.eq_string_of_le hle

theorem recorded?_mergeParam (s : Signatures) (callee f : String) (i : Nat) (ty : Ty) :
    (s.mergeParam callee i ty).recorded? f =
      if f = callee then some (Ty.mergeAt ((s.recorded? callee).getD []) i ty) else s.recorded? f :=
  Table.get?_alter s.params callee f _

theorem returns_mergeReturn (s : Signatures) (func f : String) (ty : Ty) :
    (s.mergeReturn func ty).returns.get? f =
      if f = func then some (((s.returns.get? func).getD ty).join ty) else s.returns.get? f :=
  Table.get?_alter s.returns func f _

theorem mergeParam_le_iff {callee : String} {i : Nat} {ty : Ty} :
    s.mergeParam callee i ty ≤ t ↔ s ≤ t ∧ t.Meets ⟨.argument callee i, ty⟩ := by
  constructor
  · intro h
    obtain ⟨tys, ht, hle⟩ := h.params callee _ (by rw [recorded?_mergeParam, if_pos rfl])
    obtain ⟨hle, ty', hi, hty⟩ := (Ty.mergeAt_under_iff _ _ _ _).1 hle
    refine ⟨⟨fun f old hf => ?_, h.returns⟩, ty', Option.bind_eq_some_iff.2 ⟨tys, ht, hi⟩, hty⟩
    by_cases hfc : f = callee
    · subst hfc
      rw [hf] at hle
      exact ⟨tys, ht, hle⟩
    · exact h.params f old (by rw [recorded?_mergeParam, if_neg hfc, hf])
  · rintro ⟨hle, ty', hd, hty⟩
    obtain ⟨tys, ht, hi⟩ := Option.bind_eq_some_iff.1 hd
    refine ⟨fun f new hf => ?_, hle.returns⟩
    rw [recorded?_mergeParam] at hf
    by_cases hfc : f = callee
    · subst hfc
      rw [if_pos rfl] at hf
      cases hf
      refine ⟨tys, ht, (Ty.mergeAt_under_iff _ _ _ _).2 ⟨?_, ty', hi, hty⟩⟩
      cases hs : s.recorded? f with
      | none => exact trivial
      | some old =>
        obtain ⟨tys', ht', hunder⟩ := hle.params f old hs
        cases ht.symm.trans ht'
        exact hunder
    · rw [if_neg hfc] at hf
      exact hle.params f new hf

theorem mergeReturn_le_iff {func : String} {ty : Ty} :
    s.mergeReturn func ty ≤ t ↔ s ≤ t ∧ t.Meets ⟨.result func, ty⟩ := by
  constructor
  · intro h
    obtain ⟨ty', ht, hle⟩ := h.returns func _ (by rw [returns_mergeReturn, if_pos rfl])
    obtain ⟨hold, hty⟩ := Ty.join_le_iff.1 hle
    refine ⟨⟨h.params, fun f old hf => ?_⟩, ty', ht, hty⟩
    by_cases hff : f = func
    · subst hff
      rw [hf] at hold
      exact ⟨ty', ht, hold⟩
    · exact h.returns f old (by rw [returns_mergeReturn, if_neg hff, hf])
  · rintro ⟨hle, ty', ht, hty⟩
    refine ⟨hle.params, fun f new hf => ?_⟩
    rw [returns_mergeReturn] at hf
    by_cases hff : f = func
    · subst hff
      rw [if_pos rfl] at hf
      cases hf
      refine ⟨ty', ht, Ty.join_le_iff.2 ⟨?_, hty⟩⟩
      cases hs : s.returns.get? f with
      | none => exact hty
      | some old =>
        obtain ⟨ty'', ht', hold⟩ := hle.returns f old hs
        have ht : t.returns.get? f = some ty' := ht
        cases ht.symm.trans ht'
        exact hold
    · rw [if_neg hff] at hf
      exact hle.returns f new hf

/-- **A merge is the least table above that meets the demand.** -/
theorem merge_le_iff : s.merge d ≤ t ↔ s ≤ t ∧ t.Meets d := by
  obtain ⟨entry, ty⟩ := d
  cases entry with
  | argument callee position => exact mergeParam_le_iff
  | result func => exact mergeReturn_le_iff

def mergeAll (s : Signatures) (ds : List Demand) : Signatures := ds.foldl merge s

theorem mergeAll_append (s : Signatures) (ds ds' : List Demand) :
    s.mergeAll (ds ++ ds') = (s.mergeAll ds).mergeAll ds' := List.foldl_append

theorem mergeAll_le_iff : ∀ {ds : List Demand} {s : Signatures}, s.mergeAll ds ≤ t ↔ s ≤ t ∧ ∀ d ∈ ds, t.Meets d
  | [], s => by simp [mergeAll]
  | d :: ds, s => by
    show (s.merge d).mergeAll ds ≤ t ↔ _
    rw [mergeAll_le_iff, merge_le_iff, List.forall_mem_cons, and_assoc]

theorem le_mergeAll (s : Signatures) (ds : List Demand) : s ≤ s.mergeAll ds := (mergeAll_le_iff.1 (le_refl _)).1

theorem mergeAll_meets (s : Signatures) {ds : List Demand} (h : d ∈ ds) : (s.mergeAll ds).Meets d :=
  (mergeAll_le_iff.1 (le_refl _)).2 d h

theorem mergeAll_eq_self {ds : List Demand} (h : ∀ d ∈ ds, s.Meets d) : s.mergeAll ds = s :=
  le_antisymm (mergeAll_le_iff.2 ⟨le_refl s, h⟩) (le_mergeAll s ds)

end Signatures
end QuillLang
