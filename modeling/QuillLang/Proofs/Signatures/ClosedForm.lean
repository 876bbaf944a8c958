import QuillLang.Proofs.ByteOrder
import QuillLang.Proofs.Signatures.Order
import Mathlib.Order.Bounds.Basic
/-!
# What a table of signatures has collected

A table is made by merging demands, one after the other.  What it holds in the end can be said without their order: of each
function as many positions are recorded as the last one asked for needs, a position is a text if a text was asked for
there, and so is a result (`Signatures.Collects`).  Each of these is a statement on what one merge changes, carried over
a list of merges.
-/
namespace QuillLang

/-! ## One position -/

namespace Ty

theorem length_mergeAt : ∀ (ts : List Ty) (i : Nat) (ty : Ty), (mergeAt ts i ty).length = max ts.length (i + 1)
  | [], 0, _ => rfl
  | [], i + 1, ty => by
    rw [mergeAt, List.length_cons, length_mergeAt [] i ty]
    simp
  | t :: ts, 0, ty => by simp [mergeAt]
  | t :: ts, i + 1, ty => by
    rw [mergeAt, List.length_cons, length_mergeAt ts i ty, List.length_cons]
    omega

theorem join_eq_string {s t : Ty} : s.join t = .string ↔ s = .string ∨ t = .string := by
  cases s <;> simp [join]

theorem getElem?_mergeAt_eq_string : ∀ (ts : List Ty) (i j : Nat) (ty : Ty),
    (mergeAt ts i ty)[j]? = some .string ↔ ts[j]? = some .string ∨ j = i ∧ ty = .string
  | [], 0, 0, ty => by simp [mergeAt]
  | [], 0, j + 1, ty => by simp [mergeAt]
  | [], i + 1, 0, ty => by simp [mergeAt]
  | [], i + 1, j + 1, ty => by
    have ih := getElem?_mergeAt_eq_string [] i j ty
    simpa [mergeAt] using ih
  | t :: ts, 0, 0, ty => by simp [mergeAt, join_eq_string]
  | t :: ts, 0, j + 1, ty => by simp [mergeAt]
  | t :: ts, i + 1, 0, ty => by simp [mergeAt]
  | t :: ts, i + 1, j + 1, ty => by
    have ih := getElem?_mergeAt_eq_string ts i j ty
    simpa [mergeAt] using ih

end Ty

/-! ## Names of a table -/

namespace Table
variable {α : Type}

theorem names_ordered (t : Table α) : t.names.Pairwise fun m n => m < n := List.pairwise_map.2 t.ordered

theorem get?_foldl_insert (value : α) (name : String) : ∀ (ns : List String) (t : Table α),
    (ns.foldl (fun t n => t.insert n value) t).get? name ≠ none ↔ name ∈ ns ∨ t.get? name ≠ none
  | [], t => by simp
  | n :: ns, t => by
    rw [List.foldl_cons, get?_foldl_insert value name ns, get?_insert, List.mem_cons]
    by_cases h : name = n
    · simp [h]
    · simp [h]

end Table

/-! ## Merges -/

namespace Signatures
variable {s : Signatures} {ds : List Demand}

def Entry.owner : Entry → String
  | argument callee _ => callee
  | result func => func

def width (s : Signatures) (f : String) : Nat := ((s.recorded? f).getD []).length

theorem at?_merge_eq_string (s : Signatures) (d : Demand) (e : Entry) :
    (s.merge d).at? e = some .string ↔ s.at? e = some .string ∨ d = ⟨e, .string⟩ := by
  obtain ⟨entry, ty⟩ := d
  cases entry with
  | argument callee i =>
    cases e with
    | result f => simp [merge, mergeParam, at?]
    | argument f j =>
      show ((s.mergeParam callee i ty).recorded? f).bind (·[j]?) = some .string ↔ _
      rw [recorded?_mergeParam]
      by_cases hf : f = callee
      · subst hf
        have hold : ((s.recorded? f).getD [])[j]? = s.at? (.argument f j) := by
          show _ = (s.recorded? f).bind (·[j]?)
          cases s.recorded? f <;> rfl
        rw [if_pos rfl, Option.bind_some, Ty.getElem?_mergeAt_eq_string, hold]
        simp [eq_comm]
      · rw [if_neg hf]
        simp [at?, Ne.symm hf]
  | result func =>
    cases e with
    | argument f j => simp [merge, mergeReturn, at?, recorded?]
    | result f =>
      show (s.mergeReturn func ty).returns.get? f = some .string ↔ _
      rw [returns_mergeReturn]
      by_cases hf : f = func
      · subst hf
        rw [if_pos rfl, Option.some.injEq, Ty.join_eq_string, at?]
        cases s.returns.get? f with
        | none => simp
        | some old => simp
      · rw [if_neg hf]
        simp [at?, Ne.symm hf]

theorem width_merge_le_iff {f : String} {d : Demand} {n : Nat} :
    (s.merge d).width f ≤ n ↔ s.width f ≤ n ∧ ∀ i, d.entry = .argument f i → i < n := by
  obtain ⟨entry, ty⟩ := d
  cases entry with
  | result func => simp [merge, mergeReturn, width, recorded?]
  | argument callee i =>
    show (((s.mergeParam callee i ty).recorded? f).getD []).length ≤ n ↔ _
    rw [recorded?_mergeParam]
    by_cases hf : f = callee
    · subst hf
      rw [if_pos rfl, Option.getD_some, Ty.length_mergeAt, Nat.max_le]
      refine and_congr_right' ⟨fun h j hj => ?_, fun h => h i rfl⟩
      cases hj
      exact h
    · rw [if_neg hf]
      simp [width, Ne.symm hf]

theorem recorded?_merge_eq_none {f : String} {d : Demand} :
    (s.merge d).recorded? f = none ↔ s.recorded? f = none ∧ ∀ i, d.entry ≠ .argument f i := by
  obtain ⟨entry, ty⟩ := d
  cases entry with
  | result func => simp [merge, mergeReturn, recorded?]
  | argument callee i =>
    show (s.mergeParam callee i ty).recorded? f = none ↔ _
    rw [recorded?_mergeParam]
    by_cases hf : f = callee
    · simp [hf]
    · simp [hf, Ne.symm hf]

theorem returns_merge_eq_none {f : String} {d : Demand} :
    (s.merge d).returns.get? f = none ↔ s.returns.get? f = none ∧ d.entry ≠ .result f := by
  obtain ⟨entry, ty⟩ := d
  cases entry with
  | argument callee i => simp [merge, mergeParam]
  | result func =>
    show (s.mergeReturn func ty).returns.get? f = none ↔ _
    rw [returns_mergeReturn]
    by_cases hf : f = func
    · simp [hf]
    · simp [hf, Ne.symm hf]

/-! ## Lists of merges -/

theorem at?_mergeAll_eq_string (e : Entry) : ∀ {ds : List Demand} {s : Signatures},
    (s.mergeAll ds).at? e = some .string ↔ s.at? e = some .string ∨ ⟨e, .string⟩ ∈ ds
  | [], s => by simp [mergeAll]
  | d :: ds, s => by
    show ((s.merge d).mergeAll ds).at? e = some .string ↔ _
    rw [at?_mergeAll_eq_string e, at?_merge_eq_string, List.mem_cons, or_assoc, @eq_comm _ d]

theorem at?_mergeAll_empty {e : Entry} : (empty.mergeAll ds).at? e = some .string ↔ ⟨e, .string⟩ ∈ ds := by
  have hempty : empty.at? e = none := by cases e <;> rfl
  rw [at?_mergeAll_eq_string, hempty]
  simp

theorem width_mergeAll_le_iff {f : String} {n : Nat} : ∀ {ds : List Demand} {s : Signatures},
    (s.mergeAll ds).width f ≤ n ↔ s.width f ≤ n ∧ ∀ i ty, ⟨.argument f i, ty⟩ ∈ ds → i < n
  | [], s => by simp [mergeAll]
  | d :: ds, s => by
    have hd : (∀ i, d.entry = .argument f i → i < n) ↔ ∀ i ty, (⟨.argument f i, ty⟩ : Demand) = d → i < n :=
      ⟨fun h i ty hd => h i (hd ▸ rfl), fun h i hi => h i d.ty (by rw [← hi])⟩
    show ((s.merge d).mergeAll ds).width f ≤ n ↔ _
    rw [width_mergeAll_le_iff, width_merge_le_iff, hd, and_assoc]
    simp only [List.mem_cons, or_imp, forall_and]

theorem recorded?_mergeAll_eq_none {f : String} : ∀ {ds : List Demand} {s : Signatures},
    (s.mergeAll ds).recorded? f = none ↔ s.recorded? f = none ∧ ∀ d ∈ ds, ∀ i, d.entry ≠ .argument f i
  | [], s => by simp [mergeAll]
  | d :: ds, s => by
    show ((s.merge d).mergeAll ds).recorded? f = none ↔ _
    rw [recorded?_mergeAll_eq_none, recorded?_merge_eq_none, List.forall_mem_cons, and_assoc]

theorem returns_mergeAll_eq_none {f : String} : ∀ {ds : List Demand} {s : Signatures},
    (s.mergeAll ds).returns.get? f = none ↔ s.returns.get? f = none ∧ ∀ d ∈ ds, d.entry ≠ .result f
  | [], s => by simp [mergeAll]
  | d :: ds, s => by
    show ((s.merge d).mergeAll ds).returns.get? f = none ↔ _
    rw [returns_mergeAll_eq_none, returns_merge_eq_none, List.forall_mem_cons, and_assoc]

theorem mem_functions {f : String} : f ∈ s.functions ↔ s.recorded? f ≠ none ∨ s.returns.get? f ≠ none := by
  unfold functions
  rw [Table.mem_names, Table.get?_foldl_insert, Table.get?_foldl_insert, Table.mem_names, Table.mem_names]
  simp [recorded?, or_comm]

theorem mem_functions_mergeAll {f : String} : f ∈ (empty.mergeAll ds).functions ↔ ∃ d ∈ ds, d.entry.owner = f := by
  rw [mem_functions, ne_eq, ne_eq, recorded?_mergeAll_eq_none, returns_mergeAll_eq_none]
  constructor
  · intro h
    by_contra hnone
    simp only [not_exists, not_and] at hnone
    rcases h with h | h
    · exact h ⟨rfl, fun d hd i hi => hnone d hd (by rw [hi]; rfl)⟩
    · exact h ⟨rfl, fun d hd hi => hnone d hd (by rw [hi]; rfl)⟩
  · rintro ⟨⟨entry, ty⟩, hd, rfl⟩
    cases entry with
    | argument callee i => exact .inl fun h => h.2 _ hd i rfl
    | result func => exact .inr fun h => h.2 _ hd rfl

/-! ## The closed form -/

/-- What a table holds that has collected some demands, whatever their order. -/
structure Collects (s : Signatures) (ds : List Demand) : Prop where
  unrecorded : ∀ f, s.recorded? f = none ↔ ∀ i ty, ⟨.argument f i, ty⟩ ∉ ds
  length : ∀ f tys, s.recorded? f = some tys →
    ∃ last, IsGreatest {i | ∃ ty, ⟨.argument f i, ty⟩ ∈ ds} last ∧ tys.length = 1 + last
  text : ∀ f tys, s.recorded? f = some tys → ∀ i, tys[i]? = some .string ↔ ⟨.argument f i, .string⟩ ∈ ds
  result : ∀ f, s.returnType f = .string ↔ ⟨.result f, .string⟩ ∈ ds
  functions : s.functions.Pairwise fun f g => Utf8.bytes f < Utf8.bytes g
  mem_functions : ∀ f, f ∈ s.functions ↔ ∃ d ∈ ds, d.entry.owner = f

theorem unrecorded_iff {f : String} : (empty.mergeAll ds).recorded? f = none ↔ ∀ i ty, ⟨.argument f i, ty⟩ ∉ ds := by
  rw [recorded?_mergeAll_eq_none]
  constructor
  · intro h i ty hd
    exact h.2 _ hd i rfl
  · intro h
    refine ⟨rfl, fun d hd i hi => h i d.ty ?_⟩
    rw [← hi]
    exact hd

/-- The positions recorded are those up to the greatest one asked for. -/
theorem exists_last {f : String} {tys : List Ty} (h : (empty.mergeAll ds).recorded? f = some tys) :
    ∃ last, IsGreatest {i | ∃ ty, ⟨.argument f i, ty⟩ ∈ ds} last ∧ tys.length = 1 + last := by
  have hwidth : (empty.mergeAll ds).width f = tys.length := by rw [width, h, Option.getD_some]
  have hbound : ∀ i ty, ⟨.argument f i, ty⟩ ∈ ds → i < tys.length :=
    (width_mergeAll_le_iff.1 (Nat.le_of_eq hwidth)).2
  have hasked : ∃ i ty, ⟨.argument f i, ty⟩ ∈ ds := by
    by_contra hnone
    simp only [not_exists] at hnone
    rw [unrecorded_iff.2 hnone] at h
    cases h
  obtain ⟨i₀, ty₀, h₀⟩ := hasked
  have hpos := hbound i₀ ty₀ h₀
  -- if the last position was not asked for, fewer would do
  have hlast : ∃ ty, ⟨.argument f (tys.length - 1), ty⟩ ∈ ds := by
    by_contra hnone
    simp only [not_exists] at hnone
    have hfewer : (empty.mergeAll ds).width f ≤ tys.length - 1 := by
      refine width_mergeAll_le_iff.2 ⟨Nat.zero_le _, fun i ty hd => ?_⟩
      have hi := hbound i ty hd
      have hne : i ≠ tys.length - 1 := by
        rintro rfl
        exact hnone ty hd
      omega
    omega
  refine ⟨tys.length - 1, ⟨hlast, ?_⟩, by omega⟩
  rintro i ⟨ty, hd⟩
  have hi := hbound i ty hd
  omega

theorem collects_mergeAll (ds : List Demand) : (empty.mergeAll ds).Collects ds where
  unrecorded _ := unrecorded_iff
  length _ _ h := exists_last h
  text f tys h i := by
    rw [← at?_mergeAll_empty, at?, h, Option.bind_some]
  result f := by
    rw [← at?_mergeAll_empty, at?, returnType]
    cases (empty.mergeAll ds).returns.get? f with
    | none => simp
    | some ty => simp
  functions := (Table.names_ordered _).imp fun h => Utf8.bytes_lt_bytes h
  mem_functions _ := mem_functions_mergeAll

theorem mergeAll_eq_of_mem_iff (s : Signatures) {ds ds' : List Demand} (h : ∀ d, d ∈ ds' ↔ d ∈ ds) :
    s.mergeAll ds' = s.mergeAll ds := by
  apply le_antisymm
  · exact mergeAll_le_iff.2 ⟨le_mergeAll s ds, fun d hd => mergeAll_meets s ((h d).1 hd)⟩
  · exact mergeAll_le_iff.2 ⟨le_mergeAll s ds', fun d hd => mergeAll_meets s ((h d).2 hd)⟩

/-- **A table of signatures is the join of all that was merged into it.**  What it holds is said by the demands alone, so
their order and their number do not matter, and no merge takes a text back. -/
theorem mergeAll_join (ds : List Demand) :
    (empty.mergeAll ds).Collects ds ∧
      (∀ ds', (∀ d, d ∈ ds' ↔ d ∈ ds) → empty.mergeAll ds' = empty.mergeAll ds) ∧
      ∀ (s : Signatures) (d : Demand) (e : Entry), s.at? e = some .string → (s.merge d).at? e = some .string :=
  ⟨collects_mergeAll ds, fun _ h => mergeAll_eq_of_mem_iff empty h, fun s d e h => (at?_merge_eq_string s d e).2 (.inl h)⟩

/-- Positions of two functions out of order, and a text before a number. -/
def scattered : List Demand :=
  [⟨.argument "é" 2, .string⟩, ⟨.result "f", .string⟩, ⟨.argument "f" 0, .int⟩, ⟨.argument "é" 0, .string⟩,
    ⟨.argument "é" 0, .int⟩, ⟨.result "f", .int⟩]

theorem scattered_join : empty.mergeAll (scattered.reverse ++ scattered) = empty.mergeAll scattered ∧
    (empty.mergeAll scattered).recorded? "é" = some [.string, .int, .string] ∧
      (empty.mergeAll scattered).functions = ["f", "é"] ∧ (empty.mergeAll scattered).returnType "f" = .string :=
  ⟨(mergeAll_join scattered).2.1 _ (by simp), by decide, by decide, by decide⟩

end Signatures
end QuillLang
