import QuillLang.Proofs.ControlFlow
import QuillLang.Proofs.Escapes
import QuillLang.Proofs.Points.Walk
/-!
# Names of constants and routines

A listing shows a name as it is or between quotes, and either way a reader gets the bytes of the name back
(`Symbol.read?_ofName`): no name that stands as it is begins with a quote.  So two names are never shown alike.

In the assembly of a program, no two constants or routines have one name.  The constants are numbered as they come
(`Builder.Numbered`), which every call of the builder keeps, and no routine is called like a constant.
-/
namespace QuillLang

namespace Symbol

/-! ## Reading -/

/-- Letters and digits of ASCII, and four signs. -/
def isNameChar (c : Char) : Bool := c.isAlphanum || c == '.' || c == '_' || c == '-' || c == '$'

/-- A name in a listing: without quotes, and then it does not begin with a digit, or between quotes. -/
inductive Shown : List Char → Prop where
  | plain {c : Char} {cs : List Char} (name : ∀ d ∈ c :: cs, isNameChar d = true) (digit : c.isDigit = false) :
    Shown (c :: cs)
  | quoted {body : List Char} (h : Quotable body) : Shown ('"' :: (body ++ ['"']))

/-- The bytes of the name that is shown. -/
def read? : List Char → Option (List UInt8)
  | '"' :: cs =>
    match readQuoted cs with
    | some (bs, []) => some bs
    | _ => none
  | cs => some (cs.flatMap String.utf8EncodeChar)

theorem isNameByte_ofNat : ∀ n < 256, isNameByte (UInt8.ofNat n) = true → n < 128 ∧ isNameChar (Char.ofNat n) = true ∧
    (Char.ofNat n).isDigit = isDigitByte (UInt8.ofNat n) := by decide +kernel

theorem isNameChar_of_firstByte {c : Char} {b : UInt8} {bs : List UInt8} (hc : String.utf8EncodeChar c = b :: bs)
    (hb : isNameByte b = true) : isNameChar c = true ∧ c.isDigit = isDigitByte b := by
  rw [← UInt8.ofNat_toNat (x := b)] at hb
  obtain ⟨hlow, hname, hdigit⟩ := isNameByte_ofNat b.toNat b.toNat_lt hb
  have hfirst := (Utf8.utf8EncodeChar_eq_cons.1 hc).1
  have hcode : c.toNat = b.toNat := by
    have hcases := Utf8.firstByte_cases c.toNat
    omega
  rw [← hcode, Char.ofNat_toNat] at hname hdigit
  rw [hname, hdigit, hcode, UInt8.ofNat_toNat]
  exact ⟨rfl, rfl⟩

theorem shown_of_isPlain {s : String} (h : isPlain s = true) : Shown s.toList ∧ ∀ d ∈ s.toList, isNameChar d = true := by
  unfold isPlain at h
  split at h
  · cases h
  rename_i b bs hbytes
  rw [Bool.and_eq_true, Bool.not_eq_true', List.all_eq_true] at h
  obtain ⟨hdigit, hall⟩ := h
  have hname : ∀ d ∈ s.toList, isNameChar d = true := by
    intro d hd
    have hmem : UInt8.ofNat (Utf8.firstByte d.toNat) ∈ Utf8.bytes s :=
      List.mem_flatMap.2 ⟨d, hd, Utf8.utf8EncodeChar_eq d ▸ List.mem_cons_self⟩
    exact (isNameChar_of_firstByte (Utf8.utf8EncodeChar_eq d) (hall _ (hbytes ▸ hmem))).1
  refine ⟨?_, hname⟩
  cases hs : s.toList with
  | nil =>
    rw [Utf8.bytes, hs] at hbytes
    cases hbytes
  | cons c cs =>
    rw [Utf8.bytes, hs, List.flatMap_cons, Utf8.utf8EncodeChar_eq, List.cons_append, List.cons.injEq] at hbytes
    have hfirst := isNameChar_of_firstByte (Utf8.utf8EncodeChar_eq c) (hbytes.1 ▸ hall b List.mem_cons_self)
    exact .plain (hs ▸ hname) (by rw [hfirst.2, hbytes.1, hdigit])

/-- **A name is read as it was**, whether it stands between quotes or not. -/
theorem read?_ofName (s : String) : Shown (ofName s).toList ∧ read? (ofName s).toList = some (Utf8.bytes s) := by
  unfold ofName
  split
  · rename_i hplain
    obtain ⟨hshown, hname⟩ := shown_of_isPlain hplain
    refine ⟨hshown, ?_⟩
    unfold read?
    split
    · rename_i cs hs
      exact absurd (hname '"' (hs ▸ List.mem_cons_self)) (by decide)
    · rfl
  · obtain ⟨hquotable, -, hcloses⟩ := carries_escape s
    have htext : ("\"" ++ escape s ++ "\"").toList = '"' :: ((escape s).toList ++ ['"']) := by simp
    rw [htext]
    refine ⟨.quoted hquotable, ?_⟩
    rw [read?, hcloses []]

theorem ofName_injective : Function.Injective ofName := by
  intro s t h
  apply Utf8.bytes_injective
  rw [← Option.some_inj, ← (read?_ofName s).2, ← (read?_ofName t).2, h]

end Symbol

/-! ## Constants -/

namespace Builder

/-- The constants are numbered as they come. -/
def Numbered {ν : Type} [Counter ν] (b : Builder ν) : Prop :=
  b.assembly.globals.map Global.name =
    (List.range b.assembly.globals.length).map fun n => ".str." ++ Decimal.ofNat (Counter.toNat (Counter.ofNat n : ν))

theorem closeRoutine_globals {ν : Type} [Counter ν] (b : Builder ν) :
    b.closeRoutine.assembly.globals = b.assembly.globals := by
  rw [closeRoutine_eq]

theorem Numbered.nodup {ν : Type} [Counter ν] {b : Builder ν} (h : b.Numbered)
    (hnumbers : ∀ m < b.assembly.globals.length, ∀ n < b.assembly.globals.length,
      Counter.toNat (Counter.ofNat m : ν) = Counter.toNat (Counter.ofNat n : ν) → m = n) :
    (b.assembly.globals.map Global.name).Nodup := by
  rw [h]
  refine List.nodup_range.map_on fun m hm n hn hmn => hnumbers m (List.mem_range.1 hm) n (List.mem_range.1 hn) ?_
  exact Decimal.ofNat_injective ((String.append_right_inj _).1 hmn)

theorem Numbered.stringConstant {ν : Type} [Counter ν] {b : Builder ν} (h : b.Numbered) (content : String) :
    ((stringConstant content).run b).2.Numbered := by
  obtain ⟨name, -, hrun⟩ | ⟨hnone, hrun⟩ := b.stringConstant_cases content <;> rw [hrun]
  · exact h
  · show List.map _ (_ ++ [_]) = List.map _ (List.range (_ ++ [_]).length)
    rw [List.length_append, List.length_singleton, List.range_succ, List.map_append, List.map_append, h, b.counted]
    rfl

theorem invariant_numbered : Invariant Numbered := by
  intro α c b hb
  have hsame {b' : Builder} (h : b'.assembly.globals = b.assembly.globals) : b'.Numbered := by
    unfold Numbered
    rw [h]
    exact hb
  have hinvoke (callee : String) (fixed : List Operand) (extra : List (MachineType × Operand)) :
      ((callVariadic callee fixed extra).run b).2.assembly.globals = b.assembly.globals := by
    simp only [callVariadic, Build.run_bind, Build.run_get]
    split <;> rfl
  have hclose (b : Builder) : b.closeBlock.assembly.globals = b.assembly.globals := by rw [closeBlock_eq]
  cases c with
  | store | load | compute | terminate | createBlock | alloca | initSlot | register => exact hsame rfl
  | invoke callee fixed extra => exact hsame (hinvoke callee fixed extra)
  | quit => exact hsame ((hclose _).trans (hinvoke "exit" [.int 0] []))
  | stringConstant content => exact hb.stringConstant content
  | declareExternal name sig =>
    show Numbered (ite _ _ _)
    split <;> exact hsame rfl
  | startRoutine name params ret =>
    obtain ⟨ps, hrun, -⟩ := run_startRoutine name params ret b
    rw [Call.run, hrun]
    exact hsame b.closeRoutine_globals
  | finishRoutine => exact hsame b.closeRoutine_globals
  | startBlock => exact hsame (hclose b)

end Builder

theorem Assembled.head_ne_dot {p : Program} {sigs : Signatures} {a : Assembly} {es : List External} {fs : List Routine}
    {main : Routine} {signature : String → Option CallSignature} (h : Assembled p sigs a es fs main signature) :
    ∀ name ∈ a.routines.map Routine.name, name.toList.head? ≠ some '.' := by
  have hexternal : ∀ name ∈ External.names, name.toList.head? ≠ some '.' := by decide
  have hnames : a.routines.map Routine.name = es.map External.name ++ (fs.map Routine.name ++ ["main"]) := by
    rw [h.routines, List.map_append, List.map_append, List.map_map, List.map_singleton, h.main_name]
    rfl
  rw [hnames, h.function_names]
  refine List.forall_mem_append.2 ⟨fun _ hname => ?_, List.forall_mem_append.2 ⟨fun _ hname => ?_, by decide⟩⟩
  · obtain ⟨e, he, rfl⟩ := List.mem_map.1 hname
    exact hexternal _ (h.external_mem_names he)
  · obtain ⟨f, -, rfl⟩ := List.mem_map.1 hname
    simp

/-- **No two constants or routines of a program's assembly have one name.** -/
theorem Program.names_nodup_of_lower {p : Program} {sigs : Signatures} {options : LowerOptions} {a : Assembly}
    (h : p.lower sigs options = .ok a) : (a.routines.map Routine.name ++ a.globals.map Global.name).Nodup := by
  obtain ⟨es, fs, main, signature, ha⟩ := assembled_of_lower h
  have hroutines := ha.names_nodup
  obtain ⟨b, hnumbered, rfl⟩ := exists_of_calls Builder.invariant_numbered rfl h
  refine List.nodup_append.2 ⟨hroutines, hnumbered.nodup fun _ _ _ _ h => h, ?_⟩
  rintro _ hr _ hg rfl
  rw [hnumbered] at hg
  obtain ⟨n, -, rfl⟩ := List.mem_map.1 hg
  exact ha.head_ne_dot _ hr (by simp)

namespace Symbol

/-- **No two names are shown alike.**  A name is shown as ASCII, plain or between quotes, from which a reader gets its bytes
back; and in a program's assembly, every constant and every routine has a name of its own. -/
theorem names_apart : (∀ s, Shown (ofName s).toList ∧ read? (ofName s).toList = some (Utf8.bytes s)) ∧
    Function.Injective ofName ∧ ∀ (p : Program) (sigs : Signatures) (options : LowerOptions) (a : Assembly),
      p.lower sigs options = .ok a → ((a.routines.map Routine.name ++ a.globals.map Global.name).map ofName).Nodup :=
  ⟨read?_ofName, ofName_injective, fun _ _ _ _ h => (Program.names_nodup_of_lower h).map ofName_injective⟩

theorem greeting_names_apart : ∃ a, Program.greeting.lower (Signatures.infer Program.greeting) .standard = .ok a ∧
    ((a.routines.map Routine.name ++ a.globals.map Global.name).map ofName).Nodup := by
  obtain ⟨a, ha, -⟩ := Program.greeting_lowers
  exact ⟨a, ha, names_apart.2.2 _ _ _ a ha⟩

/-- A name, and another one that is what the first is shown as. -/
example : ofName "é" = "\"\\C3\\A9\"" ∧ ofName "\"\\C3\\A9\"" = "\"\\22\\5CC3\\5CA9\\22\"" := by decide

end Symbol
end QuillLang
