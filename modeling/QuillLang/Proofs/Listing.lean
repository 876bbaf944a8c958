import QuillLang.Proofs.Words
/-!
# The lines of a listing

Texts from outside come into a listing between quotes, as names or as the title in its first line.  Between quotes and in
names a linefeed is escaped, so it starts a new line nowhere but in the title, which stands as it is.  The number of lines
of a listing is then that of its title and what the shape of the assembly asks for (`Assembly.height`).
-/
namespace QuillLang

/-! ## Texts of one line -/

def IsLine (s : String) : Prop := '\n' ∉ s.toList

namespace IsLine

theorem append_iff {s t : String} : IsLine (s ++ t) ↔ IsLine s ∧ IsLine t := by
  simp [IsLine]

theorem join {l : List String} (h : ∀ s ∈ l, IsLine s) : IsLine (String.join l) := by
  unfold IsLine
  rw [String.toList_join, List.mem_flatMap]
  rintro ⟨s, hs, hmem⟩
  exact h s hs hmem

theorem intercalate {sep : String} (hsep : IsLine sep) : ∀ {l : List String}, (∀ s ∈ l, IsLine s) →
    IsLine (sep.intercalate l)
  | [], _ => by simp [IsLine]
  | [s], h => by simpa using h s (by simp)
  | s :: t :: l, h => by
    have hrest : IsLine (sep.intercalate (t :: l)) := intercalate hsep fun x hx => h x (List.mem_cons_of_mem s hx)
    rw [String.intercalate_cons_of_ne_nil (by simp), append_iff, append_iff]
    exact ⟨⟨h s (by simp), hsep⟩, hrest⟩

theorem ofNat (n : Nat) : IsLine (Decimal.ofNat n) := fun h => absurd (Decimal.isDigit_of_mem h) (by decide)

theorem of_isWord {s : String} (h : IsWord s) : IsLine s := linefeed_notMem h

end IsLine

theorem Symbol.isLine_escape (s : String) : IsLine (escape s) := by
  rw [IsLine, escape, String.toList_ofList]
  exact (flatMap_escapeByte_reads (Utf8.bytes s)).1.linefeed_notMem

theorem Symbol.isLine_ofName (s : String) : IsLine (ofName s) := .of_isWord (isWord_ofName s)

theorem MachineType.isLine_text (ty : MachineType) : IsLine ty.text := .of_isWord ty.isWord_text

theorem isLine_typedText (arg : MachineType × Operand) : IsLine (typedText arg) :=
  IsLine.append_iff.2 ⟨IsLine.append_iff.2 ⟨arg.1.isLine_text, by simp [IsLine]⟩, .of_isWord arg.2.isWord_text⟩

theorem Instr.isLine_text (i : Instr) : IsLine i.text := by
  have hspell := i.areWords_pieces.linefeed_notMem
  rw [i.spell_pieces] at hspell
  exact fun hmem => hspell (List.mem_cons_of_mem _ hmem)

/-! ## Routines -/

namespace Block

theorem Labels.isLine {id : BlockId} {label : String} (h : Labels id label) : IsLine label := by
  obtain ⟨name, hname, rfl⟩ := h
  have hnames : ∀ name ∈ names, IsLine name := by
    simp [names, IsLine]
  exact IsLine.append_iff.2 ⟨IsLine.append_iff.2 ⟨hnames name hname, by simp [IsLine]⟩, .ofNat _⟩

theorem Framed.isLine_label {ks : List Block} (h : Framed ks) {k : Block} (hk : k ∈ ks) : IsLine k.label := by
  cases ks with
  | nil => cases hk
  | cons first rest =>
    rcases List.mem_cons.1 hk with rfl | hk
    · rw [h.entry k rfl]
      simp [IsLine]
    · exact (h.rest k hk).isLine

end Block

namespace Routine
variable {r : Routine}

theorem isLine_labelOf (h : Block.Framed r.blocks) (id : BlockId) : IsLine (r.labelOf id) := by
  unfold labelOf
  split
  · rename_i k hk
    exact h.isLine_label (List.mem_reverse.1 (List.mem_of_find?_eq_some hk))
  · exact IsLine.append_iff.2 ⟨by simp [IsLine], .ofNat _⟩

theorem isLine_terminatorText (h : Block.Framed r.blocks) (t : Option Terminator) : IsLine (r.terminatorText t) := by
  have hret : IsLine "ret " := by simp [IsLine]
  have hbr : IsLine "br label %" := by simp [IsLine]
  unfold terminatorText
  split
  · exact IsLine.append_iff.2 ⟨hret, isLine_typedText _⟩
  · simp [IsLine]
  · exact IsLine.append_iff.2 ⟨hbr, isLine_labelOf h _⟩
  · simp only [IsLine.append_iff, isLine_labelOf h, IsLine.of_isWord (Operand.isWord_text _)]
    simp [IsLine]
  · simp [IsLine]
  · simp [IsLine]

theorem isLine_of_mem_blockLines (h : Block.Framed r.blocks) {k : Block} (hk : k ∈ r.blocks) :
    ∀ l ∈ r.blockLines k, IsLine l := by
  have hindent : IsLine "  " := by simp [IsLine]
  unfold blockLines
  refine List.forall_mem_append.2 ⟨List.forall_mem_cons.2 ⟨?_, fun l hl => ?_⟩, List.forall_mem_singleton.2 ?_⟩
  · exact IsLine.append_iff.2 ⟨h.isLine_label hk, by simp [IsLine]⟩
  · obtain ⟨i, -, rfl⟩ := List.mem_map.1 hl
    exact IsLine.append_iff.2 ⟨hindent, i.isLine_text⟩
  · exact IsLine.append_iff.2 ⟨hindent, isLine_terminatorText h _⟩

theorem isLine_of_mem_defineLines (h : Block.Framed r.blocks) : ∀ l ∈ r.defineLines, IsLine l := by
  have hparams : IsLine (", ".intercalate (r.params.map fun p => p.2.text ++ " " ++ p.1.text)) := by
    refine .intercalate (by simp [IsLine]) fun s hs => ?_
    obtain ⟨p, -, rfl⟩ := List.mem_map.1 hs
    exact IsLine.append_iff.2 ⟨IsLine.append_iff.2 ⟨p.2.isLine_text, by simp [IsLine]⟩, .of_isWord p.1.isWord_text⟩
  unfold defineLines
  refine List.forall_mem_append.2 ⟨List.forall_mem_cons.2 ⟨?_, fun l hl => ?_⟩, by simp [IsLine]⟩
  · simp only [IsLine.append_iff, hparams, MachineType.isLine_text, Symbol.isLine_ofName]
    simp [IsLine]
  · obtain ⟨k, hk, hl⟩ := List.mem_flatMap.1 hl
    exact isLine_of_mem_blockLines h hk l hl

theorem isLine_declareLine (r : Routine) : IsLine r.declareLine := by
  have hparams : IsLine (", ".intercalate (r.params.map (fun p => p.2.text) ++ if r.isVariadic then ["..."] else [])) := by
    refine .intercalate (by simp [IsLine]) (List.forall_mem_append.2 ⟨fun s hs => ?_, ?_⟩)
    · obtain ⟨p, -, rfl⟩ := List.mem_map.1 hs
      exact p.2.isLine_text
    · split <;> simp [IsLine]
  unfold declareLine
  simp only [IsLine.append_iff, hparams, MachineType.isLine_text, Symbol.isLine_ofName]
  simp [IsLine]

/-- The lines of a routine with a body: an empty one, head and end, and for each block its label, its instructions and its
end. -/
def height (r : Routine) : Nat := 3 + (r.blocks.map fun k => 2 + k.instrs.length).sum

theorem length_defineLines (r : Routine) : 1 + r.defineLines.length = r.height := by
  have hblock (k : Block) : (r.blockLines k).length = 2 + k.instrs.length := by
    simp [blockLines]
    omega
  simp only [defineLines, height, List.length_append, List.length_cons, List.length_flatMap, hblock, List.length_nil]
  omega

end Routine

theorem Global.isLine_line (g : Global) : IsLine g.line := by
  unfold Global.line
  simp only [IsLine.append_iff, Symbol.isLine_ofName, Symbol.isLine_escape, IsLine.ofNat]
  simp [IsLine]

/-! ## Listings -/

namespace Assembly

def height (a : Assembly) : Nat :=
  let externals := a.routines.filter (·.isExternal)
  2 + (if a.targetTriple.isSome then 1 else 0) +
    (if a.globals.isEmpty then 0 else 1 + a.globals.length) +
    (if externals.isEmpty then 0 else 1 + externals.length) +
    ((a.routines.filter (!·.isExternal)).map Routine.height).sum

theorem length_paragraph (ls : List String) : (paragraph ls).length = if ls.isEmpty then 0 else 1 + ls.length := by
  cases ls with
  | nil => rfl
  | cons l ls => simp [paragraph, Nat.add_comm]

theorem isLine_of_mem_paragraph {ls : List String} (h : ∀ l ∈ ls, IsLine l) : ∀ l ∈ paragraph ls, IsLine l := by
  cases ls with
  | nil => simp [paragraph]
  | cons l ls => exact List.forall_mem_cons.2 ⟨by simp [IsLine], h⟩

theorem length_headerLines (a : Assembly) :
    a.headerLines.length = 2 + (if a.targetTriple.isSome then 1 else 0) := by
  unfold headerLines
  split <;> simp [*]

theorem length_lines (a : Assembly) : a.lines.length = a.height := by
  simp only [lines, height, List.length_append, length_headerLines, length_paragraph, List.length_map, List.isEmpty_map,
    List.length_flatMap, List.length_cons, Nat.add_comm _ 1, Routine.length_defineLines]

theorem isLine_of_mem_tail {a : Assembly} (h : ∀ r ∈ a.routines, Block.Framed r.blocks) : ∀ l ∈ a.lines.tail, IsLine l := by
  have hheader : ∀ l ∈ a.headerLines.tail, IsLine l := by
    unfold headerLines
    refine List.forall_mem_cons.2 ⟨?_, ?_⟩
    · simp only [IsLine.append_iff, Symbol.isLine_escape]
      simp [IsLine]
    · split
      · refine List.forall_mem_singleton.2 ?_
        simp only [IsLine.append_iff, Symbol.isLine_escape]
        simp [IsLine]
      · simp
  have hglobals : ∀ l ∈ paragraph (a.globals.map Global.line), IsLine l := by
    refine isLine_of_mem_paragraph fun l hl => ?_
    obtain ⟨g, -, rfl⟩ := List.mem_map.1 hl
    exact g.isLine_line
  have hexternals : ∀ l ∈ paragraph ((a.routines.filter (·.isExternal)).map Routine.declareLine), IsLine l := by
    refine isLine_of_mem_paragraph fun l hl => ?_
    obtain ⟨r, -, rfl⟩ := List.mem_map.1 hl
    exact r.isLine_declareLine
  have hdefined : ∀ l ∈ (a.routines.filter (!·.isExternal)).flatMap fun r => "" :: r.defineLines, IsLine l := by
    intro l hl
    obtain ⟨r, hr, hl⟩ := List.mem_flatMap.1 hl
    rcases List.mem_cons.1 hl with rfl | hl
    · simp [IsLine]
    · exact Routine.isLine_of_mem_defineLines (h r (List.mem_filter.1 hr).1) l hl
  have htail : a.lines.tail = a.headerLines.tail ++ paragraph (a.globals.map Global.line) ++
      paragraph ((a.routines.filter (·.isExternal)).map Routine.declareLine) ++
      (a.routines.filter (!·.isExternal)).flatMap fun r => "" :: r.defineLines := rfl
  rw [htail]
  exact List.forall_mem_append.2 ⟨List.forall_mem_append.2 ⟨List.forall_mem_append.2 ⟨hheader, hglobals⟩, hexternals⟩,
    hdefined⟩

theorem count_join {ls : List String} (h : ∀ l ∈ ls, IsLine l) :
    (String.join (ls.map fun l => l ++ "\n")).toList.count '\n' = ls.length := by
  induction ls with
  | nil => rfl
  | cons l ls ih =>
    obtain ⟨hl, hls⟩ := List.forall_mem_cons.1 h
    have hzero : l.toList.count '\n' = 0 := List.count_eq_zero.2 hl
    rw [List.map_cons, String.join_cons, String.toList_append, String.toList_append, List.count_append, List.count_append,
      hzero, ih hls]
    simp [Nat.add_comm]

theorem count_text {a : Assembly} (h : ∀ r ∈ a.routines, Block.Framed r.blocks) :
    a.text.toList.count '\n' = a.height + a.name.toList.count '\n' := by
  have hsplit : a.lines = ("; ModuleID = '" ++ a.name ++ "'") :: a.lines.tail := rfl
  have htitle : ("; ModuleID = '" ++ a.name ++ "'" ++ "\n").toList.count '\n' = a.name.toList.count '\n' + 1 := by
    simp [List.count_append]
  have hlength := a.length_lines
  rw [hsplit, List.length_cons] at hlength
  unfold text
  rw [hsplit, List.map_cons, String.join_cons, String.toList_append, List.count_append, htitle,
    count_join (isLine_of_mem_tail h), ← hlength]
  omega

end Assembly

namespace Program
variable {p : Program} {sigs : Signatures} {options : LowerOptions} {a : Assembly}

/-- **No text but the title of a listing splits a line of it.**  Whatever the options, the texts and the names of a
program are, the linefeeds of its listing are those that its shape asks for and those of the module's name, which the
first line shows as it is; every other line is one line. -/
theorem linefeeds_of_lower (h : p.lower sigs options = .ok a) :
    a.text.toList.count '\n' = a.height + options.moduleName.toList.count '\n' ∧ ∀ l ∈ a.lines.tail, IsLine l := by
  have hframed := framed_of_lower h
  rw [← name_of_lower h]
  exact ⟨Assembly.count_text hframed, Assembly.isLine_of_mem_tail hframed⟩

/-- A function and a text with linefeeds in them. -/
def broken : Program :=
  let here : Span := ⟨⟨1, 1, 0⟩, ⟨1, 1, 0⟩⟩
  let name : Ident := ⟨"f\n\x7d\n", here⟩
  ⟨[.func name [] [.print (.string "\n\"\n" here) here] here, .call name [] none here], here⟩

theorem broken_linefeeds : ∃ a, broken.lower (Signatures.infer broken) ⟨"quill", some "a\nb", some "c\nd", .auto⟩ = .ok a ∧
    a.height = 31 ∧ a.text.toList.count '\n' = 31 := by
  have hany : ((broken.lower (Signatures.infer broken) ⟨"quill", some "a\nb", some "c\nd", .auto⟩).toOption.any fun a =>
      a.height == 31) = true := by decide +kernel
  obtain ⟨a, ha, hheight⟩ := exists_of_any hany
  have hheight : a.height = 31 := by simpa using hheight
  refine ⟨a, ha, hheight, ?_⟩
  have hname : "quill".toList.count '\n' = 0 := by decide
  rw [(linefeeds_of_lower ha).1, hheight, hname]

/-- **A module's name may split the first line of a listing.** -/
theorem split_title :
    ∃ a, (⟨[], ⟨⟨1, 1, 0⟩, ⟨1, 1, 0⟩⟩⟩ : Program).lower Signatures.empty ⟨"a\nb", none, none, .auto⟩ = .ok a ∧
      a.text.toList.count '\n' = a.height + 1 := by
  have hany : (((⟨[], ⟨⟨1, 1, 0⟩, ⟨1, 1, 0⟩⟩⟩ : Program).lower Signatures.empty ⟨"a\nb", none, none, .auto⟩).toOption.any
      fun _ => true) = true := by decide +kernel
  obtain ⟨a, ha, -⟩ := exists_of_any hany
  have hname : "a\nb".toList.count '\n' = 1 := by decide
  refine ⟨a, ha, ?_⟩
  rw [Assembly.count_text (framed_of_lower ha), name_of_lower ha, hname]

end Program
end QuillLang
