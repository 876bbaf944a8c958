import QuillLang.Assembly.Check
import QuillLang.Assembly.Listing
import Mathlib.Data.List.Forall2
import Mathlib.Data.List.Nodup
/-!
# What the check is good for

The check passes an assembly exactly if it is well-formed: it stops at the first fault, but it looks everywhere
(`Assembly.check_eq_ok_iff`).  A listing has two ways out where an assembly is not well-formed.  A branch to nowhere shows a
made-up label, and a block that is still open shows `unreachable`.  Neither is taken for an assembly that passed: each
branch shows the labels of blocks of its own routine, and `unreachable` stands only where a block says so
(`Assembly.Listed`).
-/
namespace QuillLang

/-! ## Well-formed assemblies -/

inductive Terminator.Targets : Terminator → BlockId → Prop where
  | br (id : BlockId) : Targets (.br id) id
  | yes (cond : Operand) (id other : BlockId) : Targets (.condBr cond id other) id
  | no (cond : Operand) (other id : BlockId) : Targets (.condBr cond other id) id

def Routine.Accepts (f : Routine) (count : Nat) : Prop :=
  if f.isVariadic then f.params.length ≤ count else count = f.params.length

structure Routine.WellFormed (a : Assembly) (r : Routine) : Prop where
  body : r.blocks ≠ []
  ends : ∀ b ∈ r.blocks, ∃ t, b.terminator = some t ∧ ∀ id, t.Targets id → ∃ b' ∈ r.blocks, b'.id = id
  calls : ∀ b ∈ r.blocks, ∀ i ∈ b.instrs, ∀ callee ret args variadic, i.operation = .call callee ret args variadic →
    ∃ f ∈ a.routines, f.name = callee ∧ f.Accepts args.length

structure Assembly.WellFormed (a : Assembly) : Prop where
  names : (a.routines.map Routine.name).Nodup
  routines : ∀ r ∈ a.routines, r.isExternal = false → r.WellFormed a

/-! ## The check is exact -/

theorem Terminator.mem_successors {t : Terminator} {id : BlockId} : id ∈ t.successors ↔ t.Targets id := by
  constructor
  · intro h
    cases t with
    | br target =>
      obtain rfl := List.mem_singleton.1 h
      exact .br id
    | condBr cond yes no =>
      rcases List.mem_cons.1 h with rfl | h
      · exact .yes cond id no
      · obtain rfl := List.mem_singleton.1 h
        exact .no cond yes id
    | ret _ | unreachable => cases h
  · intro h
    cases h with
    | br => exact List.mem_singleton.2 rfl
    | yes => exact List.mem_cons_self
    | no => exact List.mem_cons_of_mem _ (List.mem_singleton.2 rfl)

theorem forM_eq_ok_iff {α ε : Type} {f : α → Except ε Unit} : ∀ {l : List α}, l.forM f = .ok () ↔ ∀ x ∈ l, f x = .ok ()
  | [] => ⟨fun _ => List.forall_mem_nil _, fun _ => rfl⟩
  | x :: l => by
    rw [List.forall_mem_cons, ← forM_eq_ok_iff]
    show (f x >>= fun _ => l.forM f) = .ok () ↔ _
    cases hx : f x with
    | error e => exact ⟨fun h => (by cases h), fun h => (by cases h.1)⟩
    | ok _ => exact ⟨fun h => ⟨rfl, h⟩, fun h => h.2⟩

namespace Assembly
variable {a : Assembly} {r : Routine}

theorem duplicate?_eq_none_iff : ∀ {rs : List Routine} {seen : List String},
    duplicate? seen rs = none ↔ (rs.map Routine.name).Nodup ∧ ∀ r ∈ rs, r.name ∉ seen
  | [], _ => by simp [duplicate?]
  | r :: rs, seen => by
    unfold duplicate?
    by_cases h : r.name ∈ seen
    · simp [h]
    · rw [if_neg h, duplicate?_eq_none_iff, List.map_cons, List.nodup_cons, List.forall_mem_cons]
      have hrest : (∀ x ∈ rs, x.name ∉ r.name :: seen) ↔ r.name ∉ rs.map Routine.name ∧ ∀ x ∈ rs, x.name ∉ seen := by
        simp only [List.mem_cons, not_or, List.mem_map, not_exists, not_and, forall_and]
      rw [hrest]
      constructor
      · rintro ⟨hnodup, hfirst, hseen⟩
        exact ⟨⟨hfirst, hnodup⟩, h, hseen⟩
      · rintro ⟨⟨hfirst, hnodup⟩, -, hseen⟩
        exact ⟨hnodup, hfirst, hseen⟩

theorem routine?_eq_some_iff (h : (a.routines.map Routine.name).Nodup) {name : String} {f : Routine} :
    a.routine? name = some f ↔ f ∈ a.routines ∧ f.name = name := by
  unfold routine?
  constructor
  · intro hf
    exact ⟨List.mem_of_find?_eq_some hf, by simpa using List.find?_some hf⟩
  · rintro ⟨hf, rfl⟩
    cases hfind : a.routines.find? fun g => g.name == f.name with
    | none => exact absurd (List.find?_eq_none.1 hfind f hf) (by simp)
    | some g =>
      have hname : g.name = f.name := by simpa using List.find?_some hfind
      rw [List.inj_on_of_nodup_map h (List.mem_of_find?_eq_some hfind) hf hname]

theorem checkInstr_eq_ok_iff (h : (a.routines.map Routine.name).Nodup) {i : Instr} :
    a.checkInstr r i = .ok () ↔ ∀ callee ret args variadic, i.operation = .call callee ret args variadic →
      ∃ f ∈ a.routines, f.name = callee ∧ f.Accepts args.length := by
  have haccepts (f : Routine) (n : Nat) :
      ¬(n < f.params.length ∨ f.isVariadic = false ∧ n ≠ f.params.length) ↔ f.Accepts n := by
    unfold Routine.Accepts
    cases f.isVariadic with
    | true => simp
    | false =>
      simp
      omega
  unfold checkInstr
  split
  · rename_i callee ret args variadic hop
    rw [hop]
    cases hf : a.routine? callee with
    | none =>
      refine ⟨fun h => (by cases h), fun hcall => ?_⟩
      obtain ⟨f, hmem, hname, -⟩ := hcall callee ret args variadic rfl
      rw [(routine?_eq_some_iff h).2 ⟨hmem, hname⟩] at hf
      cases hf
    | some f =>
      obtain ⟨hmem, hname⟩ := (routine?_eq_some_iff h).1 hf
      have honly : ∀ g ∈ a.routines, g.name = callee → g = f := fun g hg hgname =>
        List.inj_on_of_nodup_map h hg hmem (hgname.trans hname.symm)
      dsimp only
      split
      · rename_i hwrong
        refine ⟨fun h => (by cases h), fun hcall => ?_⟩
        obtain ⟨g, hg, hgname, haccept⟩ := hcall callee ret args variadic rfl
        rw [honly g hg hgname] at haccept
        exact absurd hwrong ((haccepts f _).2 haccept)
      · rename_i hright
        refine ⟨fun _ callee' ret' args' variadic' heq => ?_, fun _ => rfl⟩
        cases heq
        exact ⟨f, hmem, hname, (haccepts f _).1 hright⟩
  · rename_i hop
    exact ⟨fun _ callee ret args variadic heq => absurd heq (hop callee ret args variadic), fun _ => rfl⟩

theorem checkBlock_eq_ok_iff {b : Block} : a.checkBlock r b = .ok () ↔
    (∃ t, b.terminator = some t ∧ ∀ id, t.Targets id → ∃ b' ∈ r.blocks, b'.id = id) ∧
      ∀ i ∈ b.instrs, a.checkInstr r i = .ok () := by
  unfold checkBlock
  cases b.terminator with
  | none =>
    refine ⟨fun h => (by cases h), fun h => ?_⟩
    obtain ⟨⟨t, ht, -⟩, -⟩ := h
    cases ht
  | some t =>
    have hinside : t.successors.find? (fun id => !r.blocks.any fun b => b.id == id) = none ↔
        ∀ id, t.Targets id → ∃ b' ∈ r.blocks, b'.id = id := by
      rw [List.find?_eq_none]
      simp [Terminator.mem_successors]
    dsimp only
    split
    · rename_i id hfind
      refine ⟨fun h => (by cases h), fun h => ?_⟩
      obtain ⟨⟨u, hu, htargets⟩, -⟩ := h
      cases hu
      rw [hinside.2 htargets] at hfind
      cases hfind
    · rename_i hfind
      rw [forM_eq_ok_iff]
      exact ⟨fun h => ⟨⟨t, rfl, hinside.1 hfind⟩, h⟩, fun h => h.2⟩

theorem checkRoutine_eq_ok_iff (h : (a.routines.map Routine.name).Nodup) :
    a.checkRoutine r = .ok () ↔ r.WellFormed a := by
  unfold checkRoutine
  split
  · rename_i hempty
    exact ⟨fun h => (by cases h), fun hr => absurd (List.isEmpty_iff.1 hempty) hr.body⟩
  · rename_i hempty
    rw [forM_eq_ok_iff]
    constructor
    · intro hblocks
      refine ⟨fun hnil => hempty (List.isEmpty_iff.2 hnil), fun b hb => (checkBlock_eq_ok_iff.1 (hblocks b hb)).1, ?_⟩
      intro b hb i hi
      exact (checkInstr_eq_ok_iff h).1 ((checkBlock_eq_ok_iff.1 (hblocks b hb)).2 i hi)
    · intro hr b hb
      exact checkBlock_eq_ok_iff.2 ⟨hr.ends b hb, fun i hi => (checkInstr_eq_ok_iff h).2 (hr.calls b hb i hi)⟩

/-- **The check passes what is well-formed, and nothing else.** -/
theorem check_eq_ok_iff (a : Assembly) : a.check = .ok () ↔ a.WellFormed := by
  have hnames : duplicate? [] a.routines = none ↔ (a.routines.map Routine.name).Nodup := by
    rw [duplicate?_eq_none_iff]
    simp
  unfold check
  split
  · rename_i name hduplicate
    refine ⟨fun h => (by cases h), fun ha => ?_⟩
    rw [hnames.2 ha.names] at hduplicate
    cases hduplicate
  · rename_i hduplicate
    have hnodup := hnames.1 hduplicate
    rw [forM_eq_ok_iff]
    constructor
    · intro h
      refine ⟨hnodup, fun r hr hdefined => (checkRoutine_eq_ok_iff hnodup).1 (h r ?_)⟩
      exact List.mem_filter.2 ⟨hr, by simp [hdefined]⟩
    · intro ha r hr
      obtain ⟨hr, hdefined⟩ := List.mem_filter.1 hr
      exact (checkRoutine_eq_ok_iff hnodup).2 (ha.routines r hr (by simpa using hdefined))

end Assembly

/-! ## Listings of well-formed assemblies -/

namespace Routine

/-- How the end of a block is shown.  A branch shows labels of blocks of the routine, and a block that is still open cannot
be shown. -/
inductive Shows (r : Routine) : Option Terminator → String → Prop where
  | ret (value : MachineType × Operand) : Shows r (some (.ret (some value))) ("ret " ++ typedText value)
  | retVoid : Shows r (some (.ret none)) "ret void"
  | br {b : Block} (hb : b ∈ r.blocks) : Shows r (some (.br b.id)) ("br label %" ++ b.label)
  | condBr (cond : Operand) {yes no : Block} (hyes : yes ∈ r.blocks) (hno : no ∈ r.blocks) :
    Shows r (some (.condBr cond yes.id no.id))
      ("br i1 " ++ cond.text ++ ", label %" ++ yes.label ++ ", label %" ++ no.label)
  | unreachable : Shows r (some .unreachable) "unreachable"

def ShowsBlock (r : Routine) (b : Block) (ls : List String) : Prop :=
  ∃ last, r.Shows b.terminator last ∧
    ls = (b.label ++ ":") :: (b.instrs.map fun i => "  " ++ i.text) ++ ["  " ++ last]

def Listed (r : Routine) (ls : List String) : Prop :=
  ∃ blocks, List.Forall₂ r.ShowsBlock r.blocks blocks ∧
    ls = ("define " ++ r.ret.text ++ " @" ++ Symbol.ofName r.name ++ "(" ++
      ", ".intercalate (r.params.map fun p => p.2.text ++ " " ++ p.1.text) ++ ") \x7b") :: blocks.flatten ++ ["\x7d"]

end Routine

namespace Assembly

def Listed (a : Assembly) (ls : List String) : Prop :=
  ∃ bodies, List.Forall₂ Routine.Listed (a.routines.filter (!·.isExternal)) bodies ∧
    ls = a.headerLines ++ paragraph (a.globals.map Global.line) ++
      paragraph ((a.routines.filter (·.isExternal)).map Routine.declareLine) ++ bodies.flatMap fun ls => "" :: ls

def deadEnds (a : Assembly) : Nat :=
  ((a.routines.filter (!·.isExternal)).flatMap Routine.blocks).countP fun b => b.terminator = some .unreachable

end Assembly

namespace Routine
variable {a : Assembly} {r : Routine}

theorem exists_labelOf {id : BlockId} (h : ∃ b ∈ r.blocks, b.id = id) :
    ∃ b ∈ r.blocks, b.id = id ∧ r.labelOf id = b.label := by
  unfold labelOf
  cases hfind : r.blocks.reverse.find? fun b => b.id == id with
  | some b =>
    exact ⟨b, List.mem_reverse.1 (List.mem_of_find?_eq_some hfind), by simpa using List.find?_some hfind, rfl⟩
  | none =>
    obtain ⟨b, hb, rfl⟩ := h
    exact absurd (List.find?_eq_none.1 hfind b (List.mem_reverse.2 hb)) (by simp)

theorem WellFormed.shows (h : r.WellFormed a) {b : Block} (hb : b ∈ r.blocks) :
    r.Shows b.terminator (r.terminatorText b.terminator) := by
  obtain ⟨t, ht, htargets⟩ := h.ends b hb
  rw [ht]
  cases t with
  | ret value =>
    cases value with
    | none => exact .retVoid
    | some value => exact .ret value
  | br target =>
    obtain ⟨b', hb', rfl, hlabel⟩ := exists_labelOf (htargets target (.br target))
    show r.Shows _ ("br label %" ++ r.labelOf b'.id)
    rw [hlabel]
    exact .br hb'
  | condBr cond yes no =>
    obtain ⟨b', hb', rfl, hlabel⟩ := exists_labelOf (htargets yes (.yes cond yes no))
    obtain ⟨b'', hb'', rfl, hlabel'⟩ := exists_labelOf (htargets no (.no cond b'.id no))
    show r.Shows _ ("br i1 " ++ cond.text ++ ", label %" ++ r.labelOf b'.id ++ ", label %" ++ r.labelOf b''.id)
    rw [hlabel, hlabel']
    exact .condBr cond hb' hb''
  | unreachable => exact .unreachable

theorem WellFormed.listed (h : r.WellFormed a) : r.Listed r.defineLines := by
  refine ⟨r.blocks.map r.blockLines, ?_, ?_⟩
  · rw [List.forall₂_map_right_iff, List.forall₂_same]
    exact fun b hb => ⟨_, h.shows hb, rfl⟩
  · rw [← List.flatMap_def]
    rfl

end Routine

theorem Assembly.WellFormed.listed {a : Assembly} (h : a.WellFormed) : a.Listed a.lines := by
  refine ⟨(a.routines.filter (!·.isExternal)).map Routine.defineLines, ?_, ?_⟩
  · rw [List.forall₂_map_right_iff, List.forall₂_same]
    intro r hr
    obtain ⟨hr, hdefined⟩ := List.mem_filter.1 hr
    exact (h.routines r hr (by simpa using hdefined)).listed
  · rw [List.flatMap_map]
    rfl

/-! ## Lines that say `unreachable` -/

theorem Operation.head_text_ne (op : Operation) : op.text.toList.head? ≠ some 'u' := by
  have harith (op : ArithOp) : ∃ c cs, op.text.toList = c :: cs ∧ c ≠ 'u' := by
    cases op <;> simp [ArithOp.text]
  have hcast (op : CastOp) : ∃ c cs, op.text.toList = c :: cs ∧ c ≠ 'u' := by
    cases op <;> simp [CastOp.text]
  unfold Operation.text
  split
  -- arithmetic and casts begin with the name of the operation, all others with a fixed word
  case h_5 op _ _ _ =>
    obtain ⟨c, cs, hop, hc⟩ := harith op
    simp [hop, hc]
  case h_7 op _ _ _ =>
    obtain ⟨c, cs, hop, hc⟩ := hcast op
    simp [hop, hc]
  all_goals simp

theorem Instr.text_ne_unreachable (i : Instr) : "  " ++ i.text ≠ "  unreachable" := by
  have hhead : i.text.toList.head? ≠ some 'u' := by
    unfold Instr.text
    split
    · simp [Register.text]
    · exact i.operation.head_text_ne
  intro h
  have hlist := congrArg String.toList h
  rw [String.toList_append] at hlist
  have htext : i.text.toList = "unreachable".toList := by simpa using hlist
  exact hhead (by simp [htext])

namespace Routine
variable {r : Routine} {ls : List String}

theorem Shows.eq_unreachable_iff {t : Option Terminator} {last : String} (h : r.Shows t last) :
    "  " ++ last = "  unreachable" ↔ t = some .unreachable := by
  cases h with
  | unreachable => simp
  | _ => simp [← String.toList_inj]

theorem ShowsBlock.count {b : Block} (h : r.ShowsBlock b ls) :
    ls.count "  unreachable" = if b.terminator = some .unreachable then 1 else 0 := by
  obtain ⟨last, hlast, rfl⟩ := h
  have hlabel : b.label ++ ":" ≠ "  unreachable" := by
    intro h
    have hend := congrArg (fun s => s.toList.getLast?) h
    simp at hend
  have hinstrs : (b.instrs.map fun i => "  " ++ i.text).count "  unreachable" = 0 := by
    rw [List.count_eq_zero]
    intro hmem
    obtain ⟨i, -, hi⟩ := List.mem_map.1 hmem
    exact i.text_ne_unreachable hi
  rw [List.count_append, List.count_cons_of_ne hlabel, hinstrs, Nat.zero_add, List.count_singleton]
  simp [hlast.eq_unreachable_iff]

theorem count_blocks : ∀ {bs : List Block} {shown : List (List String)}, List.Forall₂ r.ShowsBlock bs shown →
    shown.flatten.count "  unreachable" = bs.countP fun b => b.terminator = some .unreachable
  | [], [], .nil => rfl
  | b :: bs, ls :: shown, .cons hb hbs => by
    rw [List.flatten_cons, List.count_append, hb.count, count_blocks hbs, List.countP_cons, Nat.add_comm]
    simp

theorem Listed.count (h : r.Listed ls) :
    ls.count "  unreachable" = r.blocks.countP fun b => b.terminator = some .unreachable := by
  obtain ⟨shown, hshown, rfl⟩ := h
  rw [List.count_append, List.count_cons_of_ne (by simp [← String.toList_inj]), count_blocks hshown]
  simp

end Routine

namespace Assembly
variable {a : Assembly} {ls : List String}

theorem count_bodies : ∀ {rs : List Routine} {bodies : List (List String)}, List.Forall₂ Routine.Listed rs bodies →
    (bodies.flatMap fun ls => "" :: ls).count "  unreachable" =
      (rs.flatMap Routine.blocks).countP fun b => b.terminator = some .unreachable
  | [], [], .nil => rfl
  | r :: rs, ls :: bodies, .cons hr hrs => by
    rw [List.flatMap_cons, List.count_append, List.count_cons_of_ne (by simp [← String.toList_inj]), hr.count,
      count_bodies hrs, List.flatMap_cons, List.countP_append]

theorem count_paragraph {ls : List String} (h : ∀ l ∈ ls, l.toList.head? ≠ some ' ') :
    (paragraph ls).count "  unreachable" = 0 := by
  rw [List.count_eq_zero]
  intro hmem
  cases ls with
  | nil => cases hmem
  | cons l ls =>
    rcases List.mem_cons.1 hmem with hempty | hmem
    · simp [← String.toList_inj] at hempty
    · exact h _ hmem (by decide)

theorem Listed.count (h : a.Listed ls) : ls.count "  unreachable" = a.deadEnds := by
  obtain ⟨bodies, hbodies, rfl⟩ := h
  have hheader : a.headerLines.count "  unreachable" = 0 := by
    rw [List.count_eq_zero]
    unfold headerLines
    split <;> simp [← String.toList_inj]
  have hglobals : (paragraph (a.globals.map Global.line)).count "  unreachable" = 0 := by
    refine count_paragraph fun l hl => ?_
    obtain ⟨g, -, rfl⟩ := List.mem_map.1 hl
    unfold Global.line
    simp
  have hexternals : (paragraph ((a.routines.filter (·.isExternal)).map Routine.declareLine)).count "  unreachable" = 0 := by
    refine count_paragraph fun l hl => ?_
    obtain ⟨r, -, rfl⟩ := List.mem_map.1 hl
    unfold Routine.declareLine
    simp
  rw [List.count_append, List.count_append, List.count_append, hheader, hglobals, hexternals, count_bodies hbodies]
  simp [deadEnds]

/-- **The check is exact, and enough for a listing.**  It passes an assembly exactly if that is well-formed.  Then every
branch is listed with the labels of blocks of its routine, and there are as many lines `unreachable` as blocks that
say so. -/
theorem check_exact (a : Assembly) : (a.check = .ok () ↔ a.WellFormed) ∧
    (a.check = .ok () → a.Listed a.lines ∧ a.lines.count "  unreachable" = a.deadEnds) := by
  refine ⟨check_eq_ok_iff a, fun h => ?_⟩
  have hlisted := ((check_eq_ok_iff a).1 h).listed
  exact ⟨hlisted, hlisted.count⟩

/-- A variadic callee, a branch back to a block and one that is never left. -/
def detour : Assembly :=
  let entry : Block := ⟨⟨3⟩, "entry", [⟨none, .call "say" .void [(.ptr, .null), (.i64, .int 7)] (some [.ptr])⟩],
    some (.condBr (.register ⟨0⟩) ⟨3⟩ ⟨5⟩)⟩
  ⟨"m", "m", none, [⟨"say", [(⟨1⟩, .ptr)], .void, [], true, true⟩,
    ⟨"main", [(⟨0⟩, .i1)], .void, [entry, ⟨⟨5⟩, "unreachable", [], some .unreachable⟩], false, false⟩], []⟩

theorem detour_exact : detour.check = .ok () ∧ detour.WellFormed ∧ detour.Listed detour.lines ∧
    detour.lines.count "  unreachable" = 1 := by
  have hcheck : detour.check = .ok () := rfl
  obtain ⟨hiff, hlisting⟩ := check_exact detour
  obtain ⟨hlisted, hcount⟩ := hlisting hcheck
  exact ⟨hcheck, hiff.1 hcheck, hlisted, hcount⟩

end Assembly
end QuillLang
