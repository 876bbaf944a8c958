import QuillLang.Lowering.Slot
import Mathlib.Data.List.Nodup
/-!
# Frames of slots

A body's table of slots holds what was registered first under each name.  `Frames.noted` keeps all registrations of the
bodies that are open, and whatever the frames are asked for, in whatever order, each of their tables is that of its notes
(`Frames.run_firstWins`).
-/
namespace QuillLang

namespace SlotTable
variable {t : SlotTable} {s slot : Slot} {name : String}

theorem lookup_eq_some : t.lookup name = some slot ↔ slot ∈ t.slots ∧ slot.name = name := by
  unfold lookup
  constructor
  · intro h
    obtain ⟨i, hi, hslot⟩ := Option.bind_eq_some_iff.1 h
    have hname := (t.agrees name i).1 hi
    rw [hslot] at hname
    exact ⟨List.mem_of_getElem? hslot, Option.some.inj hname⟩
  · rintro ⟨hslot, rfl⟩
    obtain ⟨i, hi⟩ := List.getElem?_of_mem hslot
    rw [(t.agrees slot.name i).2 (by rw [hi]; rfl), Option.bind_some, hi]

theorem mem_of_lookup (h : t.lookup name = some slot) : slot ∈ t.slots := (lookup_eq_some.1 h).1

theorem name_of_lookup (h : t.lookup name = some slot) : slot.name = name := (lookup_eq_some.1 h).2

theorem notMem_of_lookup (h : t.lookup name = none) : name ∉ t.slots.map Slot.name := by
  intro hname
  obtain ⟨slot, hslot, rfl⟩ := List.mem_map.1 hname
  rw [lookup_eq_some.2 ⟨hslot, rfl⟩] at h
  cases h

theorem names_nodup (t : SlotTable) : (t.slots.map Slot.name).Nodup := by
  refine List.pairwise_iff_getElem.2 fun i j hi hj hij he => ?_
  have hplace (k : Nat) (hk : k < (t.slots.map Slot.name).length) :
      t.byName.get? (t.slots.map Slot.name)[k] = some k := by
    rw [t.agrees, ← List.getElem?_map, List.getElem?_eq_getElem hk]
  have hi' := hplace i hi
  rw [he, hplace j hj, Option.some.injEq] at hi'
  omega

theorem ext_slots {t t' : SlotTable} (h : t.slots = t'.slots) : t = t' := by
  have hplaces : t.byName = t'.byName := by
    apply Table.ext_get?
    intro name
    apply Option.ext
    intro i
    rw [t.agrees, t'.agrees, h]
  cases t
  cases t'
  cases h
  cases hplaces
  rfl

theorem register_of_some (h : t.lookup s.name = some slot) : t.register s = (slot, t) := by
  unfold register
  split <;> simp_all

theorem register_of_none (h : t.lookup s.name = none) : (t.register s).1 = s ∧ (t.register s).2.slots = t.slots ++ [s] := by
  unfold register
  split
  · simp_all
  · exact ⟨rfl, rfl⟩

theorem lookup_register (t : SlotTable) (s : Slot) (name : String) :
    (t.register s).2.lookup name = (t.lookup name).or (if s.name = name then some s else none) := by
  cases hs : t.lookup s.name with
  | some old =>
    rw [register_of_some hs]
    split
    · rename_i he
      rw [← he, hs, Option.some_or]
    · rw [Option.or_none]
  | none =>
    have hslots := (register_of_none hs).2
    by_cases he : s.name = name
    · rw [if_pos he, ← he, hs, Option.none_or, lookup_eq_some, hslots]
      exact ⟨List.mem_append_right _ List.mem_cons_self, rfl⟩
    · rw [if_neg he, Option.or_none]
      apply Option.ext
      intro slot
      rw [lookup_eq_some, lookup_eq_some, hslots, List.mem_append, List.mem_singleton]
      constructor
      · rintro ⟨hslot | rfl, hname⟩
        · exact ⟨hslot, hname⟩
        · exact absurd hname he
      · exact fun h => ⟨.inl h.1, h.2⟩

/-- The table holds the first of what was registered under each name, in order. -/
structure FirstWins (t : SlotTable) (notes : List Slot) : Prop where
  order : t.slots.Sublist notes
  names : (t.slots.map Slot.name).Nodup
  places : ∀ name i, t.byName.get? name = some i ↔ t.slots[i]?.map Slot.name = some name
  lookup : ∀ name, t.lookup name = notes.find? fun s => s.name == name

theorem FirstWins.register {notes : List Slot} (h : t.FirstWins notes) (s : Slot) :
    (t.register s).2.FirstWins (notes ++ [s]) where
  order := by
    cases hs : t.lookup s.name with
    | some old =>
      rw [register_of_some hs]
      exact List.sublist_append_of_sublist_left h.order
    | none =>
      rw [(register_of_none hs).2]
      exact h.order.append_right [s]
  names := names_nodup _
  places := agrees _
  lookup name := by
    rw [lookup_register, h.lookup, List.find?_append]
    by_cases hname : s.name = name
    · simp [hname]
    · simp [hname]

end SlotTable

namespace Frames
variable {f : Frames}

@[simp] theorem current_top : top.current = [] := rfl

@[simp] theorem current_enter (f : Frames) : f.enter.current = [] := rfl

theorem lookup_of_nil (h : f.current = []) (name : String) : f.lookup name = none := by
  cases hslot : f.lookup name with
  | none => rfl
  | some slot =>
    have hmem : slot ∈ f.current := SlotTable.mem_of_lookup hslot
    rw [h] at hmem
    cases hmem

theorem register_of_some {name : String} {slot : Slot} (h : f.lookup name = some slot) (reg : Register) (kind : SlotKind) :
    (f.register name reg kind).2.current = f.current :=
  congrArg (fun p => p.2.slots) (SlotTable.register_of_some (s := ⟨name, reg, kind⟩) h)

theorem register_of_none {name : String} (h : f.lookup name = none) (reg : Register) (kind : SlotKind) :
    (f.register name reg kind).1 = ⟨name, reg, kind⟩ ∧
      (f.register name reg kind).2.current = f.current ++ [⟨name, reg, kind⟩] := SlotTable.register_of_none h

theorem lookup_register (f : Frames) (name : String) (reg : Register) (kind : SlotKind) (other : String) :
    (f.register name reg kind).2.lookup other =
      (f.lookup other).or (if name = other then some ⟨name, reg, kind⟩ else none) := SlotTable.lookup_register _ _ _

inductive Step where
  | enter
  | leave
  | register (slot : Slot)
  | lookup (name : String)
  | heapSlots (keep : Option String)

def step (f : Frames) : Step → Frames
  | .enter => f.enter
  | .leave => f.leave.2
  | .register s => (f.register s.name s.register s.kind).2
  | .lookup _ | .heapSlots _ => f

def run (f : Frames) (steps : List Step) : Frames := steps.foldl step f

/-- The notes of the bodies that are open, the current one's first.  A body is left with its notes, but for the top level. -/
def note : List (List Slot) → Step → List (List Slot)
  | notes, .enter => [] :: notes
  | _ :: outer :: notes, .leave => outer :: notes
  | current :: notes, .register s => (current ++ [s]) :: notes
  | notes, _ => notes

/-- All that was registered in the bodies that are open. -/
def noted (steps : List Step) : List (List Slot) := steps.foldl note [[]]

/-- Steps that leave the bodies that they enter, and no other. -/
inductive Nested : List Step → Prop where
  | nil : Nested []
  | cons {s : Step} {rest : List Step} (enter : s ≠ .enter) (leave : s ≠ .leave) (h : Nested rest) : Nested (s :: rest)
  | body {inner rest : List Step} (hinner : Nested inner) (h : Nested rest) : Nested (.enter :: (inner ++ .leave :: rest))

theorem step_firstWins {t : SlotTable} {ts : List SlotTable} {notes : List (List Slot)}
    (h : List.Forall₂ SlotTable.FirstWins (t :: ts) notes) (s : Step) :
    List.Forall₂ SlotTable.FirstWins ((step ⟨t, ts⟩ s).table :: (step ⟨t, ts⟩ s).outer) (note notes s) := by
  obtain ⟨current, outer, hcurrent, houter, rfl⟩ := List.forall₂_cons_left_iff.1 h
  cases s with
  | enter => exact .cons ⟨List.nil_sublist _, List.nodup_nil, SlotTable.empty.agrees, fun _ => rfl⟩ h
  | leave =>
    cases houter with
    | nil => exact h
    | cons hnext hrest => exact .cons hnext hrest
  | register s => exact .cons (hcurrent.register s) houter
  | lookup | heapSlots => exact h

theorem run_forall₂_firstWins : ∀ (steps : List Step) {f : Frames} {notes : List (List Slot)},
    List.Forall₂ SlotTable.FirstWins (f.table :: f.outer) notes →
      List.Forall₂ SlotTable.FirstWins ((f.run steps).table :: (f.run steps).outer) (steps.foldl note notes)
  | [], _, _, h => h
  | s :: rest, _, _, h => run_forall₂_firstWins rest (step_firstWins h s)

theorem mem_heapSlots {keep : Option String} {slot : Slot} :
    slot ∈ f.heapSlots keep ↔ slot ∈ f.current ∧ slot.kind.isHeap = true ∧ some slot.name ≠ keep := by
  simp [heapSlots]

theorem run_enter_leave {inner : List Step} (h : ∀ f : Frames, (f.run inner).outer = f.outer) (f : Frames)
    (rest : List Step) : f.run (.enter :: (inner ++ .leave :: rest)) = f.run rest := by
  have hleave : (f.enter.run inner).leave.2 = f := by
    unfold Frames.leave
    rw [h f.enter]
    rfl
  calc f.run (.enter :: (inner ++ .leave :: rest))
    _ = (f.enter.run inner).leave.2.run rest := List.foldl_append
    _ = f.run rest := by rw [hleave]

theorem Nested.outer {steps : List Step} (h : Nested steps) : ∀ f : Frames, (f.run steps).outer = f.outer := by
  induction h with
  | nil => exact fun _ => rfl
  | @cons s rest henter hleave _ ih =>
    intro f
    rw [show f.run (s :: rest) = (f.step s).run rest from rfl, ih]
    cases s with
    | enter => exact absurd rfl henter
    | leave => exact absurd rfl hleave
    | register | lookup | heapSlots => rfl
  | body _ _ ihinner ihrest =>
    intro f
    rw [run_enter_leave ihinner, ihrest]

theorem heapSlots_firstWins {notes : List Slot} (h : f.table.FirstWins notes) (keep : Option String) :
    (f.heapSlots keep).reverse.Sublist notes ∧ ((f.heapSlots keep).map Slot.name).Nodup ∧ ∀ slot, slot ∈ f.heapSlots keep ↔
      (notes.find? fun s => s.name == slot.name) = some slot ∧ (slot.kind = .string ∨ slot.kind = .array) ∧
        some slot.name ≠ keep := by
  refine ⟨?_, ?_, fun slot => ?_⟩
  · rw [heapSlots, ← List.filter_reverse, List.reverse_reverse]
    exact List.filter_sublist.trans h.order
  · have hnames : (f.current.reverse.map Slot.name).Nodup := by
      rw [List.map_reverse, List.nodup_reverse]
      exact h.names
    exact hnames.sublist (List.filter_sublist.map _)
  · rw [mem_heapSlots, ← h.lookup, SlotTable.lookup_eq_some]
    have hkind : slot.kind.isHeap = true ↔ slot.kind = .string ∨ slot.kind = .array := by
      cases slot.kind <;> decide
    rw [hkind, and_iff_left rfl]
    rfl

/-- **Frames are a stack of tables in which the first registration wins.** -/
theorem run_firstWins (steps : List Step) : ∃ current outer, noted steps = current :: outer ∧
    List.Forall₂ SlotTable.FirstWins (top.run steps).outer outer ∧ (top.run steps).table.FirstWins current ∧
    (∀ name, (top.run steps).lookup name = current.find? fun s => s.name == name) ∧
    (∀ keep, ((top.run steps).heapSlots keep).reverse.Sublist current ∧
      (((top.run steps).heapSlots keep).map Slot.name).Nodup ∧
      ∀ slot, slot ∈ (top.run steps).heapSlots keep ↔ (current.find? fun s => s.name == slot.name) = some slot ∧
        (slot.kind = .string ∨ slot.kind = .array) ∧ some slot.name ≠ keep) ∧
    (outer = [] → (top.run steps).leave = ([], top.run steps)) ∧
    ∀ body, Nested body → (top.run steps).run (.enter :: (body ++ [.leave])) = top.run steps := by
  have htop : List.Forall₂ SlotTable.FirstWins (top.table :: top.outer) [[]] :=
    .cons ⟨List.nil_sublist _, List.nodup_nil, SlotTable.empty.agrees, fun _ => rfl⟩ .nil
  obtain ⟨current, outer, hcurrent, houter, hnoted⟩ := List.forall₂_cons_left_iff.1 (run_forall₂_firstWins steps htop)
  refine ⟨current, outer, hnoted, houter, hcurrent, hcurrent.lookup, heapSlots_firstWins hcurrent, ?_, fun body h => ?_⟩
  · rintro rfl
    unfold Frames.leave
    rw [List.forall₂_nil_right_iff.1 houter]
  · exact run_enter_leave h.outer _ []

/-- A text whose name is registered again for a number. -/
def shadowing : List Step := [.register ⟨"s", ⟨0⟩, .string⟩, .register ⟨"s", ⟨1⟩, .int⟩]

theorem shadowing_firstWins : (top.run shadowing).lookup "s" = some ⟨"s", ⟨0⟩, .string⟩ ∧
    (top.run shadowing).leave = ([], top.run shadowing) ∧
    (top.run shadowing).run [.enter, .register ⟨"s", ⟨2⟩, .array⟩, .enter, .leave, .leave] = top.run shadowing := by
  obtain ⟨current, outer, hnoted, -, -, hlookup, -, hleave, hbody⟩ := run_firstWins shadowing
  obtain ⟨rfl, rfl⟩ := List.cons.inj hnoted
  exact ⟨hlookup "s", hleave rfl, hbody _ (.cons (by simp) (by simp) (.body .nil .nil))⟩

end Frames
end QuillLang
