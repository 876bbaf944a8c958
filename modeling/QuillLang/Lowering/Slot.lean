import QuillLang.Assembly.Basic
import QuillLang.Typing.Ty
/-!
# Slots

Every variable of a running body has one stack slot.  A slot of a text or an array holds the address of a heap buffer that
the variable owns, so the slots also say what is to be freed when the body is left.  Like scopes, frames of slots form a
stack whose outermost frame is always there, and a body sees its own frame only.
-/
namespace QuillLang

inductive SlotKind where
  | int
  | string
  | array
  deriving DecidableEq

namespace SlotKind

def ofTy : Ty → SlotKind
  | .int => int
  | .string => string

def machineType : SlotKind → MachineType
  | int => .i64
  | string | array => .ptr

def isHeap : SlotKind → Bool
  | int => false
  | string | array => true

def describe : SlotKind → String
  | int => "an Int"
  | string => "a String"
  | array => "an array"

end SlotKind

/-- How a value of a type is held in a register. -/
def Ty.machineType (t : Ty) : MachineType := (SlotKind.ofTy t).machineType

structure Slot where
  name : String
  register : Register
  kind : SlotKind
  deriving DecidableEq

/-- The slots of one body, in the order of their declarations. -/
abbrev Frame := List Slot

/-- The slots of a body, and where among them the slot of a name stands.  The two say the same, so a name has one slot. -/
structure SlotTable where
  slots : Frame
  byName : Table Nat
  agrees : ∀ name i, byName.get? name = some i ↔ slots[i]?.map Slot.name = some name

namespace SlotTable

def empty : SlotTable := ⟨[], Table.empty, by simp⟩

def lookup (t : SlotTable) (name : String) : Option Slot :=
  (t.byName.get? name).bind fun i => t.slots[i]?

theorem lookup_eq_none {t : SlotTable} {name : String} : t.lookup name = none ↔ t.byName.get? name = none := by
  unfold lookup
  cases h : t.byName.get? name with
  | none => simp
  | some i =>
    have hi := (t.agrees name i).1 h
    simp only [Option.bind_some, reduceCtorEq, iff_false]
    intro hnone
    rw [hnone] at hi
    cases hi

/-- What is said of a new name is said at the end. -/
theorem agrees_push {t : SlotTable} {s : Slot} (h : t.lookup s.name = none) (name : String) (i : Nat) :
    (t.byName.insert s.name t.slots.length).get? name = some i ↔ (t.slots ++ [s])[i]?.map Slot.name = some name := by
  have hnew : ∀ j : Nat, t.slots[j]?.map Slot.name ≠ some s.name := by
    intro j hj
    rw [← t.agrees, lookup_eq_none.1 h] at hj
    cases hj
  rw [Table.get?_insert, List.getElem?_append]
  by_cases hname : name = s.name
  · subst hname
    rw [if_pos rfl, Option.some.injEq]
    constructor
    · rintro rfl
      simp
    · intro hi
      split at hi
      · exact absurd hi (hnew i)
      · cases hsub : i - t.slots.length with
        | zero => omega
        | succ n => simp [hsub] at hi
  · rw [if_neg hname, t.agrees]
    split
    · rfl
    · rename_i hi
      rw [List.getElem?_eq_none (Nat.le_of_not_lt hi)]
      cases i - t.slots.length <;> simp [Ne.symm hname]

/-- Put a slot behind the others, unless its name has one. -/
def register (t : SlotTable) (s : Slot) : Slot × SlotTable :=
  match h : t.lookup s.name with
  | some old => (old, t)
  | none => (s, ⟨t.slots ++ [s], t.byName.insert s.name t.slots.length, agrees_push h⟩)

instance : DecidableEq SlotTable := fun s t =>
  if h : s.slots = t.slots ∧ s.byName = t.byName then isTrue (by cases s; cases t; cases h.1; cases h.2; rfl)
  else isFalse fun e => h (by rw [e]; exact ⟨rfl, rfl⟩)

end SlotTable

structure Frames where
  table : SlotTable
  outer : List SlotTable
  deriving DecidableEq

namespace Frames

def top : Frames := ⟨.empty, []⟩

def current (f : Frames) : Frame := f.table.slots

/-- The number of bodies entered. -/
def depth (f : Frames) : Nat := f.outer.length

def enter (f : Frames) : Frames := ⟨.empty, f.table :: f.outer⟩

/-- Leave the current body; its slots come newest first.  The top level is never left. -/
def leave (f : Frames) : List Slot × Frames :=
  match f.outer with
  | [] => ([], f)
  | t :: ts => (f.current.reverse, ⟨t, ts⟩)

def lookup (f : Frames) (name : String) : Option Slot := f.table.lookup name

/-- Give a variable a slot.  A variable that has one keeps it. -/
def register (f : Frames) (name : String) (reg : Register) (kind : SlotKind) : Slot × Frames :=
  let (slot, table) := f.table.register ⟨name, reg, kind⟩
  (slot, { f with table })

/-- The slots of the current body that hold buffers, newest first, without the one named `keep`. -/
def heapSlots (f : Frames) (keep : Option String) : List Slot :=
  f.current.reverse.filter fun s => s.kind.isHeap && some s.name != keep

end Frames

/-- Must a declaration free what its slot holds?  It must when the slot was there before, and when the declaration stands in
a loop and may have run before. -/
def declarationFrees (redeclared : Bool) (loopDepth : Nat) : Bool :=
  redeclared || decide (0 < loopDepth)

end QuillLang
