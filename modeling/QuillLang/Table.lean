/-!
# Tables by name

A table gives each of finitely many names one value.  Its entries stand in the order of the names, code point by code
point, which is also the order of their UTF-8 bytes.  The order is part of the type, so two tables that answer every
look-up alike are equal, whatever was entered first (`Table.ext_get?`).
-/
namespace QuillLang

structure Table (α : Type) where
  entries : List (String × α)
  ordered : entries.Pairwise fun a b => a.1 < b.1

namespace Table
variable {α : Type}

instance [DecidableEq α] : DecidableEq (Table α) := fun s t =>
  if h : s.entries = t.entries then isTrue (by cases s; cases t; cases h; rfl)
  else isFalse fun e => h (by rw [e])

def empty : Table α := ⟨[], .nil⟩

instance : Inhabited (Table α) := ⟨empty⟩

def get? (t : Table α) (name : String) : Option α :=
  t.entries.lookup name

def contains (t : Table α) (name : String) : Bool :=
  (t.get? name).isSome

def size (t : Table α) : Nat := t.entries.length

def names (t : Table α) : List String := t.entries.map Prod.fst

/-! ## Entering a value

There is one way to change a table: give a name the value that `f` makes of the one it had.  Whether the newer or the
older value stays is a choice of `f`.
-/

/-- The entries after the change, in order. -/
def alterEntries (name : String) (f : Option α → α) : List (String × α) → List (String × α)
  | [] => [(name, f none)]
  | (n, v) :: rest =>
    if name < n then (name, f none) :: (n, v) :: rest
    else if name = n then (n, f (some v)) :: rest
    else (n, v) :: alterEntries name f rest

theorem mem_alterEntries {name : String} {f : Option α → α} {e : String × α} :
    ∀ {l : List (String × α)}, e ∈ alterEntries name f l → e.1 = name ∨ ∃ e' ∈ l, e.1 = e'.1
  | [], h => by
    simp only [alterEntries, List.mem_singleton] at h
    exact .inl (by rw [h])
  | (n, v) :: rest, h => by
    unfold alterEntries at h
    split at h
    · rcases List.mem_cons.1 h with rfl | h
      · exact .inl rfl
      · exact .inr ⟨e, h, rfl⟩
    · split at h
      · rcases List.mem_cons.1 h with rfl | h
        · exact .inr ⟨(n, v), List.mem_cons_self, rfl⟩
        · exact .inr ⟨e, List.mem_cons_of_mem _ h, rfl⟩
      · rcases List.mem_cons.1 h with rfl | h
        · exact .inr ⟨(n, v), List.mem_cons_self, rfl⟩
        · rcases mem_alterEntries h with h | ⟨e', he', h⟩
          · exact .inl h
          · exact .inr ⟨e', List.mem_cons_of_mem _ he', h⟩

theorem ordered_alterEntries (name : String) (f : Option α → α) :
    ∀ {l : List (String × α)}, l.Pairwise (fun a b => a.1 < b.1) →
      (alterEntries name f l).Pairwise fun a b => a.1 < b.1
  | [], _ => List.pairwise_singleton _ _
  | (n, v) :: rest, h => by
    have hr := (List.pairwise_cons.1 h).1
    unfold alterEntries
    split
    · rename_i hlt
      refine List.pairwise_cons.2 ⟨fun e he => ?_, h⟩
      rcases List.mem_cons.1 he with rfl | he
      · exact hlt
      · exact String.lt_trans hlt (hr e he)
    · split
      · exact List.pairwise_cons.2 ⟨fun e he => hr e he, h.of_cons⟩
      · rename_i hlt hne
        refine List.pairwise_cons.2 ⟨fun e he => ?_, ordered_alterEntries name f h.of_cons⟩
        rcases mem_alterEntries he with heq | ⟨e', he', heq⟩
        · rw [heq]
          exact Decidable.byContradiction fun h' => hne (String.le_antisymm h' hlt)
        · rw [heq]; exact hr e' he'

/-- Give a name the value `f` makes of the one it had. -/
def alter (t : Table α) (name : String) (f : Option α → α) : Table α :=
  ⟨alterEntries name f t.entries, ordered_alterEntries name f t.ordered⟩

/-- The newer value stays. -/
def insert (t : Table α) (name : String) (value : α) : Table α :=
  t.alter name fun _ => value

/-- The older value stays. -/
def insertNew (t : Table α) (name : String) (value : α) : Table α :=
  t.alter name fun old => old.getD value

/-! ## Looking names up -/

theorem lookup_of_before {n : String} {l : List (String × α)} (h : ∀ p ∈ l, n < p.1) : l.lookup n = none := by
  rw [List.lookup_eq_none_iff]
  intro p hp
  have hlt := h p hp
  simpa using fun he : n = p.1 => String.lt_irrefl n (by rw [he] at hlt ⊢; exact hlt)

theorem lookup_alterEntries (name other : String) (f : Option α → α) : ∀ l : List (String × α),
    l.Pairwise (fun a b => a.1 < b.1) →
      (alterEntries name f l).lookup other = if other = name then some (f (l.lookup name)) else l.lookup other
  | [], _ => by
    by_cases h : other = name
    · simp [alterEntries, h]
    · simp [alterEntries, h]
  | (n, v) :: rest, hs => by
    have hr := (List.pairwise_cons.1 hs).1
    unfold alterEntries
    split
    · rename_i hlt
      -- the name is before every entry, so it has none
      have hnone : ((n, v) :: rest).lookup name = none := by
        apply lookup_of_before
        intro p hp
        rcases List.mem_cons.1 hp with rfl | hp
        · exact hlt
        · exact String.lt_trans hlt (hr p hp)
      by_cases h : other = name
      · simp [h, hnone]
      · have ho : (other == name) = false := by simpa using h
        simp only [List.lookup_cons, ho, h, if_false]
    · split
      · rename_i heq
        subst heq
        by_cases h : other = name
        · simp [h]
        · have ho : (other == name) = false := by simpa using h
          simp only [List.lookup_cons, ho, h, if_false]
      · rename_i hne
        have ih := lookup_alterEntries name other f rest hs.of_cons
        have hn : (name == n) = false := by simpa using hne
        by_cases ho : other = n
        · simp [ho, show ¬ n = name from fun h => hne h.symm]
        · have ho' : (other == n) = false := by simpa using ho
          simp only [List.lookup_cons, ho', hn, ih]

theorem get?_alter (t : Table α) (name other : String) (f : Option α → α) :
    (t.alter name f).get? other = if other = name then some (f (t.get? name)) else t.get? other :=
  lookup_alterEntries name other f t.entries t.ordered

@[simp] theorem get?_insert (t : Table α) (name other : String) (v : α) :
    (t.insert name v).get? other = if other = name then some v else t.get? other :=
  get?_alter t name other _

@[simp] theorem get?_insertNew (t : Table α) (name other : String) (v : α) :
    (t.insertNew name v).get? other = if other = name then some ((t.get? name).getD v) else t.get? other :=
  get?_alter t name other _

@[simp] theorem get?_empty (name : String) : (empty : Table α).get? name = none := rfl

theorem mem_names {t : Table α} {name : String} : name ∈ t.names ↔ t.get? name ≠ none := by
  simp [names, get?, List.lookup_eq_none_iff]

/-! ## Equal look-ups -/

/-- Entries in order are fixed by the look-ups. -/
theorem entries_ext : ∀ {l l' : List (String × α)}, l.Pairwise (fun a b => a.1 < b.1) →
    l'.Pairwise (fun a b => a.1 < b.1) → (∀ n, l.lookup n = l'.lookup n) → l = l'
  | [], [], _, _, _ => rfl
  | [], (m, w) :: l', _, _, h => by simpa using h m
  | (n, v) :: l, [], _, _, h => by simpa using h n
  | (n, v) :: l, (m, w) :: l', hs, hs', h => by
    obtain ⟨hfirst, hrest⟩ := List.pairwise_cons.1 hs
    obtain ⟨hfirst', hrest'⟩ := List.pairwise_cons.1 hs'
    have hnm : n = m := by
      apply Decidable.byContradiction
      intro hne
      have hn := h n
      have hm := h m
      simp only [List.lookup_cons, beq_self_eq_true, show (n == m) = false by simpa using hne] at hn
      simp only [List.lookup_cons, beq_self_eq_true, show (m == n) = false by simpa using Ne.symm hne] at hm
      -- each name would stand behind the other
      obtain ⟨l₁, l₂, rfl, -⟩ := List.lookup_eq_some_iff.1 hn.symm
      obtain ⟨l₃, l₄, rfl, -⟩ := List.lookup_eq_some_iff.1 hm
      exact String.lt_asymm (hfirst (m, w) (by simp)) (hfirst' (n, v) (by simp))
    subst hnm
    have hv := h n
    simp only [List.lookup_cons, beq_self_eq_true, Option.some.injEq] at hv
    subst hv
    have htail : l = l' := by
      apply entries_ext hrest hrest'
      intro x
      by_cases hx : x = n
      · rw [hx, lookup_of_before hfirst, lookup_of_before hfirst']
      · have hxn := h x
        have hb : (x == n) = false := by simpa using hx
        simpa only [List.lookup_cons, hb] using hxn
    rw [htail]

/-- **A table is what its look-ups say.** -/
theorem ext_get? {s t : Table α} (h : ∀ name, s.get? name = t.get? name) : s = t := by
  have he := entries_ext s.ordered t.ordered h
  cases s
  cases t
  cases he
  rfl

end Table
end QuillLang
