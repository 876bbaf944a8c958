import QuillLang.Proofs.Signatures.Demands
import Mathlib.Logic.Function.Iterate
import Mathlib.Order.Bounds.Basic
/-!
# Inference finds the least signatures

One walk over a program merges what each function asks under what was found before it, so the table changes while it is
read.  A walk that changes nothing has met all that the program asks, and no walk goes above a table that is closed:
the tables that a walk leaves as they are are the closed ones (`Signatures.walkProgram_eq_self_iff`), and what is found
from nothing is the least of them (`Signatures.infer_isLeast`).

The first walk records something at every place.  Each later walk that changes the table turns a number at one of these
places into a text, so the walks come to an end before inference stops counting them (`Signatures.walkProgram_infer`).
-/
namespace QuillLang

/-! ## One walk -/

/-- What functions ask when each is walked under what those before it have added. -/
def FuncDecl.askedInTurn : List FuncDecl → Signatures → List Demand
  | [], _ => []
  | f :: fs, s => f.demands s ++ askedInTurn fs (s.mergeAll (f.demands s))

/-- All that one walk over a program merges, in order. -/
def Program.asked (p : Program) (s : Signatures) : List Demand :=
  p.topDemands ++ FuncDecl.askedInTurn p.functions (s.mergeAll p.topDemands)

namespace Signatures
variable {p : Program} {s t : Signatures}

theorem foldl_walkAll_eq : ∀ (fs : List FuncDecl) (s : Signatures),
    fs.foldl (fun s f => (Stmt.walkAll (some f.name.name) ⟨f.paramTable s, s⟩ f.body).sigs) s =
      s.mergeAll (FuncDecl.askedInTurn fs s)
  | [], _ => rfl
  | f :: fs, s => by
    rw [List.foldl_cons, foldl_walkAll_eq fs, Stmt.walkAll_eq, FuncDecl.askedInTurn, mergeAll_append]
    rfl

theorem walkProgram_eq (p : Program) (s : Signatures) : walkProgram p s = s.mergeAll (p.asked s) := by
  unfold walkProgram Program.asked
  rw [foldl_walkAll_eq, Stmt.walkAll_eq, mergeAll_append]
  rfl

theorem le_walkProgram (p : Program) (s : Signatures) : s ≤ walkProgram p s := by
  rw [walkProgram_eq]
  exact le_mergeAll s _

/-! ## Closed tables -/

theorem askedInTurn_eq : ∀ {fs : List FuncDecl}, (∀ d ∈ FuncDecl.askedInTurn fs s, s.Meets d) →
    FuncDecl.askedInTurn fs s = fs.flatMap (·.demands s)
  | [], _ => rfl
  | f :: fs, h => by
    obtain ⟨hf, hfs⟩ := List.forall_mem_append.1 h
    rw [mergeAll_eq_self hf] at hfs
    rw [FuncDecl.askedInTurn, mergeAll_eq_self hf, askedInTurn_eq hfs, List.flatMap_cons]

theorem closed_of_walkProgram (h : walkProgram p s = s) : p.Closed s := by
  have hmet : ∀ d ∈ p.asked s, s.Meets d := by
    rw [walkProgram_eq] at h
    exact (mergeAll_le_iff.1 h.le).2
  obtain ⟨htop, hfunctions⟩ := List.forall_mem_append.1 hmet
  have hasked : p.asked s = p.demands s := by
    rw [mergeAll_eq_self htop] at hfunctions
    rw [Program.asked, mergeAll_eq_self htop, askedInTurn_eq hfunctions, Program.demands]
  rw [hasked] at hmet
  exact hmet

theorem meets_of_under : ∀ {ds ds' : List Demand}, List.Forall₂ Demand.Under ds ds' → (∀ d ∈ ds', s.Meets d) →
    ∀ d ∈ ds, s.Meets d
  | _, _, .nil, _ => by simp
  | _, _, .cons hd hds, h => by
    rw [List.forall_mem_cons] at h ⊢
    exact ⟨h.1.of_under hd, meets_of_under hds h.2⟩

theorem meets_askedInTurn : ∀ {fs : List FuncDecl} {s : Signatures}, s ≤ t →
    (∀ f ∈ fs, ∀ d ∈ f.demands t, t.Meets d) → ∀ d ∈ FuncDecl.askedInTurn fs s, t.Meets d
  | [], _, _, _ => by simp [FuncDecl.askedInTurn]
  | f :: fs, s, hle, h => by
    rw [List.forall_mem_cons] at h
    have hf : ∀ d ∈ f.demands s, t.Meets d := meets_of_under (f.demands_mono hle) h.1
    have hnext : s.mergeAll (f.demands s) ≤ t := mergeAll_le_iff.2 ⟨hle, hf⟩
    exact List.forall_mem_append.2 ⟨hf, meets_askedInTurn hnext h.2⟩

/-- **No walk goes above a closed table.** -/
theorem walkProgram_le (hle : s ≤ t) (ht : p.Closed t) : walkProgram p s ≤ t := by
  obtain ⟨htop, hfunctions⟩ := Program.closed_iff.1 ht
  have hnext : s.mergeAll p.topDemands ≤ t := mergeAll_le_iff.2 ⟨hle, htop⟩
  rw [walkProgram_eq]
  exact mergeAll_le_iff.2 ⟨hle, List.forall_mem_append.2 ⟨htop, meets_askedInTurn hnext hfunctions⟩⟩

/-- **A walk changes nothing exactly under a closed table.** -/
theorem walkProgram_eq_self_iff : walkProgram p s = s ↔ p.Closed s := by
  constructor
  · exact closed_of_walkProgram
  · intro h
    exact le_antisymm (walkProgram_le (le_refl s) h) (le_walkProgram p s)

end Signatures

/-! ## The places of a program -/

theorem Demand.map_entry_of_under : ∀ {ds ds' : List Demand}, List.Forall₂ Demand.Under ds ds' →
    ds.map (·.entry) = ds'.map (·.entry)
  | _, _, .nil => rfl
  | _, _, .cons hd hds => by rw [List.map_cons, List.map_cons, hd.1, map_entry_of_under hds]

def Program.entries (p : Program) : List Signatures.Entry := (p.demands Signatures.empty).map (·.entry)

theorem FuncDecl.map_entry_demands (f : FuncDecl) (s : Signatures) :
    (f.demands s).map (·.entry) = (f.demands Signatures.empty).map (·.entry) :=
  (Demand.map_entry_of_under (f.demands_mono (Signatures.empty_le s))).symm

theorem FuncDecl.map_entry_askedInTurn : ∀ (fs : List FuncDecl) (s : Signatures),
    (askedInTurn fs s).map (·.entry) = (fs.flatMap (·.demands Signatures.empty)).map (·.entry)
  | [], _ => rfl
  | f :: fs, s => by
    rw [askedInTurn, List.map_append, map_entry_askedInTurn fs, f.map_entry_demands, List.flatMap_cons, List.map_append]

theorem Program.map_entry_asked (p : Program) (s : Signatures) : (p.asked s).map (·.entry) = p.entries := by
  rw [asked, List.map_append, FuncDecl.map_entry_askedInTurn, entries, demands, List.map_append]

mutual

theorem Stmt.length_demands_le (sigs : Signatures) : ∀ (s : Stmt) (owner : Option String) (vars : VarTable),
    (s.demands owner vars).length + (s.functions.flatMap (·.demands sigs)).length ≤ s.evidence
  | .call _ _ _ _, _, _ => by simp [Stmt.demands, Stmt.functions, Stmt.evidence]
  | .ret _ _, owner, _ => by cases owner <;> simp [Stmt.demands, Stmt.functions, Stmt.evidence]
  | .when _ body _, owner, vars | .loop _ body _, owner, vars => Stmt.length_demandsAll_le sigs body owner vars
  | .func name params body span, _, _ => by
    -- the body asks on behalf of the function declared here
    have hbody := Stmt.length_demandsAll_le sigs body (some name.name)
      (FuncDecl.paramTable ⟨name, params, body, span⟩ sigs)
    simp only [Stmt.demands, Stmt.functions, Stmt.evidence, List.flatMap_cons, List.length_append, List.length_nil,
      Nat.zero_add]
    exact hbody
  | .make _ _ _, _, _ | .assign _ _ _, _, _ | .makeArray _ _ _, _, _ | .assignArray _ _ _ _, _, _ | .print _ _, _, _
  | .free _ _, _, _ | .graphics _ _, _, _ => by simp [Stmt.demands, Stmt.functions, Stmt.evidence]

theorem Stmt.length_demandsAll_le (sigs : Signatures) : ∀ (l : List Stmt) (owner : Option String) (vars : VarTable),
    (Stmt.demandsAll owner vars l).length + ((Stmt.blockFunctions l).flatMap (·.demands sigs)).length ≤
      Stmt.evidenceAll l
  | [], _, _ => by simp [Stmt.demandsAll, Stmt.blockFunctions, Stmt.evidenceAll]
  | s :: rest, owner, vars => by
    have hs := Stmt.length_demands_le sigs s owner vars
    have hrest := Stmt.length_demandsAll_le sigs rest owner (s.declare vars)
    simp only [Stmt.demandsAll, Stmt.blockFunctions, Stmt.evidenceAll, List.flatMap_append, List.length_append]
    omega

end

theorem Program.length_entries_le (p : Program) : p.entries.length ≤ Stmt.evidenceAll p.statements := by
  have hlength := Stmt.length_demandsAll_le Signatures.empty p.statements none Table.empty
  rw [entries, List.length_map, demands, List.length_append]
  exact hlength

/-! ## The walks come to an end -/

namespace Signatures
variable {p : Program} {s : Signatures}

def texts (p : Program) (s : Signatures) : Nat := p.entries.countP fun entry => s.at? entry = some .string

def Full (p : Program) (s : Signatures) : Prop := ∀ entry ∈ p.entries, ∃ ty, s.at? entry = some ty

theorem texts_le (p : Program) (s : Signatures) : texts p s ≤ Stmt.evidenceAll p.statements :=
  List.countP_le_length.trans p.length_entries_le

theorem full_walkProgram (p : Program) (s : Signatures) : Full p (walkProgram p s) := by
  intro entry hentry
  rw [← p.map_entry_asked s] at hentry
  obtain ⟨d, hd, rfl⟩ := List.mem_map.1 hentry
  rw [walkProgram_eq]
  obtain ⟨ty, hty, -⟩ := mergeAll_meets s hd
  exact ⟨ty, hty⟩

theorem countP_lt_countP {α : Type} {f g : α → Bool} {l : List α} (h : ∀ x ∈ l, f x = true → g x = true) {x : α}
    (hx : x ∈ l) (hf : f x = false) (hg : g x = true) : l.countP f < l.countP g := by
  obtain ⟨l₁, l₂, rfl⟩ := List.append_of_mem hx
  have hl₁ : l₁.countP f ≤ l₁.countP g := List.countP_mono_left fun y hy => h y (by simp [hy])
  have hl₂ : l₂.countP f ≤ l₂.countP g := List.countP_mono_left fun y hy => h y (by simp [hy])
  rw [List.countP_append, List.countP_append, List.countP_cons_of_pos hg, List.countP_cons_of_neg (by simp [hf])]
  omega

/-- **A walk that changes a full table turns a number into a text.** -/
theorem texts_lt_walkProgram (hfull : Full p s) (hne : walkProgram p s ≠ s) : texts p s < texts p (walkProgram p s) := by
  have hunmet : ∃ d ∈ p.asked s, ¬ s.Meets d := by
    by_contra hall
    push Not at hall
    exact hne (by rw [walkProgram_eq, mergeAll_eq_self hall])
  obtain ⟨d, hd, hunmet⟩ := hunmet
  have hentry : d.entry ∈ p.entries := by
    rw [← p.map_entry_asked s]
    exact List.mem_map_of_mem hd
  obtain ⟨ty, hty⟩ := hfull d.entry hentry
  -- what is there is too little, so it is a number and a text is asked for
  have hless : ¬ d.ty ≤ ty := fun hle => hunmet ⟨ty, hty, hle⟩
  have hint : ty = .int := by
    cases ty with
    | int => rfl
    | string => exact absurd (Ty.le_string d.ty) hless
  have hstring : d.ty = .string := by
    cases hd : d.ty with
    | int => exact absurd (hd ▸ Ty.int_le ty) hless
    | string => rfl
  subst hint
  have hmet : (walkProgram p s).Meets d := by
    rw [walkProgram_eq]
    exact mergeAll_meets s hd
  obtain ⟨ty', hty', hle⟩ := hmet
  rw [hstring] at hle
  refine countP_lt_countP (fun entry _ htext => ?_) hentry (by simp [hty]) (by simp [hty', Ty.eq_string_of_le hle])
  obtain ⟨ty'', hafter, habove⟩ := at?_mono (le_walkProgram p s) (of_decide_eq_true htext)
  simp [hafter, Ty.eq_string_of_le habove]

theorem settle_eq_iterate (f : Signatures → Signatures) : ∀ (n : Nat) (s : Signatures), ∃ k ≤ n, settle f n s = f^[k] s
  | 0, s => ⟨0, le_refl 0, rfl⟩
  | n + 1, s => by
    unfold settle
    by_cases h : f s = s
    · exact ⟨0, Nat.zero_le _, by rw [if_pos h]; rfl⟩
    · obtain ⟨k, hkn, hk⟩ := settle_eq_iterate f n (f s)
      exact ⟨k + 1, by omega, by rw [if_neg h, hk]; rfl⟩

/-- From a full table, as many walks are enough as there are numbers left. -/
theorem walkProgram_settle : ∀ (n : Nat) {s : Signatures}, Full p s → Stmt.evidenceAll p.statements < n + texts p s →
    walkProgram p (settle (walkProgram p) n s) = settle (walkProgram p) n s
  | 0, s, _, hn => by
    have hle := texts_le p s
    omega
  | n + 1, s, hfull, hn => by
    unfold settle
    by_cases h : walkProgram p s = s
    · rw [if_pos h, h]
    · have hgrow := texts_lt_walkProgram hfull h
      rw [if_neg h]
      exact walkProgram_settle n (full_walkProgram p s) (by omega)

/-- **Inference stops at a table that another walk leaves as it is.** -/
theorem walkProgram_infer (p : Program) : walkProgram p (infer p) = infer p := by
  unfold infer
  rw [settle]
  by_cases h : walkProgram p empty = empty
  · rw [if_pos h, h]
  · rw [if_neg h]
    exact walkProgram_settle _ (full_walkProgram p empty) (by omega)

theorem closed_infer (p : Program) : p.Closed (infer p) := walkProgram_eq_self_iff.1 (walkProgram_infer p)

theorem iterate_walkProgram_le {t : Signatures} (ht : p.Closed t) : ∀ (k : Nat) {s : Signatures}, s ≤ t →
    (walkProgram p)^[k] s ≤ t
  | 0, _, hle => hle
  | k + 1, _, hle => iterate_walkProgram_le ht k (walkProgram_le hle ht)

/-- **Inference finds the least closed table.** -/
theorem infer_isLeast (p : Program) : IsLeast {s | p.Closed s} (infer p) := by
  refine ⟨closed_infer p, fun t ht => ?_⟩
  obtain ⟨k, -, hk⟩ := settle_eq_iterate (walkProgram p) (Stmt.evidenceAll p.statements + 2) empty
  rw [infer, hk]
  exact iterate_walkProgram_le ht k (empty_le t)

end Signatures
end QuillLang
