import QuillLang.Proofs.Graph.Framed
import QuillLang.Proofs.Meaning.Runs
/-!
# Control never runs into `unreachable`

In a routine of a lowered program numbers and labels of blocks differ, nothing branches to the first block, and a block that
ends in `unreachable` leaves the process first or is never entered.  Labels and calls of `exit` are as every act of lowering
leaves them (`Program.framed_of_lower`); what is never entered is read off the plan that the routine fits.
-/
namespace QuillLang

/-! ## Labels -/

namespace Block

theorem eq_of_append_cons {c : Char} : ∀ {x y d e : List Char}, c ∉ d → c ∉ e → x ++ c :: d = y ++ c :: e → d = e
  | [], [], _, _, _, _, h => (List.cons.inj h).2
  | [], z :: y, d, e, hd, _, h => by
    have hrest := (List.cons.inj h).2
    exact absurd (hrest ▸ (by simp : c ∈ y ++ c :: e)) hd
  | z :: x, [], d, e, _, he, h => by
    have hrest := (List.cons.inj h).2
    exact absurd (hrest ▸ (by simp : c ∈ x ++ c :: d)) he
  | _ :: _, _ :: _, _, _, hd, he, h => eq_of_append_cons hd he (List.cons.inj h).2

theorem dot_notMem_ofNat (n : Nat) : '.' ∉ (Decimal.ofNat n).toList :=
  fun h => absurd (Decimal.isDigit_of_mem h) (by decide)

theorem Labels.id_inj {i j : BlockId} {label : String} (hi : Labels i label) (hj : Labels j label) : i = j := by
  obtain ⟨x, -, hx⟩ := hi
  obtain ⟨y, -, hy⟩ := hj
  have hlists := congrArg String.toList (hx.symm.trans hy)
  have hdot : ".".toList = ['.'] := rfl
  simp only [String.toList_append, hdot, List.append_assoc, List.singleton_append] at hlists
  have hdigits := eq_of_append_cons (dot_notMem_ofNat _) (dot_notMem_ofNat _) hlists
  have hindex := Decimal.ofNat_injective (String.toList_inj.1 hdigits)
  cases i
  cases j
  cases hindex
  rfl

theorem Labels.ne_entry {i : BlockId} {label : String} (h : Labels i label) : label ≠ "entry" := by
  rintro rfl
  obtain ⟨name, -, hname⟩ := h
  have hdot : '.' ∈ "entry".toList := by
    rw [hname]
    simp
  exact absurd hdot (by decide)

theorem Framed.labels_nodup {ks : List Block} (h : Framed ks) (hids : (ks.map Block.id).Nodup) :
    (ks.map Block.label).Nodup := by
  cases ks with
  | nil => exact List.nodup_nil
  | cons k rest =>
    have hentry : k.label = "entry" := h.entry k rfl
    rw [List.map_cons, List.nodup_cons] at hids ⊢
    constructor
    · intro hmem
      obtain ⟨k', hk', hsame⟩ := List.mem_map.1 hmem
      exact (h.rest k' hk').ne_entry (hsame.trans hentry)
    · have hpairs := hids.2
      rw [List.nodup_iff_pairwise_ne, List.pairwise_map] at hpairs ⊢
      refine hpairs.imp_of_mem fun {x y} hx hy hne hsame => hne ?_
      exact (h.rest x hx).id_inj (hsame ▸ h.rest y hy)

theorem Framed.last_of_exit {ks : List Block} (h : Framed ks) {k : Block} (hk : k ∈ ks) {i : Instr} (hi : i ∈ k.instrs)
    (hexit : i.callee? = some "exit") : k.instrs.getLast? = some i := by
  have hne : k.instrs ≠ [] := List.ne_nil_of_mem hi
  have hsplit := List.dropLast_append_getLast hne
  rw [← hsplit] at hi
  rcases List.mem_append.1 hi with hi | hi
  · exact absurd hexit (h.exits k hk i hi)
  · rw [List.getLast?_eq_some_getLast hne, List.mem_singleton.1 hi]

end Block

/-! ## Blocks that control never leaves -/

namespace Setting
variable {S : Setting} {t t' : Known} {i : Instr}

theorem Step.dead_cases (h : S.Step t i t') (hdead : t'.dead = true) : t.dead = true ∨ i.callee? = some "exit" := by
  cases h with
  | exit => exact .inr rfl
  | @external _ _ _ _ _ result => cases result <;> exact .inl hdead
  | alloca | storeNumber | storeNull | storeOwned | storeCell | freeOwned | freeView | loadNumber | loadPointer | element
  | loadCell | arith | compare | cast | malloc | function => exact .inl hdead

theorem Steps.dead_cases {is : List Instr} (h : S.Steps t is t') (hdead : t'.dead = true) :
    t.dead = true ∨ ∃ i ∈ is, i.callee? = some "exit" := by
  induction is generalizing t with
  | nil =>
    obtain rfl : t = t' := h
    exact .inl hdead
  | cons i is ih =>
    obtain ⟨u, hstep, hrest⟩ := h
    rcases ih hrest with hu | ⟨j, hj, hexit⟩
    · rcases hstep.dead_cases hu with ht | hexit
      · exact .inl ht
      · exact .inr ⟨i, List.mem_cons_self, hexit⟩
    · exact .inr ⟨j, List.mem_cons_of_mem i hj, hexit⟩

end Setting

namespace Routine

def Branches (r : Routine) (target : BlockId) : Prop :=
  ∃ k ∈ r.blocks, ∃ e, k.terminator = some e ∧ target ∈ e.successors

/-- Control gets to a block: it is the first one, or a block that control gets to branches to it. -/
inductive Reaches (r : Routine) : Block → Prop where
  | first {k : Block} (h : r.blocks.head? = some k) : Reaches r k
  | next {k k' : Block} {e : Terminator} (h : Reaches r k) (end_eq : k.terminator = some e) (mem : k' ∈ r.blocks)
      (target : k'.id ∈ e.successors) : Reaches r k'

theorem Reaches.mem {r : Routine} {k : Block} (h : r.Reaches k) : k ∈ r.blocks := by
  cases h with
  | first h => exact List.mem_of_head? h
  | next _ _ mem _ => exact mem

theorem Reaches.first_or_branches {r : Routine} {k : Block} (h : r.Reaches k) :
    r.blocks.head? = some k ∨ r.Branches k.id := by
  cases h with
  | first h => exact .inl h
  | next h end_eq _ target => exact .inr ⟨_, h.mem, _, end_eq, target⟩

end Routine

namespace Plan.Fits
variable {P : Plan} {signature : String → Option CallSignature} {r : Routine} {k : Block}

theorem enters_of_branches (h : P.Fits signature r) {target : BlockId} (ht : r.Branches target) :
    target ∈ P.rest.map Block.id ∧ target ∉ P.dead := by
  obtain ⟨k, hk, e, he, htarget⟩ := ht
  obtain ⟨t, e', m, he', -, -, hends⟩ := h.block hk
  obtain rfl : e = e' := Option.some.inj (he.symm.trans he')
  cases hends with
  | br _ enters =>
    obtain rfl := List.mem_singleton.1 htarget
    exact ⟨enters.1, enters.2.1⟩
  | condBr _ _ yes no =>
    rcases List.mem_pair.1 htarget with rfl | rfl
    · exact ⟨yes.1, yes.2.1⟩
    · exact ⟨no.1, no.2.1⟩
  | ret | unreachable => cases htarget

theorem not_branches_head (h : P.Fits signature r) (hk : r.blocks.head? = some k) : ¬r.Branches k.id := by
  intro hb
  have hids := h.ids
  rw [h.blocks, Plan.blocks] at hk hids
  cases hk
  exact (List.nodup_cons.1 hids).1 (h.enters_of_branches hb).1

theorem exits_or_unentered (h : P.Fits signature r) (hk : k ∈ r.blocks) (hend : k.terminator = some .unreachable) :
    (∃ i ∈ k.instrs, i.callee? = some "exit") ∨ (r.blocks.head? ≠ some k ∧ ¬r.Branches k.id) := by
  obtain ⟨t, e, m, he, hsteps, -, hends⟩ := h.block hk
  rw [hend] at he
  cases he
  cases hends with
  | unreachable dead =>
    rcases hsteps.dead_cases dead with hstart | hexit
    · refine .inr ⟨fun hhead => ?_, fun hb => ?_⟩
      · rw [h.blocks, Plan.blocks] at hhead
        cases hhead
        rw [Plan.start, if_pos rfl] at hstart
        cases hstart
      · -- the first block is entered at its head only, and is alive there
        rw [Plan.start] at hstart
        split at hstart
        · cases hstart
        · exact (h.enters_of_branches hb).2 (of_decide_eq_true hstart)
    · exact .inl hexit

end Plan.Fits

namespace Program
variable {p : Program} {sigs : Signatures} {options : LowerOptions} {a : Assembly} {r : Routine}

/-- **The control flow of lowered programs.**  Blocks have numbers and labels of their own; the first block is labelled
`entry` and nothing branches to it; a block that ends in `unreachable` calls `exit` last, or is not the first one and
nothing branches to it.  So control gets to no `unreachable` but behind a call of `exit`. -/
theorem control_flow_of_lower (h : p.lower sigs options = .ok a) (hr : r ∈ a.routines) (hi : r.isExternal = false) :
    (r.blocks.map Block.id).Nodup ∧ (r.blocks.map Block.label).Nodup ∧
      (∃ k, r.blocks.head? = some k ∧ k.label = "entry" ∧ ¬r.Branches k.id) ∧
      (∀ k ∈ r.blocks, k.terminator = some .unreachable →
        (∃ i, k.instrs.getLast? = some i ∧ i.callee? = some "exit") ∨
          (r.blocks.head? ≠ some k ∧ ¬r.Branches k.id)) ∧
      ∀ k, r.Reaches k → k.terminator = some .unreachable →
        ∃ i, k.instrs.getLast? = some i ∧ i.callee? = some "exit" := by
  obtain ⟨es, fs, main, signature, hassembled⟩ := assembled_of_lower h
  obtain ⟨P, hP⟩ := hassembled.plan hr hi
  have hframed := framed_of_lower h r hr
  have hends : ∀ k ∈ r.blocks, k.terminator = some .unreachable →
      (∃ i, k.instrs.getLast? = some i ∧ i.callee? = some "exit") ∨ (r.blocks.head? ≠ some k ∧ ¬r.Branches k.id) := by
    intro k hk hend
    refine (hP.exits_or_unentered hk hend).imp_left ?_
    rintro ⟨i, hi, hexit⟩
    exact ⟨i, hframed.last_of_exit hk hi hexit, hexit⟩
  refine ⟨hP.ids, hframed.labels_nodup hP.ids, ?_, hends, fun k hk hend => ?_⟩
  · have hhead : ∃ k, r.blocks.head? = some k := by
      rw [hP.blocks]
      exact ⟨_, rfl⟩
    obtain ⟨k, hk⟩ := hhead
    exact ⟨k, hk, hframed.entry k hk, hP.not_branches_head hk⟩
  · rcases hends k hk.mem hend with hexit | ⟨hfirst, hbranches⟩
    · exact hexit
    · exact absurd hk.first_or_branches (not_or.2 ⟨hfirst, hbranches⟩)

/-- A window that may be closed between two statements, and a body that goes on behind its `return`. -/
def parting : Program :=
  let here : Span := ⟨⟨1, 1, 0⟩, ⟨1, 1, 0⟩⟩
  let name (x : String) : Ident := ⟨x, here⟩
  ⟨[.func (name "part") [name "n"] [.graphics .poll here, .ret (name "n") here, .print (.var "n" here) here] here,
    .call (name "part") [.number 1 here] none here], here⟩

theorem parting_control_flow : ∃ a, parting.lower (Signatures.infer parting) .standard = .ok a ∧
    ∃ r ∈ a.routines, r.isExternal = false ∧
      (r.blocks.map fun k => (k.label, k.terminator == some .unreachable)) =
        [("entry", false), ("poll.quit.1", true), ("poll.continue.2", false), ("return.dead.3", true)] ∧
      (r.blocks.map Block.label).Nodup ∧ ∀ k, r.Reaches k → k.terminator = some .unreachable →
        ∃ i, k.instrs.getLast? = some i ∧ i.callee? = some "exit" := by
  have hany : ((parting.lower (Signatures.infer parting) .standard).toOption.any fun a =>
      a.routines.any fun r => !r.isExternal && (r.blocks.map fun k => (k.label, k.terminator == some .unreachable)) ==
        [("entry", false), ("poll.quit.1", true), ("poll.continue.2", false), ("return.dead.3", true)]) = true := by
    decide +kernel
  obtain ⟨a, ha, hany⟩ := exists_of_any hany
  obtain ⟨r, hr, hshape⟩ := List.any_eq_true.1 hany
  simp only [Bool.and_eq_true, Bool.not_eq_true', beq_iff_eq] at hshape
  obtain ⟨-, hlabels, -, -, hreaches⟩ := control_flow_of_lower ha hr hshape.1
  exact ⟨a, ha, r, hr, hshape.1, hshape.2, hlabels, hreaches⟩

end Program
end QuillLang
