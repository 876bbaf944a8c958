import QuillLang.Proofs.Ensures
import QuillLang.Proofs.Meaning.Runs
/-!
# Straight code

Code without jumps takes new registers and leaves all others alone, so values that are needed later stay where they are.
`Code` says what such code does, in the manner of a triple: under a condition on the registers the machine follows an effect
and a condition on the registers and the effect's value holds.
-/
namespace QuillLang

/-! ## Registers and slots -/

abbrev Registers := Register → Option Value

namespace Registers

def SameBut (n n' : Nat) (regs regs' : Registers) : Prop :=
  ∀ r : Register, r.index < n ∨ n' ≤ r.index → regs' r = regs r

theorem SameBut.refl (n : Nat) (regs : Registers) : SameBut n n regs regs := fun _ _ => rfl

theorem SameBut.trans {n k n' : Nat} {regs regs' regs'' : Registers} (h : SameBut n k regs regs')
    (h' : SameBut k n' regs' regs'') (hnk : n ≤ k) (hkn : k ≤ n') : SameBut n n' regs regs'' := by
  intro r hr
  rw [h' r (by omega), h r (by omega)]

theorem SameBut.override (n : Nat) (regs : Registers) (v : Value) :
    SameBut n (n + 1) regs (QuillLang.override regs ⟨n⟩ v) := by
  intro r hr
  unfold QuillLang.override
  rw [if_neg]
  rintro rfl
  dsimp only at hr
  omega

end Registers

def Frame.Holds (F : Frame) (vars : Vars) (m : Machine) : Prop :=
  ∀ x ∈ F, m.running.registers x.register = some (.ptr (.slot m.running.id x.register)) ∧
    m.slots m.running.id x.register = some (.i64 (vars x.name))

def Frame.Below (F : Frame) (n : Nat) : Prop := ∀ x ∈ F, x.register.index < n

theorem Frame.Holds.resume {F : Frame} {vars : Vars} {m : Machine} (h : F.Holds vars m) {n n' : Nat} {regs : Registers}
    (hregs : Registers.SameBut n n' m.running.registers regs) (hF : F.Below n) (rest : List Instr) :
    F.Holds vars (m.resume rest regs) := by
  intro x hx
  obtain ⟨hreg, hslot⟩ := h x hx
  exact ⟨(hregs x.register (.inl (hF x hx))).trans hreg, hslot⟩

/-! ## Triples -/

/-- The code `is`, which takes the registers from `n` up to `n'`, computes an effect. -/
def Code {α : Type} (F : Frame) (n n' : Nat) (pre : Registers → Prop) (is : List Instr) (x : Vars → Effect α)
    (post : Registers → α → Prop) : Prop :=
  ∀ (a : Assembly) (bound : Nat) (m : Machine) (vars : Vars) (rest : List Instr), m.running.rest = is ++ rest →
    F.Holds vars m → pre m.running.registers →
    m.Follows a bound (x vars) fun v m' =>
      ∃ regs, m' = m.resume rest regs ∧ Registers.SameBut n n' m.running.registers regs ∧ post regs v

namespace Code
variable {α β : Type} {F : Frame} {n k n' : Nat} {pre pre' P : Registers → Prop} {is js : List Instr}
  {x : Vars → Effect α} {y : α → Vars → Effect β} {post post' : Registers → α → Prop} {R : Registers → β → Prop}

protected theorem pure {v : α} (h : ∀ regs, pre regs → post regs v) : Code F n n pre [] (fun _ => Pure.pure v) post := by
  intro a bound m vars rest hrest hF hpre
  refine .pure ⟨m.running.registers, ?_, .refl n _, h _ hpre⟩
  unfold Machine.resume
  rw [show rest = m.running.rest from hrest.symm]

theorem imp (h : Code F n n' pre is x post) (hpre : ∀ regs, pre' regs → pre regs)
    (hpost : ∀ regs v, post regs v → post' regs v) : Code F n n' pre' is x post' := by
  intro a bound m vars rest hrest hF hp
  refine (h a bound m vars rest hrest hF (hpre _ hp)).imp ?_
  rintro v m' ⟨regs, hm, hsame, hq⟩
  exact ⟨regs, hm, hsame, hpost regs v hq⟩

theorem under (h : Code F n n' pre is x post) (hpre : ∀ regs, pre' regs → pre regs) : Code F n n' pre' is x post :=
  h.imp hpre fun _ _ h => h

protected theorem bind (hF : F.Below n) (hnk : n ≤ k) (hkn : k ≤ n') (h : Code F n k pre is x post)
    (hy : ∀ v, Code F k n' (fun regs => post regs v) js (y v) R) :
    Code F n n' pre (is ++ js) (fun vars => x vars >>= fun v => y v vars) R := by
  intro a bound m vars rest hrest hholds hp
  rw [List.append_assoc] at hrest
  refine (h a bound m vars _ hrest hholds hp).bind ?_
  rintro v m' ⟨regs, rfl, hsame, hq⟩
  refine (hy v a bound _ vars rest rfl (hholds.resume hsame hF _) hq).imp ?_
  rintro u m'' ⟨regs', rfl, hsame', hq'⟩
  exact ⟨regs', rfl, hsame.trans hsame' hnk hkn, hq'⟩

protected theorem map {g : α → β} (h : Code F n n' pre is x post) (hg : ∀ regs v, post regs v → R regs (g v)) :
    Code F n n' pre is (fun vars => x vars >>= fun v => Pure.pure (g v)) R := by
  intro a bound m vars rest hrest hholds hp
  refine (h a bound m vars rest hrest hholds hp).bind fun v m' hm => .pure ?_
  obtain ⟨regs, hm', hsame, hq⟩ := hm
  exact ⟨regs, hm', hsame, hg regs v hq⟩

theorem frame (h : Code F n n' pre is x post)
    (hP : ∀ regs regs' : Registers, (∀ r : Register, r.index < n → regs' r = regs r) → P regs → P regs') :
    Code F n n' (fun regs => P regs ∧ pre regs) is x (fun regs v => P regs ∧ post regs v) := by
  intro a bound m vars rest hrest hholds hp
  refine (h a bound m vars rest hrest hholds hp.2).imp ?_
  rintro v m' ⟨regs, hm, hsame, hq⟩
  exact ⟨regs, hm, hsame, hP _ _ (fun r hr => hsame r (.inl hr)) hp.1, hq⟩

theorem result {operation : Operation} {g : α → Value}
    (h : ∀ (a : Assembly) (m : Machine) (vars : Vars), F.Holds vars m → pre m.running.registers →
      x vars = .fail .undefined ∨ ∃ v, x vars = Pure.pure v ∧
        ∀ w, m.perform a w ⟨some ⟨n⟩, operation⟩ = .ok (m.finish (some ⟨n⟩) (g v))) :
    Code F n (n + 1) pre [⟨some ⟨n⟩, operation⟩] x fun regs v => regs ⟨n⟩ = some (g v) := by
  intro a bound m vars rest hrest hholds hp
  rcases h a m vars hholds hp with hx | ⟨v, hx, hperform⟩
  · rw [hx]
    exact .undefined
  · rw [hx]
    have hstep : ∀ w, m.step a w = .ok (m.resume rest (override m.running.registers ⟨n⟩ (g v))) := by
      intro w
      rw [Machine.step_eq_perform hrest, hperform w, Machine.finish_some hrest]
      rfl
    refine (Machine.Follows.step hstep rfl (.pure ?_)).le (Nat.le_succ bound)
    exact ⟨override m.running.registers ⟨n⟩ (g v), rfl, .override n _ _, by simp [override]⟩

end Code
end QuillLang
