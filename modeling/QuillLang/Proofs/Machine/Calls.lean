import QuillLang.Proofs.Machine.Ledger
import QuillLang.Proofs.Discipline.Basic
/-!
# The library leaves lifetimes alone

Whatever a routine of the library does, no block begins or ends and none changes hands.  Called as it is declared, with
pointers that do not dangle, it can only stop at null.
-/
namespace QuillLang

/-! ## Arguments -/

theorem Value.eq_ptr {v : Value} (h : v.type = .ptr) : ∃ p, v = .ptr p := by
  cases v with
  | ptr p => exact ⟨p, rfl⟩
  | i1 | i32 | i64 | double => cases h

theorem Value.eq_i64 {v : Value} (h : v.type = .i64) : ∃ n, v = .i64 n := by
  cases v with
  | i64 n => exact ⟨n, rfl⟩
  | i1 | i32 | double | ptr => cases h

theorem Value.eq_i32 {v : Value} (h : v.type = .i32) : ∃ n, v = .i32 n := by
  cases v with
  | i32 n => exact ⟨n, rfl⟩
  | i1 | i64 | double | ptr => cases h

theorem Value.eq_i1 {v : Value} (h : v.type = .i1) : ∃ b, v = .i1 b := by
  cases v with
  | i1 b => exact ⟨b, rfl⟩
  | i32 | i64 | double | ptr => cases h

theorem Value.eq_double {v : Value} (h : v.type = .double) : ∃ bits, v = .double bits := by
  cases v with
  | double bits => exact ⟨bits, rfl⟩
  | i1 | i32 | i64 | ptr => cases h

def Argument.Has (x : Argument) (ty : MachineType) : Prop :=
  match x with
  | .text _ _ => ty = .ptr
  | .other v => v.type = ty ∧ ty ≠ .ptr

theorem Argument.Has.text {x : Argument} (h : x.Has .ptr) : ∃ p s, x = .text p s := by
  cases x with
  | text p s => exact ⟨p, s, rfl⟩
  | other v => exact absurd rfl h.2

theorem Argument.Has.double {x : Argument} (h : x.Has .double) : ∃ bits, x = .other (.double bits) := by
  cases x with
  | text p s => cases h
  | other v =>
    obtain ⟨bits, rfl⟩ := Value.eq_double h.1
    exact ⟨bits, rfl⟩

/-! ## Effects -/

namespace Library

/-- What a routine that is called as it is declared does: it gives a value of its type, and writes only if it is one that
writes. -/
def Does (w : Answer) (e : External) (args : List Argument) : Prop :=
  ∃ x, effect w e.name e.signature.ret args = some x ∧ (e.signature.ret ≠ .void → x.result.type = e.signature.ret) ∧
    (x.written.isSome = true → e.name ∈ External.writers)

theorem does_graphics (w : Answer) {e : External} (he : e ∈ External.graphics) (args : List Argument) : Does w e args := by
  have hret : ∀ e ∈ External.graphics, e.signature.ret = .void ∨ e.signature.ret = .i64 := by decide
  refine ⟨⟨none, [], .i64 w.number⟩, ?_, fun hne => ?_, fun h => by cases h⟩
  · unfold effect
    rw [if_pos (List.mem_map_of_mem he), if_pos (hret e he)]
  · exact ((hret e he).resolve_left hne).symm

/-- **Called as it is declared, a routine of the library does something.** -/
theorem does_of_args (w : Answer) {e : External} (he : e ∈ External.core ++ External.graphics)
    (ho : e.name ∉ ["malloc", "free", "exit"]) {args : List Argument} {tys : List MachineType}
    (hargs : List.Forall₂ Argument.Has args tys) (hp : e.signature.params <+: tys)
    (ha : e.signature.isVariadic = false → tys.length = e.signature.params.length) : Does w e args := by
  rcases List.mem_append.1 he with he | he
  swap
  · exact does_graphics w he args
  have hfixed : e.signature.isVariadic = false → tys = e.signature.params := fun hv =>
    (hp.eq_of_length (ha hv).symm).symm
  have one : ∀ {name : String} {ty ret : MachineType}, e = ⟨name, [ty], ret, false⟩ → ∃ x, args = [x] ∧ x.Has ty := by
    rintro name ty ret rfl
    rw [hfixed rfl] at hargs
    cases hargs with
    | cons hx hnil =>
      cases hnil
      exact ⟨_, rfl, hx⟩
  have two : ∀ {name : String} {ret : MachineType}, e = ⟨name, [.ptr, .ptr], ret, false⟩ →
      ∃ p s q t, args = [.text p s, .text q t] := by
    rintro name ret rfl
    rw [hfixed rfl] at hargs
    cases hargs with
    | cons hx hrest =>
      cases hrest with
      | cons hy hnil =>
        cases hnil
        obtain ⟨p, s, rfl⟩ := hx.text
        obtain ⟨q, t, rfl⟩ := hy.text
        exact ⟨p, s, q, t, rfl⟩
  simp only [External.core, List.mem_cons, List.not_mem_nil, or_false] at he
  rcases he with rfl | rfl | rfl | rfl | rfl | rfl | rfl | rfl | rfl | rfl | rfl | rfl
  · -- printf
    obtain ⟨rest, rfl⟩ := hp
    cases hargs with
    | cons hx _ =>
      obtain ⟨p, s, rfl⟩ := hx.text
      exact ⟨_, rfl, fun _ => rfl, fun h => by cases h⟩
  · -- sprintf
    obtain ⟨rest, rfl⟩ := hp
    cases hargs with
    | cons hx hrest =>
      cases hrest with
      | cons hy _ =>
        obtain ⟨p, s, rfl⟩ := hx.text
        obtain ⟨q, t, rfl⟩ := hy.text
        exact ⟨_, rfl, fun _ => rfl, fun _ => by decide⟩
  · exact absurd (by simp) ho
  · exact absurd (by simp) ho
  · obtain ⟨p, s, q, t, rfl⟩ := two rfl
    exact ⟨_, rfl, fun _ => rfl, fun _ => by decide⟩
  · obtain ⟨p, s, q, t, rfl⟩ := two rfl
    exact ⟨_, rfl, fun _ => rfl, fun _ => by decide⟩
  · obtain ⟨p, s, q, t, rfl⟩ := two rfl
    exact ⟨_, rfl, fun _ => rfl, fun h => by cases h⟩
  · obtain ⟨x, rfl, hx⟩ := one rfl
    obtain ⟨p, s, rfl⟩ := hx.text
    exact ⟨_, rfl, fun _ => rfl, fun h => by cases h⟩
  · obtain ⟨x, rfl, hx⟩ := one rfl
    obtain ⟨p, s, rfl⟩ := hx.text
    exact ⟨_, rfl, fun _ => rfl, fun h => by cases h⟩
  · obtain ⟨x, rfl, hx⟩ := one rfl
    obtain ⟨bits, rfl⟩ := hx.double
    exact ⟨_, rfl, fun _ => rfl, fun h => by cases h⟩
  · obtain ⟨x, rfl, hx⟩ := one rfl
    obtain ⟨bits, rfl⟩ := hx.double
    exact ⟨_, rfl, fun _ => rfl, fun h => by cases h⟩
  · exact absurd (by simp) ho

end Library

/-! ## Calls -/

namespace Machine
variable {a : Assembly} {w : Answer} {m m' : Machine} {id : Nat} {p : Pointer}

/-- Nothing but texts, numbers and the output differs. -/
structure SameLives (m m' : Machine) : Prop where
  running : m'.running = m.running
  callers : m'.callers = m.callers
  slots : m'.slots = m.slots
  fresh : m'.fresh = m.fresh
  owns : ∀ id b, Owns m'.heap id b ↔ Owns m.heap id b

theorem SameLives.refl (m : Machine) : m.SameLives m := ⟨rfl, rfl, rfl, rfl, fun _ _ => Iff.rfl⟩

theorem sameLives_setBuffer {b : Nat} {k k' : Buffer} (hb : m.heap[b]? = some k) (hl : k'.live = k.live)
    (ho : k'.owner = k.owner) : m.SameLives (m.setBuffer b k') :=
  ⟨rfl, rfl, rfl, rfl, fun _ _ => Owns.set_iff hb hl ho⟩

theorem text_safe (h : LentTo a m.heap id p) : Safe (m.text a p) fun _ => True := by
  rcases h with rfl | ⟨g, rfl, hg⟩ | ⟨b, owner, rfl, ⟨k, hk, hlive, -⟩, -⟩
  · exact .inl rfl
  · obtain ⟨c, hc, rfl⟩ := List.mem_map.1 hg
    have hfound : (a.globals.find? fun d => d.name == c.name).isSome = true :=
      List.find?_isSome.2 ⟨c, hc, by simp⟩
    obtain ⟨d, hd⟩ := Option.isSome_iff_exists.1 hfound
    exact .of_eq (v := (Utf8.bytes d.content).takeWhile (· ≠ 0)) (by simp [text, hd]) trivial
  · exact .of_eq (v := k.text) (by simp [text, hk, hlive]) trivial

theorem argument_safe {v : Value} (h : ∀ p, v = .ptr p → LentTo a m.heap id p) :
    Safe (m.argument a v) fun x => x.Has v.type := by
  cases v with
  | ptr p => exact (text_safe (h p rfl)).bind fun _ _ => rfl
  | i1 | i32 | i64 | double => exact ⟨rfl, by simp [Value.type]⟩

theorem setText_safe (h : OwnedBy m.heap id p) (text : List UInt8) : Safe (m.setText p text) (m.SameLives ·) := by
  rcases h with rfl | ⟨b, rfl, k, hk, hlive, -⟩
  · exact .inl rfl
  · have hset : m.setText (.heap b 0) text = .ok (m.setBuffer b { k with text := text }) := by
      simp [setText, hk, hlive]
    exact .of_eq hset (sameLives_setBuffer hk rfl rfl)

/-- **Calls of the library are safe**, and change no lifetimes. -/
theorem callLibrary_safe {e : External} (he : e ∈ External.core ++ External.graphics)
    (ho : e.name ∉ ["malloc", "free", "exit"]) {vs : List Value} (hp : e.signature.params <+: vs.map Value.type)
    (ha : e.signature.isVariadic = false → vs.length = e.signature.params.length)
    (hlent : ∀ p, .ptr p ∈ vs → LentTo a m.heap id p)
    (hw : e.name ∈ External.writers → ∃ p, vs.head? = some (.ptr p) ∧ ∃ i, OwnedBy m.heap i p) :
    Safe (m.callLibrary a w e.name e.signature.ret vs) fun r =>
      m.SameLives r.1 ∧ (e.signature.ret ≠ .void → r.2.type = e.signature.ret) := by
  have hgood : vs.any (m.badArgument a) = false := by
    rw [List.any_eq_false]
    intro v hv
    cases v with
    | ptr p => simp [badArgument, (hlent p hv).not_dangles]
    | i1 | i32 | i64 | double => simp [badArgument]
  unfold callLibrary
  rw [hgood]
  refine (Safe.mapM (R := fun v x => Argument.Has x v.type) fun v hv => ?_).bind fun args hargs => ?_
  · refine argument_safe fun p hvp => hlent p ?_
    rw [← hvp]
    exact hv
  have hargs : List.Forall₂ Argument.Has args (vs.map Value.type) := by
    rw [List.forall₂_map_right_iff]
    exact hargs.flip
  obtain ⟨x, hx, hret, hwrites⟩ := Library.does_of_args w he ho hargs hp (by simpa using ha)
  rw [hx]
  dsimp only
  refine Safe.bind (P := (m.SameLives ·)) ?_ fun m' hm' => ?_
  · cases hwritten : x.written with
    | none =>
      refine .of_eq (v := m) ?_ (.refl m)
      unfold writeFirst
      split <;> first | rfl | contradiction
    | some text =>
      obtain ⟨p, hhead, i, hown⟩ := hw (hwrites (by rw [hwritten]; rfl))
      cases vs with
      | nil => cases hhead
      | cons v rest =>
        cases hhead
        exact setText_safe hown text
  · exact ⟨⟨hm'.running, hm'.callers, hm'.slots, hm'.fresh, hm'.owns⟩, hret⟩

end Machine
end QuillLang
