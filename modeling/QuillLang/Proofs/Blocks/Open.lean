import QuillLang.Proofs.Grammar.Counting
/-!
# Open blocks

Blocks are matched along the tokens, with no regard to the grammar: a keyword that opens a block is put on a stack, and
one that closes a block takes the innermost one off, if that awaits it (`Token.track`).  This is a count like any other, so
what was read as an expression or a statement leaves the stack as it found it, and the stack at a place is that of the
blocks being read there.

Three complaints are about blocks: one that the input ends in, a keyword that closes none, and one that closes another than
the innermost.  The first and the last are about the block that the tokens themselves leave open where they arise
(`ParseError.Blames`).
-/
namespace QuillLang

theorem Keyword.isCloser_of_closer? {k closer : Keyword} (h : k.closer? = some closer) :
    k.isCloser = false ∧ closer.isCloser = true := by
  cases k <;> cases h <;> exact ⟨rfl, rfl⟩

namespace Token

def awaited? (t : Token) : Option Keyword :=
  match t.kind with
  | .keyword k => k.closer?
  | _ => none

/-- The innermost block is closed; none if `k` is not the keyword that it awaits, or if no block is open. -/
def closeInnermost (opened : List Token) (k : Keyword) : Option (List Token) :=
  match opened with
  | [] => none
  | t :: rest => if t.awaited? = some k then some rest else none

/-- The blocks open after a token, the innermost first, each as the token that opened it. -/
def track (opened : List Token) (t : Token) : Option (List Token) :=
  match t.kind with
  | .keyword k =>
    if k.isCloser then closeInnermost opened k
    else if k.closer?.isSome then some (t :: opened)
    else some opened
  | _ => some opened

def openBlocks (ts : List Token) : Option (List Token) := ts.foldlM track []

theorem awaited?_of_opener {t : Token} {k closer : Keyword} (ht : t.kind = .keyword k) (hk : k.closer? = some closer) :
    t.awaited? = some closer := by
  unfold awaited?
  rw [ht]
  exact hk

theorem track_opener {t : Token} {k closer : Keyword} (ht : t.kind = .keyword k) (hk : k.closer? = some closer)
    (opened : List Token) : track opened t = some (t :: opened) := by
  simp [track, ht, (Keyword.isCloser_of_closer? hk).1, hk]

theorem mem_of_track {opened opened' : List Token} {t : Token} (h : track opened t = some opened') :
    ∀ u ∈ opened', u ∈ opened ∨ u = t := by
  intro u hu
  unfold track at h
  split at h
  · split at h
    · unfold closeInnermost at h
      split at h
      · cases h
      · split at h
        · cases h
          exact .inl (List.mem_cons_of_mem _ hu)
        · cases h
    · split at h
      · cases h
        exact (List.mem_cons.1 hu).symm
      · cases h
        exact .inl hu
  · cases h
    exact .inl hu

theorem mem_of_foldlM_track : ∀ (ts : List Token) {opened opened' : List Token}, ts.foldlM track opened = some opened' →
    ∀ u ∈ opened', u ∈ opened ∨ u ∈ ts
  | [], _, _, h, u, hu => by
    cases h
    exact .inl hu
  | t :: ts, opened, opened', h, u, hu => by
    rw [List.foldlM_cons] at h
    obtain ⟨opened₁, ht, h⟩ := Option.bind_eq_some_iff.1 h
    obtain hu | hu := mem_of_foldlM_track ts h u hu
    · obtain hu | rfl := mem_of_track ht u hu
      · exact .inl hu
      · exact .inr List.mem_cons_self
    · exact .inr (List.mem_cons_of_mem t hu)

theorem mem_of_openBlocks {ts opened : List Token} (h : openBlocks ts = some opened) {t : Token} (ht : t ∈ opened) :
    t ∈ ts :=
  (mem_of_foldlM_track ts h t ht).resolve_left List.not_mem_nil

theorem counts_track : Counts track where
  other := by
    intro opened t ht
    unfold track
    split
    · rename_i k hk
      rw [hk] at ht
      obtain ⟨hcloser, hopener⟩ : k.isCloser = false ∧ k.closer?.isSome = false := Bool.or_eq_false_iff.1 ht
      rw [hcloser, hopener]
      rfl
    · rfl
  pair := by
    intro opened t u h
    generalize ht : t.kind = k, hu : u.kind = l at h
    cases h with
    | paren | bracket => exact ⟨opened, by simp [track, ht], by simp [track, hu]⟩
    | block h =>
      refine ⟨t :: opened, track_opener ht h opened, ?_⟩
      simp [track, hu, (Keyword.isCloser_of_closer? h).2, closeInnermost, awaited?_of_opener ht h]

end Token

/-! ## Errors about blocks -/

open Token (track)

/-- Not about a block: the input ends, or another token than a closing keyword was asked for. -/
def ParseError.IsPlain : ParseError → Prop
  | .unexpectedToken expected _ _ => ∀ k, expected = .keyword k → k.isCloser = false
  | .unexpectedEnd _ _ => True
  | .unclosedBlock _ _ _ | .unmatchedCloser _ _ => False

/-- The error is about the block that tokens leave open where it arises, above the blocks opened before them. -/
def ParseError.Blames (opened ts : List Token) : ParseError → Prop
  | .unclosedBlock opener expected span =>
    (∃ outer, ts.foldlM track opened = some (⟨.keyword opener, span⟩ :: outer)) ∧ opener.closer? = some expected
  | .unexpectedToken (.keyword expected) found span => expected.isCloser = true →
    ∃ before after other innermost outer, ts = before ++ ⟨found, span⟩ :: after ∧ found = .keyword other ∧
      other.isCloser = true ∧ other ≠ expected ∧ before.foldlM track opened = some (innermost :: outer) ∧
        innermost.awaited? = some expected
  | .unmatchedCloser _ _ => False
  | _ => True

namespace ParseError

theorem IsPlain.blames {e : ParseError} (h : e.IsPlain) (opened ts : List Token) : e.Blames opened ts := by
  cases e with
  | unexpectedToken expected found span =>
    cases expected with
    | keyword k =>
      intro hk
      rw [h k rfl] at hk
      cases hk
    | _ => trivial
  | unexpectedEnd => trivial
  | unclosedBlock => exact h.elim
  | unmatchedCloser => exact h.elim

theorem Blames.append {e : ParseError} {opened opened' us ts : List Token} (h : e.Blames opened' ts)
    (hus : us.foldlM track opened = some opened') : e.Blames opened (us ++ ts) := by
  cases e with
  | unexpectedToken expected found span =>
    cases expected with
    | keyword k =>
      intro hk
      obtain ⟨before, after, other, innermost, outer, rfl, hfound, hother, hne, hbefore, hawaits⟩ := h hk
      refine ⟨us ++ before, after, other, innermost, outer, by rw [List.append_assoc], hfound, hother, hne, ?_, hawaits⟩
      rw [List.foldlM_append, hus]
      exact hbefore
    | _ => trivial
  | unexpectedEnd => trivial
  | unclosedBlock opener expected span =>
    obtain ⟨⟨outer, houter⟩, hcloser⟩ := h
    refine ⟨⟨outer, ?_⟩, hcloser⟩
    rw [List.foldlM_append, hus]
    exact houter
  | unmatchedCloser => exact h.elim

end ParseError

end QuillLang
