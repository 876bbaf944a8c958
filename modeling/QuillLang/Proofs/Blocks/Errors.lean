import QuillLang.Proofs.Grammar.Complete
import QuillLang.Proofs.Spans.Reading
import Mathlib.Data.List.Nodup
/-!
# Errors about blocks

Only blocks and the first token of a statement give rise to complaints about blocks.  As a block knows the keyword that
opened it, the complaint is about the block that the tokens leave open there, and as statements do not depend on the keyword
behind them, what stands before a keyword that closes no block is a program itself (`Program.ofTokens_blames`).
-/
namespace QuillLang

open Token (openBlocks)

namespace Token

def OnlyAt (ts : List Token) (span : Span) (t : Token) : Prop := ∀ u, (u ∈ ts ∧ u.span = span) ↔ u = t

theorem onlyAt_of_mem {ts : List Token} (hspans : (ts.map Token.span).Nodup) {t : Token} (ht : t ∈ ts) :
    OnlyAt ts t.span t := by
  intro u
  constructor
  · rintro ⟨hu, hspan⟩
    exact List.inj_on_of_nodup_map hspans hu ht hspan
  · rintro rfl
    exact ⟨ht, rfl⟩

theorem onlyAt_between {before after : List Token} {t : Token} (hspans : ((before ++ t :: after).map Token.span).Nodup) :
    OnlyAt (before ++ t :: after) t.span t :=
  onlyAt_of_mem hspans (List.mem_append_right before List.mem_cons_self)

end Token

open Token (OnlyAt)

namespace Program

/-- A program is rejected for a keyword that closes no block, behind what is a program itself, or for another reason. -/
theorem error_of_ofTokens {ts : List Token} {stop : Option Position} {e : ParseError} (h : ofTokens ts stop = .error e) :
    (∃ before closer span after, ts = before ++ ⟨.keyword closer, span⟩ :: after ∧ closer.isCloser = true ∧
      e = .unmatchedCloser closer span ∧ openBlocks before = some [] ∧ ∀ stop', ∃ p, ofTokens before stop' = .ok p) ∨
    e.Blames [] ts := by
  obtain hplain | ⟨us, l, rest, rfl, hus, ⟨k, span, after, rfl, hk, rfl⟩ | hblames⟩ := blames_of_ofTokens h
  · exact .inr (hplain.blames [] ts)
  · have hends : TokenKind.Ends none := Token.Opens.nil.ends
    exact .inl ⟨us, k, span, after, rfl, hk, rfl, hus.toFrom.steady Token.counts_track [],
      fun stop' => ⟨_, ofTokens_of_parses (hus.loosen hends) stop'⟩⟩
  · exact .inr (hblames.append (hus.toFrom.steady Token.counts_track []))

/-- **An error about a block names the right one**, if no two tokens have the same place.  Where a block is left open, it is
the innermost of those that the tokens leave open.  Where a keyword closes none, what comes before it is a program itself.
Where a keyword closes another block than the innermost, it is that of the innermost which was asked for. -/
theorem ofTokens_blames {ts : List Token} (hspans : (ts.map Token.span).Nodup) (stop : Option Position) :
    (∀ opener expected span, ofTokens ts stop = .error (.unclosedBlock opener expected span) →
      ∃ innermost outer, openBlocks ts = some (innermost :: outer) ∧ OnlyAt ts span innermost ∧
        innermost.kind = .keyword opener ∧ opener.closer? = some expected) ∧
    (∀ closer span, ofTokens ts stop = .error (.unmatchedCloser closer span) →
      ∃ before t after, ts = before ++ t :: after ∧ OnlyAt ts span t ∧ t.kind = .keyword closer ∧
        closer.isCloser = true ∧ openBlocks before = some [] ∧ ∀ stop', ∃ p, ofTokens before stop' = .ok p) ∧
    ∀ expected found span, ofTokens ts stop = .error (.unexpectedToken (.keyword expected) found span) →
      expected.isCloser = true →
        ∃ before t after other innermost outer, ts = before ++ t :: after ∧ OnlyAt ts span t ∧ t.kind = found ∧
          found = .keyword other ∧ other.isCloser = true ∧ other ≠ expected ∧
            openBlocks before = some (innermost :: outer) ∧ innermost.awaited? = some expected := by
  refine ⟨fun opener expected span h => ?_, fun closer span h => ?_, fun expected found span h hexpected => ?_⟩
  · obtain ⟨_, _, _, _, -, -, ⟨⟩, -⟩ | ⟨⟨outer, houter⟩, hcloser⟩ := error_of_ofTokens h
    exact ⟨_, outer, houter, Token.onlyAt_of_mem hspans (Token.mem_of_openBlocks houter List.mem_cons_self), rfl, hcloser⟩
  · obtain ⟨before, _, _, after, rfl, hcloser, ⟨⟩, hopen, hreads⟩ | hblames := error_of_ofTokens h
    · exact ⟨before, _, after, rfl, Token.onlyAt_between hspans, rfl, hcloser, hopen, hreads⟩
    · exact hblames.elim
  · obtain ⟨_, _, _, _, -, -, ⟨⟩, -⟩ | hblames := error_of_ofTokens h
    obtain ⟨before, after, other, innermost, outer, rfl, hfound, hother, hne, hopen, hawaits⟩ := hblames hexpected
    exact ⟨before, _, after, other, innermost, outer, rfl, Token.onlyAt_between hspans, rfl, hfound,
      hother, hne, hopen, hawaits⟩

def spaced (ks : List TokenKind) : List Token := ks.mapIdx fun i k => ⟨k, spacedSpan i i⟩

/-- `func f if a endif if a print a`: the second `if` is left open, and so is the function. -/
def leftOpen : List Token :=
  spaced [.keyword .func, .identifier "f", .keyword .ifKw, .identifier "a", .keyword .endif, .keyword .ifKw, .identifier "a",
    .keyword .print, .identifier "a"]

/-- `if a endif repeat print a`: no block is open at `repeat`. -/
def strayRepeat : List Token :=
  spaced [.keyword .ifKw, .identifier "a", .keyword .endif, .keyword .repeatKw, .keyword .print, .identifier "a"]

/-- `as a if a print a repeat endif`: the loop is closed before the block in it. -/
def crossed : List Token :=
  spaced [.keyword .asKw, .identifier "a", .keyword .ifKw, .identifier "a", .keyword .print, .identifier "a",
    .keyword .repeatKw, .keyword .endif]

theorem tangled_blames :
    (ofTokens leftOpen none = .error (.unclosedBlock .ifKw .endif (spacedSpan 5 5)) ∧
      ∃ innermost outer, openBlocks leftOpen = some (innermost :: outer) ∧ OnlyAt leftOpen (spacedSpan 5 5) innermost ∧
        innermost.kind = .keyword .ifKw ∧ Keyword.ifKw.closer? = some .endif) ∧
    (ofTokens strayRepeat none = .error (.unmatchedCloser .repeatKw (spacedSpan 3 3)) ∧
      ∃ before t after, strayRepeat = before ++ t :: after ∧ OnlyAt strayRepeat (spacedSpan 3 3) t ∧
        t.kind = .keyword .repeatKw ∧ Keyword.repeatKw.isCloser = true ∧ openBlocks before = some [] ∧
          ∀ stop', ∃ p, ofTokens before stop' = .ok p) ∧
    ofTokens crossed none = .error (.unexpectedToken (.keyword .endif) (.keyword .repeatKw) (spacedSpan 6 6)) ∧
      ∃ before t after other innermost outer, crossed = before ++ t :: after ∧ OnlyAt crossed (spacedSpan 6 6) t ∧
        t.kind = .keyword .repeatKw ∧ TokenKind.keyword .repeatKw = .keyword other ∧ other.isCloser = true ∧
          other ≠ .endif ∧ openBlocks before = some (innermost :: outer) ∧ innermost.awaited? = some .endif := by
  have hopen : ofTokens leftOpen none = .error (.unclosedBlock .ifKw .endif (spacedSpan 5 5)) := rfl
  have hstray : ofTokens strayRepeat none = .error (.unmatchedCloser .repeatKw (spacedSpan 3 3)) := rfl
  have hcrossed : ofTokens crossed none =
    .error (.unexpectedToken (.keyword .endif) (.keyword .repeatKw) (spacedSpan 6 6)) := rfl
  have hleft : (leftOpen.map Token.span).Nodup := by decide
  have hrepeat : (strayRepeat.map Token.span).Nodup := by decide
  have hloop : (crossed.map Token.span).Nodup := by decide
  obtain ⟨hunclosed, -, -⟩ := ofTokens_blames hleft none
  obtain ⟨-, hunmatched, -⟩ := ofTokens_blames hrepeat none
  obtain ⟨-, -, hunexpected⟩ := ofTokens_blames hloop none
  exact ⟨⟨hopen, hunclosed _ _ _ hopen⟩, ⟨hstray, hunmatched _ _ hstray⟩, hcrossed, hunexpected _ _ _ hcrossed rfl⟩

end Program
end QuillLang
