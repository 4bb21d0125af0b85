import FrontEnd.Proofs.Lexing.Lossless
import FrontEnd.Proofs.Lexing.Runs
import FrontEnd.Proofs.Spans

/-! What a range of tokens cuts out of the source text. The bytes of a range that is not empty are a
part of the text that has just the tokens of the range when it is scanned alone, and they keep the
order of the ranges. The range of every node of a program is such a one. -/
namespace FrontEnd

namespace Reading

open Text

variable {readings : List Reading}

/-- Readings fall apart in front of a lexeme that has so many before it. -/
theorem exists_split {n : Nat} (h : n < (lexemes readings).length) :
    ∃ front text l back, readings = front ++ ⟨text, some l⟩ :: back ∧
      (lexemes front).length = n := by
  induction readings generalizing n with
  | nil => simp at h
  | cons reading readings ih =>
    obtain ⟨text, lexeme⟩ := reading
    cases lexeme with
    | none =>
      obtain ⟨front, text', l, back, rfl, hfront⟩ := ih h
      exact ⟨⟨text, none⟩ :: front, text', l, back, rfl, hfront⟩
    | some l =>
      cases n with
      | zero => exact ⟨[], text, l, readings, rfl, rfl⟩
      | succ n =>
        obtain ⟨front, text', l', back, rfl, hfront⟩ := ih (Nat.lt_of_succ_lt_succ h)
        exact ⟨⟨text, some l⟩ :: front, text', l', back, rfl, congrArg (· + 1) hfront⟩

/-- The token of a lexeme starts behind the text in front of it. -/
theorem tokens_getElem? (offset index : Nat) (front back : List Reading) (text : List Char)
    (l : Lexeme) :
    (tokens offset index (front ++ ⟨text, some l⟩ :: back))[(lexemes front).length]? =
      some ⟨l, ⟨offset + byteLength (chars front), offset + byteLength (chars front ++ text)⟩,
        index + (lexemes front).length⟩ := by
  rw [tokens_append, List.getElem?_append_right (Nat.le_of_eq (length_tokens ..)), length_tokens,
    Nat.sub_self]
  simp [tokens, Nat.add_assoc]

/-- The readings from one lexeme on up to another, with the tokens at both ends. -/
theorem exists_cut {i j : Nat} (hij : i < j) (hj : j ≤ (lexemes readings).length) :
    ∃ front inner back first last, readings = front ++ inner ++ back ∧
      (lexemes front).length = i ∧ (lexemes inner).length = j - i ∧
      (tokens 0 0 readings)[i]? = some first ∧ first.span.start = byteLength (chars front) ∧
      (tokens 0 0 readings)[j - 1]? = some last ∧
      last.span.stop = byteLength (chars front ++ chars inner) := by
  obtain ⟨front, text, l, rest, rfl, hfront⟩ := exists_split (Nat.lt_of_lt_of_le hij hj)
  -- the last token of the cut is looked for behind the front
  have hcount : j - 1 - i < (lexemes (⟨text, some l⟩ :: rest)).length := by
    rw [lexemes_append, List.length_append] at hj
    omega
  obtain ⟨mid, text', l', back, hsplit, hmid⟩ := exists_split hcount
  have hfirst := tokens_getElem? 0 0 front rest text l
  have hlast := tokens_getElem? 0 0 (front ++ mid) back text' l'
  have hindex : (lexemes (front ++ mid)).length = j - 1 := by
    rw [lexemes_append, List.length_append, hfront, hmid]
    omega
  rw [hfront] at hfirst
  rw [List.append_assoc, ← hsplit, hindex] at hlast
  refine ⟨front, mid ++ [⟨text', some l'⟩], back, _, _, ?_, hfront, ?_, hfirst, ?_, hlast, ?_⟩
  · simp [hsplit]
  · rw [lexemes_append, List.length_append, hmid]
    show j - 1 - i + 1 = j - i
    omega
  · exact Nat.zero_add _
  · simp

end Reading

namespace Lexical

open Text Reading

/-- The range of tokens cuts a part out of the source text, at bytes where characters start and
end. Scanned alone, the part has the tokens of the range, which stand further on in the source, and
an end mark. -/
structure CutsOut (source : String) (tokens : List Token) (r : TokenRange) (range : ByteRange)
    (part : List Char) (inner : List Token) : Prop where
  bytes : r.bytes tokens = .ok range
  covers : Covers source.toList range part
  scanned : Token.ofSource (String.ofList part) =
    .ok (inner ++ [.endMark (byteLength part) inner.length])
  shifted : inner.map (Token.shift range.start r.start) = tokens.extract r.start r.stop

variable {source : String} {tokens : List Token}

/-- The readings of the range are read alike when they are all of the text. -/
theorem exists_cutsOut (h : Token.ofSource source = .ok tokens) {r : TokenRange}
    (hr : r.start < r.stop) (hstop : r.stop ≤ tokens.length - 1) :
    ∃ range part inner, CutsOut source tokens r range part inner := by
  have hlossless := (Token.scanned_ofSource h).lossless
  obtain ⟨readings, hrun, rfl⟩ := Token.exists_run_of_ok h
  rw [List.length_append, List.length_singleton, Nat.add_sub_cancel] at hstop
  obtain ⟨front, inner, back, first, last, rfl, hfront, hinner, hfirst, hstart, hlast, hend⟩ :=
    exists_cut hr (length_tokens 0 0 readings ▸ hstop)
  refine ⟨⟨byteLength (chars front), byteLength (chars front ++ chars inner)⟩, chars inner,
    tokens 0 0 inner, ?_, ?_, ?_, ?_⟩
  · -- the first and the last token of the range are those of the readings
    obtain ⟨first', last', hfirst', hlast', hbytes, -⟩ :=
      hlossless.bytes hr (by rw [List.length_append]; omega)
    rw [List.getElem?_append_left (by omega), hfirst] at hfirst'
    rw [List.getElem?_append_left (by omega), hlast] at hlast'
    cases hfirst'
    cases hlast'
    rw [hbytes, hstart, hend]
  · have htext := hrun.text_eq
    exact ⟨chars front, chars back, by simpa using htext, rfl, rfl⟩
  · -- a run of readings can be cut at both ends without being read otherwise
    obtain ⟨mid, hmid, -⟩ := hrun.split
    obtain ⟨mid', -, hmid'⟩ := hmid.split
    have hpart := hmid'.truncate
    rw [← String.toList_ofList (l := chars inner)] at hpart
    rw [Token.ofSource_of_run hpart, String.toList_ofList, length_tokens]
  · have hshift := tokens_add 0 0 (byteLength (chars front)) r.start inner
    have hbefore : (tokens 0 0 front).length = r.start := (length_tokens ..).trans hfront
    have hcount : (tokens (0 + byteLength (chars front)) (0 + r.start) inner).length =
        r.stop - r.start := (length_tokens ..).trans hinner
    rw [← hshift, List.extract_eq_take_drop, List.append_assoc front, tokens_append, tokens_append,
      hfront, List.append_assoc, List.append_assoc, List.drop_left' hbefore,
      List.take_left' hcount]

/-- The bytes of ranges that are not empty lie in one another, or one behind the other, as the
ranges do, even where these go on behind the list. -/
theorem Lossless.bytes_ordered {text : List Char} (h : Lossless text tokens) {r r' : TokenRange}
    (hr : r.start < r.stop) (hr' : r'.start < r'.stop) :
    ∃ range range', r.bytes tokens = .ok range ∧ r'.bytes tokens = .ok range' ∧
      (r'.start ≤ r.start → r.stop ≤ r'.stop →
        range'.start ≤ range.start ∧ range.stop ≤ range'.stop) ∧
      (r.stop ≤ r'.start → range.stop ≤ range'.start) := by
  obtain ⟨first, last, hfirst, hlast, hbytes, -⟩ := h.bytes_min hr
  obtain ⟨first', last', hfirst', hlast', hbytes', -⟩ := h.bytes_min hr'
  refine ⟨_, _, hbytes, hbytes', ?_, ?_⟩
  · intro hstart hstop
    exact ⟨(h.span_le_span (by omega) hfirst' hfirst).1,
      (h.span_le_span (by omega) hlast hlast').2⟩
  · intro hapart
    by_cases hin : r.stop ≤ tokens.length - 1
    · exact h.stop_le_start (by omega) hlast hfirst'
    · -- the end mark stands for both tokens, and it has no bytes
      rw [Nat.min_eq_right (by omega)] at hlast hfirst'
      obtain rfl : last = first' := Option.some.inj (hlast.symm.trans hfirst')
      obtain ⟨front, rfl, -⟩ := h.closed
      have hmark : (front ++ [Token.endMark (byteLength text) front.length])[front.length]? =
          some (.endMark (byteLength text) front.length) := List.getElem?_concat_length
      rw [List.length_append, List.length_singleton, Nat.add_sub_cancel, hmark] at hlast
      cases hlast
      exact Nat.le_refl _

/-- The end mark is the last token. -/
theorem Lossless.findIdx_le {text : List Char} (h : Lossless text tokens) :
    tokens.findIdx (·.kind == .endMark) ≤ tokens.length - 1 := by
  obtain ⟨front, rfl, -⟩ := h.closed
  have hmark : ∃ token ∈ front ++ [Token.endMark (byteLength text) front.length],
      (token.kind == .endMark) = true :=
    ⟨_, List.mem_append_right _ (List.mem_singleton_self _), rfl⟩
  exact Nat.le_sub_one_of_lt (List.findIdx_lt_length_of_exists hmark)

end Lexical

namespace Token

open Lexical

variable {source : String} {tokens : List Token}

/-- The bytes of a range of tokens are cut out of the source text between characters, and what is
cut out has the tokens of the range and no others. They lie as the ranges lie. This holds for the
nodes of the program that the tokens say, and for the program. -/
theorem ofSource_extracts (h : ofSource source = .ok tokens) :
    (∀ r : TokenRange, r.start < r.stop → r.stop ≤ tokens.length - 1 →
      ∃ range part inner, CutsOut source tokens r range part inner) ∧
    (∀ r r' : TokenRange, r.start < r.stop → r'.start < r'.stop →
      ∃ range range', r.bytes tokens = .ok range ∧ r'.bytes tokens = .ok range' ∧
        (r'.start ≤ r.start → r.stop ≤ r'.stop →
          range'.start ≤ range.start ∧ range.stop ≤ range'.stop) ∧
        (r.stop ≤ r'.start → range.stop ≤ range'.start)) ∧
    ∀ program, Program.ofTokens tokens = .ok program →
      (∀ node, program.Contains node →
        ∃ range part inner, CutsOut source tokens node.span range part inner) ∧
      (program.body ≠ [] →
        ∃ range part inner, CutsOut source tokens program.span range part inner) := by
  have hlossless := (scanned_ofSource h).lossless
  have hwithin : ∀ {r : TokenRange}, r.Within 0 (tokens.findIdx (·.kind == .endMark)) →
      ∃ range part inner, CutsOut source tokens r range part inner := fun hr =>
    exists_cutsOut h hr.2.1 (Nat.le_trans hr.2.2 hlossless.findIdx_le)
  refine ⟨fun r => exists_cutsOut h, fun r r' => hlossless.bytes_ordered, ?_⟩
  intro program hprogram
  exact ⟨fun node hnode => hwithin (Program.within_of_ofTokens hprogram hnode),
    fun hbody => hwithin (Program.within_span_of_ofTokens hprogram hbody)⟩

/-- The tokens of a statement with comments and with characters of several bytes. -/
def wideTokens : List Token :=
  [⟨.word "let", ⟨0, 3⟩, 0⟩, ⟨.word "x", ⟨4, 5⟩, 1⟩, ⟨.fixed .assign, ⟨13, 14⟩, 2⟩,
    ⟨⟨.string, "ü", none⟩, ⟨15, 19⟩, 3⟩, ⟨.fixed .semicolon, ⟨27, 28⟩, 4⟩, .endMark 28 5]

/-- A comment stands inside the range, and another one behind it. -/
theorem ofSource_extracts_wide :
    ofSource "let x/* é */= \"ü\" // →\n;" = .ok wideTokens ∧
      (∃ part inner, CutsOut "let x/* é */= \"ü\" // →\n;" wideTokens ⟨1, 4⟩ ⟨4, 19⟩ part inner) ∧
      ∃ program, Program.ofTokens wideTokens = .ok program ∧ program.body ≠ [] ∧
        ∃ range part inner,
          CutsOut "let x/* é */= \"ü\" // →\n;" wideTokens program.span range part inner := by
  have h : ofSource "let x/* é */= \"ü\" // →\n;" = .ok wideTokens := by decide +kernel
  obtain ⟨hranges, -, hprograms⟩ := ofSource_extracts h
  refine ⟨h, ?_, ?_⟩
  · obtain ⟨range, part, inner, hcut⟩ := hranges ⟨1, 4⟩ (by decide) (by decide)
    have hbytes : TokenRange.bytes ⟨1, 4⟩ wideTokens = .ok ⟨4, 19⟩ := by decide
    obtain rfl := Except.ok.inj (hbytes.symm.trans hcut.bytes)
    exact ⟨part, inner, hcut⟩
  · have hbody : (Program.ofTokens wideTokens).toOption.map (·.body.length) = some 1 := by
      decide +kernel
    cases hrun : Program.ofTokens wideTokens with
    | error failure =>
      rw [hrun] at hbody
      cases hbody
    | ok program =>
      rw [hrun] at hbody
      have hne : program.body ≠ [] := List.ne_nil_of_length_eq_add_one (Option.some.inj hbody)
      exact ⟨program, rfl, hne, (hprograms program hrun).2 hne⟩

end Token

end FrontEnd
