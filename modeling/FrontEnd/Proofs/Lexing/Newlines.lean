import FrontEnd.Proofs.Lexing.Refusal
import FrontEnd.Proofs.Lexing.Runs

/-! Texts that are joined by a line feed are scanned one by one. The last reading of the first text
stops at the line feed as it stopped at the end, and the blanks around it become one reading, so
that the tokens and the error of the second text are those that it has alone, further on. -/
namespace FrontEnd

namespace Position

/-- Behind a line feed the lines are counted on, and the columns anew. -/
theorem after_newline (a b : List Char) :
    start.after (a ++ '\n' :: b) =
      ⟨(start.after b).line + (1 + a.count '\n'), (start.after b).column⟩ := by
  have hcolumn : ((a ++ '\n' :: b).reverse.takeWhile (· != '\n')).length =
      (b.reverse.takeWhile (· != '\n')).length := by
    rw [List.reverse_append, List.reverse_cons, List.append_assoc, List.singleton_append,
      List.takeWhile_append]
    by_cases hline : (b.reverse.takeWhile (· != '\n')).length = b.reverse.length
    · rw [if_pos hline, hline]
      simp
    · rw [if_neg hline]
  have hlines : 1 + (a.count '\n' + (b.count '\n' + 1)) =
      1 + b.count '\n' + (1 + a.count '\n') := by
    omega
  rw [after_start, after_start, hcolumn, List.count_append, List.count_cons_self, hlines]

end Position

namespace Lexical

open Text Reading

variable {a b text back : List Char} {readings front : List Reading}

/-- Blanks in front of a text join those that it starts with. -/
theorem Run.behind_blanks {lead : List Char} (h : Run text readings back)
    (hlead : ∀ c ∈ lead, isBlank c = true) (hback : ∀ c ∈ back.head?, isBlank c = false) :
    ∃ joined, Run (lead ++ text) joined back ∧ ∀ offset index,
      tokens offset index joined = tokens (offset + byteLength lead) index readings := by
  cases lead with
  | nil => exact ⟨readings, h, fun _ _ => rfl⟩
  | cons d ds =>
    cases h with
    | nil =>
      exact ⟨[.trivia (d :: ds)], .cons (read_blanks hlead hback) rfl (.nil _), fun _ _ => rfl⟩
    | @cons c cs more _ reading readings hread htext hrest =>
      -- blanks that the text starts with are read together with those in front
      by_cases hc : isBlank c = true
      · obtain ⟨hlexeme, hblanks, hmore⟩ := blanks_of_read hread htext hc
        refine ⟨.trivia (d :: (ds ++ c :: cs)) :: readings, ?_, ?_⟩
        · have hjoined : ∀ e ∈ d :: (ds ++ c :: cs), isBlank e = true := by
            rw [← List.cons_append]
            exact List.forall_mem_append.mpr ⟨hlead, hblanks⟩
          have hcut : d :: ds ++ c :: (cs ++ more) = d :: (ds ++ c :: cs ++ more) := by simp
          rw [hcut]
          exact .cons (read_blanks hjoined hmore) rfl hrest
        · intro offset index
          simp [tokens, Reading.trivia, hlexeme, htext, Nat.add_assoc]
      · refine ⟨.trivia (d :: ds) :: reading :: readings, ?_, ?_⟩
        · have hstop : ∀ e ∈ (c :: (cs ++ more)).head?, isBlank e = false := by
            rintro _ ⟨⟩
            exact Bool.eq_false_iff.mpr hc
          exact .cons (read_blanks hlead hstop) rfl (.cons hread htext hrest)
        · intro offset index
          simp [tokens, Reading.trivia]

/-- A text that is read to its end is read in the same way before a line feed, and so is the text
behind that. -/
theorem Run.newline (ha : Run a front []) (hb : Run b readings back)
    (hback : ∀ c ∈ back.head?, isBlank c = false) :
    ∃ joined, Run (a ++ '\n' :: b) joined back ∧ ∀ offset index,
      tokens offset index joined = tokens offset index front ++
        tokens (offset + (byteLength a + 1)) (index + (lexemes front).length) readings := by
  have hline : ∀ c ∈ ['\n'], isBlank c = true := List.forall_mem_singleton.mpr (by decide)
  generalize hnil : [] = rest at ha
  induction ha with
  | nil =>
    obtain ⟨joined, hjoined, htokens⟩ := hb.behind_blanks hline hback
    subst hnil
    exact ⟨joined, hjoined, htokens⟩
  | @cons c cs more rest reading front hread htext hrest ih =>
    -- only blanks at the very end run on over the line feed
    by_cases hc : isBlank c = true ∧ more = []
    · obtain ⟨hblank, rfl⟩ := hc
      obtain ⟨hlexeme, hblanks, -⟩ := blanks_of_read hread htext hblank
      cases hrest
      have hlead : ∀ d ∈ c :: cs ++ ['\n'], isBlank d = true :=
        List.forall_mem_append.mpr ⟨hblanks, hline⟩
      obtain ⟨joined, hjoined, htokens⟩ := hb.behind_blanks hlead hback
      refine ⟨joined, ?_, ?_⟩
      · simpa using hjoined
      · intro offset index
        rw [htokens, byteLength_append, show byteLength ['\n'] = 1 from rfl]
        simp [tokens, hlexeme]
    · obtain ⟨joined, hjoined, htokens⟩ := ih hnil
      have hreplaces : Replaces c more (more ++ '\n' :: b) := by
        intro d hd
        cases more with
        | nil =>
          obtain rfl : '\n' = d := Option.some.inj hd
          exact .inr ⟨rfl, by simpa using hc⟩
        | cons e more => exact .inl hd
      refine ⟨reading :: joined, ?_, ?_⟩
      · have hread' := read_replace hread htext hreplaces
        rw [List.cons_append, List.append_assoc]
        exact .cons hread' htext hjoined
      · intro offset index
        simp [tokens, htokens, htext, Nat.add_assoc]

/-- Nothing is refused at a blank. -/
theorem Refuses.not_blank {cause : LexicalCause} (h : Refuses text cause) :
    ∀ c ∈ text.head?, isBlank c = false := by
  obtain ⟨d, rest, rfl, hread⟩ := h
  rintro c hc
  obtain rfl : d = c := Option.some.inj hc
  refine Bool.eq_false_iff.mpr fun hblank => ?_
  unfold read at hread
  rw [if_pos hblank] at hread
  cases hread

end Lexical

namespace Token

open Lexical Text

variable {a b : String} {tokens : List Token}

/-- Two texts that are scanned one by one are scanned together, where the second starts a new
line. -/
theorem ofSource_newline_ok {tokens' : List Token} (ha : ofSource a = .ok tokens)
    (hb : ofSource b = .ok tokens') :
    ofSource (a ++ "\n" ++ b) =
      .ok (tokens.dropLast ++
        tokens'.map (shift (byteLength a.toList + 1) (tokens.length - 1))) := by
  obtain ⟨front, hfront, rfl⟩ := exists_run_of_ok ha
  obtain ⟨readings, hreadings, rfl⟩ := exists_run_of_ok hb
  obtain ⟨joined, hjoined, htokens⟩ := hfront.newline hreadings (by simp)
  have htext : (a ++ "\n" ++ b).toList = a.toList ++ '\n' :: b.toList := by simp
  rw [← htext] at hjoined
  -- the tokens of the joined readings, their number, and the number of bytes behind them
  have hshift : Reading.tokens 0 0 joined = Reading.tokens 0 0 front ++
      (Reading.tokens 0 0 readings).map
        (shift (byteLength a.toList + 1) (Reading.lexemes front).length) := by
    rw [htokens, Reading.tokens_add]
  have hlength : (Reading.lexemes joined).length =
      (Reading.lexemes readings).length + (Reading.lexemes front).length := by
    rw [← Reading.length_tokens 0 0 joined, hshift, List.length_append, List.length_map,
      Reading.length_tokens, Reading.length_tokens, Nat.add_comm]
  have hbytes : byteLength (a ++ "\n" ++ b).toList =
      byteLength b.toList + (byteLength a.toList + 1) := by
    rw [htext, byteLength_append, byteLength_cons, show '\n'.utf8Size = 1 from rfl]
    omega
  rw [ofSource_of_run hjoined, hshift, hlength, hbytes, List.dropLast_concat, List.length_append,
    List.length_singleton, Nat.add_sub_cancel, Reading.length_tokens, List.map_append,
    List.append_assoc]
  rfl

/-- The error of the second text is that of both, so many lines further on. -/
theorem ofSource_newline_error {failure : Failure LexicalError} (ha : ofSource a = .ok tokens)
    (hb : ofSource b = .error failure) : ∃ e : LexicalError, failure = .refused e ∧
      ofSource (a ++ "\n" ++ b) = .error (.refused
        ⟨e.cause, ⟨e.position.line + (1 + a.toList.count '\n'), e.position.column⟩⟩) := by
  obtain ⟨front, hfront, rfl⟩ := exists_run_of_ok ha
  obtain ⟨readings, back, cause, hreadings, hback, rfl⟩ := exists_run_of_error hb
  obtain ⟨joined, hjoined, -⟩ := hfront.newline hreadings hback.not_blank
  have hchars : Reading.chars joined = a.toList ++ '\n' :: Reading.chars readings := by
    have hcut := hjoined.text_eq
    rw [hreadings.text_eq, ← List.cons_append, ← List.append_assoc] at hcut
    exact (List.append_cancel_right hcut).symm
  have htext : (a ++ "\n" ++ b).toList = a.toList ++ '\n' :: b.toList := by simp
  rw [← htext] at hjoined
  refine ⟨_, rfl, ?_⟩
  rw [ofSource_of_refuses hjoined hback, hchars, Position.after_newline]

/-- Behind a text that has tokens, a new line is scanned as if nothing stood before it. Its tokens
follow those of the text in front, at their bytes and indices behind the line feed; its error is
the same in the same column, so many lines further on. -/
theorem ofSource_append_newline (ha : ofSource a = .ok tokens) :
    (∀ tokens', ofSource b = .ok tokens' →
      ofSource (a ++ "\n" ++ b) =
        .ok (tokens.dropLast ++
          tokens'.map (shift (byteLength a.toList + 1) (tokens.length - 1)))) ∧
    ∀ failure, ofSource b = .error failure → ∃ e : LexicalError, failure = .refused e ∧
      ofSource (a ++ "\n" ++ b) = .error (.refused
        ⟨e.cause, ⟨e.position.line + (1 + a.toList.count '\n'), e.position.column⟩⟩) :=
  ⟨fun _ => ofSource_newline_ok ha, fun _ => ofSource_newline_error ha⟩

/-- The first text ends in a comment. The second one is a number behind blanks, or an escape that
has too few digits, in a line of its own. -/
theorem ofSource_append_newline_comment :
    ofSource "x\n1.\t// → " = .ok [⟨.word "x", ⟨0, 1⟩, 0⟩,
      ⟨⟨.float, "1.", some .decimal⟩, ⟨2, 4⟩, 1⟩, .endMark 12 2] ∧
    ofSource ("x\n1.\t// → " ++ "\n" ++ " \r.5") = .ok [⟨.word "x", ⟨0, 1⟩, 0⟩,
      ⟨⟨.float, "1.", some .decimal⟩, ⟨2, 4⟩, 1⟩, ⟨⟨.float, ".5", some .decimal⟩, ⟨15, 17⟩, 2⟩,
      .endMark 17 3] ∧
    ofSource ("x\n1.\t// → " ++ "\n" ++ " \n '\\u12'") =
      .error (.refused ⟨.invalidUnicodeEscape "\\u12", ⟨4, 2⟩⟩) := by
  have ha : ofSource "x\n1.\t// → " = .ok [⟨.word "x", ⟨0, 1⟩, 0⟩,
      ⟨⟨.float, "1.", some .decimal⟩, ⟨2, 4⟩, 1⟩, .endMark 12 2] := by
    decide +kernel
  have hok : ofSource " \r.5" =
      .ok [⟨⟨.float, ".5", some .decimal⟩, ⟨2, 4⟩, 0⟩, .endMark 4 1] := by
    decide +kernel
  have herror : ofSource " \n '\\u12'" =
      .error (.refused ⟨.invalidUnicodeEscape "\\u12", ⟨2, 2⟩⟩) := by
    decide +kernel
  refine ⟨ha, ?_, ?_⟩
  · rw [(ofSource_append_newline ha).1 _ hok]
    decide +kernel
  · obtain ⟨e, he, hsource⟩ := (ofSource_append_newline ha).2 _ herror
    cases he
    rw [hsource]
    decide +kernel

end Token

end FrontEnd
