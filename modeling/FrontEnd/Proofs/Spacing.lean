import FrontEnd.Proofs.Lexing.Lossless
import FrontEnd.Proofs.Parallel.Program
import FrontEnd.Proofs.Safety
import FrontEnd.Proofs.Spans
import Mathlib.Data.List.Find

/-! Spacing does not matter. A token is read again from its own text wherever a blank or nothing
follows, so tokens that are laid out with other blanks between them are scanned as the same tokens.
What a list of tokens says depends on their lexemes alone. A text of one token is the text of a
lexeme that can be read at all. -/
namespace FrontEnd

namespace Lexical

open Text

/-- The text is empty or starts with a blank. -/
def Blank (text : List Char) : Prop :=
  ∀ c ∈ text.head?, isBlank c = true

variable {c : Char} {cs more : List Char}

theorem Blank.ends (h : Blank more) : Ends more := by
  intro c hc
  have hblank := h c hc
  have hpoint : c ≠ '.' := by
    rintro rfl
    exact absurd hblank (by decide)
  have hquote : c ≠ '"' := by
    rintro rfl
    exact absurd hblank (by decide)
  simp [separates, hblank, hpoint, hquote]

theorem Blank.head?_ne (h : Blank more) {d : Char} (hd : isBlank d = false) :
    more.head? ≠ some d := by
  intro hhead
  rw [h d hhead] at hd
  cases hd

/-- A text without blanks stands at the start of another one also before blanks, or not at all. -/
theorem Blank.isPrefixOf_append (h : Blank more) {front : List Char}
    (hfront : ∀ d ∈ front, isBlank d = false) :
    front.isPrefixOf (cs ++ more) = front.isPrefixOf cs := by
  induction front generalizing cs with
  | nil => simp
  | cons d front ih =>
    have hd := hfront d List.mem_cons_self
    have hrest := fun e he => hfront e (List.mem_cons_of_mem d he)
    cases cs with
    | cons e cs => simp only [List.cons_append, List.isPrefixOf_cons_cons, ih hrest]
    | nil =>
      -- the next character would be a blank
      cases more with
      | nil => simp
      | cons e more =>
        have hne : d ≠ e := by
          rintro rfl
          rw [h d rfl] at hd
          cases hd
        simp [List.isPrefixOf_cons_cons, hne]

/-- The text opens no blanks, word, number or literal, and no comment unless more follows. -/
def opensFixed : List Char → Bool
  | [] => false
  | c :: cs => !isBlank c && !opensWord c && !c.isDigit && c != '"' && c != '\'' &&
      (cs.isEmpty || (c != '/' && c != '.'))

theorem read_of_opensFixed (h : opensFixed (c :: cs) = true) (hmore : Blank more) :
    read c (cs ++ more) = fixedToken c (cs ++ more) := by
  simp only [opensFixed, Bool.and_eq_true, Bool.not_eq_true', bne_iff_ne, Bool.or_eq_true,
    List.isEmpty_iff] at h
  obtain ⟨⟨⟨⟨⟨hblank, hword⟩, hdigit⟩, hdouble⟩, hsingle⟩, hshort⟩ := h
  have hraw : c ≠ 'r' := by
    rintro rfl
    exact absurd hword (by decide)
  -- a comment or a number is opened by two characters, and the second is not there
  have hsecond : ∀ d, isBlank d = false → ¬ (c = '/' ∧ (cs ++ more).head? = some d) := by
    rintro d hd ⟨rfl, hhead⟩
    obtain rfl : cs = [] := hshort.resolve_right fun h => h.1 rfl
    exact hmore.head?_ne hd hhead
  have hnumber : opensNumber c (cs ++ more) = false := by
    by_cases hpoint : c = '.'
    · subst hpoint
      obtain rfl : cs = [] := hshort.resolve_right fun h => h.2 rfl
      cases more with
      | nil => rfl
      | cons d more => simp [opensNumber, isDigit_of_separates (hmore.ends d rfl)]
    · simp [opensNumber, hdigit, hpoint]
  unfold read
  rw [hblank, if_neg Bool.false_ne_true, if_neg (hsecond '/' (by decide)),
    if_neg (hsecond '*' (by decide)), if_neg hdouble, if_neg (fun h => hraw h.1), if_neg hsingle,
    hnumber, if_neg Bool.false_ne_true, hword, if_neg Bool.false_ne_true]

/-- Blanks part a fixed token from what follows it. -/
theorem fixedToken?_append (text : List Char) (hmore : Blank more) :
    fixedToken? (text ++ more) = fixedToken? text := by
  have hall : ∀ entry ∈ TokenKind.fixed, (entry.1.toList.all fun d => !isBlank d) = true := by
    decide
  unfold fixedToken?
  apply List.find?_congr
  intro entry hentry
  apply hmore.isPrefixOf_append
  intro d hd
  simpa using List.all_eq_true.mp (hall entry hentry) d hd

theorem reads_of_fixed {text : String} {kind : TokenKind} (h : (text, kind) ∈ TokenKind.fixed)
    (hmore : Blank more) : Reads ⟨kind, text, none⟩ more := by
  have hall : ∀ entry ∈ TokenKind.fixed, opensFixed entry.1.toList = true ∧
      fixedToken? entry.1.toList = some entry ∧
      (⟨entry.2, entry.1, none⟩ : Lexeme).text = entry.1 := by decide
  obtain ⟨hopens, hfixed, htext⟩ := hall _ h
  cases hcs : text.toList with
  | nil =>
    rw [hcs] at hopens
    cases hopens
  | cons c cs =>
    rw [hcs] at hopens hfixed
    refine ⟨c, cs, htext ▸ hcs, ?_⟩
    rw [read_of_opensFixed hopens hmore, fixedToken, ← List.cons_append,
      fixedToken?_append _ hmore, hfixed]
    simp only [Reading.plain, String.ofList_toList]
    rw [hcs]

theorem mem_fixed_of_read {l : Lexeme} {rest text : List Char}
    (h : read c rest = .ok ⟨text, some l⟩) (hkind : l.kind ∉ openKinds) :
    ∃ spelling, (spelling, l.kind) ∈ TokenKind.fixed ∧ l = ⟨l.kind, spelling, none⟩ := by
  cases rule_of_read h with
  | fixed text kind hfixed =>
    exact ⟨text, List.mem_of_find?_eq_some hfixed, by rw [String.ofList_toList]⟩
  | decimal isFloat run _ _ _ _ => cases isFloat <;> simp [openKinds] at hkind
  | _ => simp [openKinds] at hkind

/-- A lexeme that was read once is read wherever a blank or nothing follows. -/
theorem Reads.blank {l : Lexeme} {rest : List Char} (h : Reads l rest) (hmore : Blank more) :
    Reads l more := by
  obtain ⟨c, cs, -, hread⟩ := h
  by_cases hkind : l.kind ∈ openKinds
  · exact (read_written hread hkind).1 more hmore.ends
  · obtain ⟨spelling, hfixed, hl⟩ := mem_fixed_of_read hread hkind
    rw [hl]
    exact reads_of_fixed hfixed hmore

/-- A scan passes the blanks before a text that starts with none. -/
theorem scan_lead {lead rest : List Char} (hlead : ∀ c ∈ lead, isBlank c = true)
    (hrest : ∀ c ∈ rest.head?, isBlank c = false) {rounds : Nat}
    (hr : (lead ++ rest).length < rounds) (index offset : Nat) (position : Position) :
    ∃ rounds' offset' position', rest.length < rounds' ∧
      scan rounds index ⟨lead ++ rest, offset, position⟩ =
        scan rounds' index ⟨rest, offset', position'⟩ := by
  cases lead with
  | nil => exact ⟨rounds, offset, position, hr, rfl⟩
  | cons c lead =>
    obtain ⟨rounds, rfl⟩ := Nat.exists_eq_succ_of_ne_zero (Nat.ne_zero_of_lt hr)
    refine ⟨rounds, _, _, ?_, scan_trivia (read_blanks hlead hrest) rfl⟩
    rw [List.cons_append, List.length_cons, List.length_append] at hr
    omega

end Lexical

namespace Token

open Lexical Text

/-- The texts of the tokens with blanks around them: the lead in front of the first token, and
behind each token its own gap. -/
def spaced (lead : String) : List Token → List String → String
  | token :: tokens, gap :: gaps => lead ++ token.text ++ spaced gap tokens gaps
  | _, _ => lead

theorem blank_spaced {lead : String} (hlead : ∀ c ∈ lead.toList, isBlank c = true)
    {tokens : List Token} (h : lead ≠ "" ∨ tokens = []) (gaps : List String) :
    Blank (spaced lead tokens gaps).toList := by
  have hstart : ∃ rest, (spaced lead tokens gaps).toList = lead.toList ++ rest ∧
      (lead = "" → rest = []) := by
    unfold spaced
    split
    · rename_i token tokens gap gaps
      refine ⟨token.text.toList ++ (spaced gap tokens gaps).toList, by simp, ?_⟩
      intro hempty
      exact absurd (h.resolve_left fun hne => hne hempty) (List.cons_ne_nil _ _)
    · exact ⟨[], by simp, fun _ => rfl⟩
  obtain ⟨rest, htext, hrest⟩ := hstart
  intro c hc
  rw [htext] at hc
  cases hchars : lead.toList with
  | nil =>
    rw [hchars, hrest (String.toList_eq_nil_iff.mp hchars)] at hc
    cases hc
  | cons d ds =>
    rw [hchars] at hc hlead
    obtain rfl : d = c := Option.some.inj hc
    exact hlead d List.mem_cons_self

theorem ne_empty_of_dropLast_cons {gap : String} {gaps : List String}
    (h : ∀ w ∈ (gap :: gaps).dropLast, w ≠ "") :
    (gap ≠ "" ∨ gaps = []) ∧ ∀ w ∈ gaps.dropLast, w ≠ "" := by
  cases gaps with
  | nil => exact ⟨.inr rfl, by simp⟩
  | cons next gaps =>
    rw [List.dropLast_cons_cons] at h
    exact ⟨.inl (h gap List.mem_cons_self), fun w hw => h w (List.mem_cons_of_mem _ hw)⟩

/-- Tokens that were read are scanned again from their texts with other blanks between them. -/
theorem scan_spaced {tokens : List Token} :
    ∀ (lead : String) (gaps : List String) (index offset : Nat) (position : Position)
      {rounds : Nat}, gaps.length = tokens.length →
      (∀ token ∈ tokens, ∃ rest, Reads token.toLexeme rest) →
      (∀ w ∈ lead :: gaps, ∀ c ∈ w.toList, isBlank c = true) → (∀ w ∈ gaps.dropLast, w ≠ "") →
      (spaced lead tokens gaps).toList.length < rounds →
      ∃ tokens', scan rounds index ⟨(spaced lead tokens gaps).toList, offset, position⟩ =
          .ok tokens' ∧
        tokens'.map (·.toLexeme) = tokens.map (·.toLexeme) ++ [.endMark] := by
  induction tokens with
  | nil =>
    intro lead gaps index offset position rounds hlen hreads hblank hparted hr
    have htext : (spaced lead [] gaps).toList = lead.toList ++ [] := by simp [spaced]
    rw [htext] at hr ⊢
    obtain ⟨rounds', offset', position', hr', hscan⟩ :=
      scan_lead (hblank lead List.mem_cons_self) (by simp) hr index offset position
    obtain ⟨rounds', rfl⟩ := Nat.exists_eq_succ_of_ne_zero (Nat.ne_zero_of_lt hr')
    exact ⟨[.endMark offset' index], hscan, rfl⟩
  | cons token tokens ih =>
    -- the induction is on the tokens; the lead, the gaps and the cursor change with each
    intro lead gaps index offset position rounds hlen hreads hblank hparted hr
    obtain ⟨gap, gaps, rfl⟩ := List.exists_cons_of_length_eq_add_one hlen
    have hlen' : gaps.length = tokens.length := Nat.succ.inj hlen
    obtain ⟨hgap, hparted'⟩ := ne_empty_of_dropLast_cons hparted
    have hblank' : ∀ w ∈ gap :: gaps, ∀ c ∈ w.toList, isBlank c = true :=
      fun w hw => hblank w (List.mem_cons_of_mem _ hw)
    have htext : (spaced lead (token :: tokens) (gap :: gaps)).toList =
        lead.toList ++ (token.text.toList ++ (spaced gap tokens gaps).toList) := by
      simp [spaced]
    have hmore : Blank (spaced gap tokens gaps).toList := by
      apply blank_spaced (hblank' gap List.mem_cons_self)
      apply hgap.imp_right
      rintro rfl
      exact List.eq_nil_of_length_eq_zero hlen'.symm
    -- the blanks before the token, the token, and then the rest with its gap as the lead
    obtain ⟨rest, hreads₀⟩ := hreads token List.mem_cons_self
    obtain ⟨c, cs, htoken, hread⟩ := hreads₀.blank hmore
    rw [htext, htoken] at hr ⊢
    obtain ⟨rounds', offset', position', hr', hscan⟩ :=
      scan_lead (hblank lead List.mem_cons_self)
        (by rintro _ ⟨⟩; exact isBlank_of_read hread) hr index offset position
    obtain ⟨rounds', rfl⟩ := Nat.exists_eq_succ_of_ne_zero (Nat.ne_zero_of_lt hr')
    have hr'' : (spaced gap tokens gaps).toList.length < rounds' := by
      rw [List.length_append, List.length_cons] at hr'
      omega
    obtain ⟨tokens', hlater, hlexemes⟩ := ih gap gaps (index + 1)
      (offset' + byteLength (c :: cs)) (position'.after (c :: cs)) hlen'
      (fun t ht => hreads t (List.mem_cons_of_mem _ ht)) hblank' hparted' hr''
    rw [hscan, List.cons_append, scan_round hread rfl, hlater]
    exact ⟨_, rfl, by simp [hlexemes]⟩

end Token

namespace Lexical

/-- Scanned tokens are numbered from the first one on. -/
theorem Scanned.map_index {text : List Char} {tokens : List Token}
    (h : Scanned text 0 0 tokens) :
    tokens.map (fun token => (token.toLexeme, token.index)) =
      (tokens.map (·.toLexeme)).zipIdx := by
  apply List.ext_getElem?
  intro i
  cases htoken : tokens[i]? with
  | none => simp [htoken]
  | some token => simp [htoken, h.index_eq htoken]

/-- The last of scanned tokens is the end mark, and the others were read. -/
theorem Scanned.reads {text : List Char} {index : Nat} {tokens : List Token} {mark : Token}
    (h : Scanned text 0 index (tokens ++ [mark])) :
    mark.toLexeme = .endMark ∧ ∀ token ∈ tokens, ∃ rest, Reads token.toLexeme rest := by
  obtain ⟨front, hfront, hkinds⟩ := h.closed
  obtain ⟨rfl, rfl⟩ := List.append_singleton_inj.mp hfront
  refine ⟨rfl, ?_⟩
  intro token hmem
  rcases h.covers (List.mem_append_left _ hmem) with heq | ⟨-, hreads⟩
  · exact absurd (congrArg (·.kind) heq) (hkinds token hmem)
  · exact hreads

end Lexical

namespace TokenStream

/-- Lists of tokens that say the same are closed alike. -/
theorem map_close_congr {a b : List Token} (h : a.map (·.toLexeme) = b.map (·.toLexeme)) :
    (close a).map (·.toLexeme) = (close b).map (·.toLexeme) := by
  have hkind : ∀ tokens : List Token, tokens.getLast?.map (·.kind) =
      (tokens.map (·.toLexeme)).getLast?.map (·.kind) := by
    intro tokens
    rw [List.getLast?_map, Option.map_map]
    rfl
  unfold close
  rw [hkind a, hkind b, h]
  split
  · exact h
  · rw [List.map_append, List.map_append, h]
    rfl

end TokenStream

namespace Program

open Grammar Lexical Text

/-- Streams of tokens that say the same are linked from the start on. -/
theorem linked_of_map_eq {a b : List Token} (h : a.map (·.toLexeme) = b.map (·.toLexeme)) :
    Linked (.total 0 []) (.ofTokens b) (.ofTokens a) where
  lexeme i _ := by
    apply Option.some.inj
    have hlen := congrArg List.length (TokenStream.map_close_congr h)
    rw [List.length_map, List.length_map] at hlen
    show some ((TokenStream.ofTokens a).lexeme i) = some ((TokenStream.ofTokens b).lexeme i)
    rw [TokenStream.some_lexeme_ofTokens, TokenStream.some_lexeme_ofTokens,
      TokenStream.map_close_congr h, hlen]
  size := by
    have hlen := congrArg List.length (TokenStream.map_close_congr h)
    rw [List.length_map, List.length_map] at hlen
    show (TokenStream.ofTokens b).tokens.size ≤ (TokenStream.ofTokens a).tokens.size
    rw [TokenStream.size_ofTokens, TokenStream.size_ofTokens]
    omega
  pos := rfl
  errors := rfl
  depth := rfl
  valid := State.valid_ofTokens b
  valid' := State.valid_ofTokens a

/-- What a list of tokens says depends on their lexemes alone. -/
theorem ofTokens_congr {a b : List Token} (h : a.map (·.toLexeme) = b.map (·.toLexeme)) :
    ofTokens a = ofTokens b := by
  have hlink := linked_of_map_eq h
  have hr : (State.ofTokens b).remaining < (State.ofTokens a).remaining + 1 :=
    Nat.lt_succ_of_le hlink.remaining_le
  obtain ⟨hok, herror⟩ := ofOutcome_programFrom hlink hr #[]
  rw [ofTokens_eq a]
  cases hb : ofTokens b with
  | ok program =>
    have hshift : program.body.map (Stmt.shift 0) = program.body := by
      rw [funext Stmt.shift_zero]
      exact List.map_id' _
    rw [hok program hb, hshift]
    exact congrArg Except.ok (eq_ofBody_of_ofTokens hb).symm
  | error failure =>
    cases failure with
    | refused ds =>
      have hshift : ds.map (Diagnostic.shift 0) = ds := List.map_id' _
      rw [herror ds hb, hshift]
      rfl
    | fault f => exact absurd hb (ofTokens_ne_fault b f)

/-- Other blanks around its tokens change neither what a text is scanned as, nor the program that
it says, nor what is wrong with it. -/
theorem ofSource_spaced {source lead : String} {tokens : List Token} {mark : Token}
    {gaps : List String} (h : Token.ofSource source = .ok (tokens ++ [mark]))
    (hlen : gaps.length = tokens.length)
    (hblank : ∀ w ∈ lead :: gaps, ∀ c ∈ w.toList, isBlank c = true)
    (hparted : ∀ w ∈ gaps.dropLast, w ≠ "") :
    (∃ tokens', Token.ofSource (Token.spaced lead tokens gaps) = .ok tokens' ∧
      tokens'.map (fun token => (token.toLexeme, token.index)) =
        (tokens ++ [mark]).map fun token => (token.toLexeme, token.index)) ∧
    ofSource (Token.spaced lead tokens gaps) = ofSource source := by
  obtain ⟨hmark, hreads⟩ := Scanned.reads (Token.scanned_ofSource h)
  obtain ⟨tokens', hscan, hlexemes⟩ := Token.scan_spaced lead gaps 0 0 .start hlen hreads hblank
    hparted (Nat.lt_succ_self _)
  have hread : Token.ofSource (Token.spaced lead tokens gaps) = .ok tokens' := hscan
  have hsame : tokens'.map (·.toLexeme) = (tokens ++ [mark]).map (·.toLexeme) := by
    rw [hlexemes, List.map_append, List.map_singleton, hmark]
  constructor
  · refine ⟨tokens', hread, ?_⟩
    rw [(Token.scanned_ofSource hread).map_index, (Token.scanned_ofSource h).map_index, hsame]
  · simp only [ofSource, hread, h, ofTokens_congr hsame]

/-- A comment goes, and blanks part a point from a slash, a sign from its operand and a word from
a semicolon. -/
theorem ofSource_spaced_parted :
    ∃ tokens mark, Token.ofSource "let x=1.//\n/-2>>r;" = .ok (tokens ++ [mark]) ∧
      Token.spaced "\n" tokens [" ", " ", " ", "\u2003", " ", "\t", " ", " ", " ", ""] =
        "\nlet x = 1.\u2003/ -\t2 >> r ;" ∧
      ofSource "\nlet x = 1.\u2003/ -\t2 >> r ;" = ofSource "let x=1.//\n/-2>>r;" := by
  have hfacts : (Token.ofSource "let x=1.//\n/-2>>r;").toOption.map (fun tokens =>
      (tokens.length, Token.spaced "\n" tokens.dropLast
        [" ", " ", " ", "\u2003", " ", "\t", " ", " ", " ", ""])) =
        some (11, "\nlet x = 1.\u2003/ -\t2 >> r ;") := by
    decide +kernel
  cases hrun : Token.ofSource "let x=1.//\n/-2>>r;" with
  | error e =>
    rw [hrun] at hfacts
    cases hfacts
  | ok all =>
    rw [hrun] at hfacts
    obtain ⟨hlen, htext⟩ := Prod.mk.inj (Option.some.inj hfacts)
    obtain ⟨tokens, mark, rfl⟩ : ∃ tokens mark, all = tokens ++ [mark] :=
      ⟨_, _, (List.dropLast_append_getLast (List.ne_nil_of_length_eq_add_one hlen)).symm⟩
    rw [List.dropLast_concat] at htext
    have hcount : [" ", " ", " ", "\u2003", " ", "\t", " ", " ", " ", ""].length =
        tokens.length := by
      simpa using (Nat.succ.inj (List.length_append.symm.trans hlen)).symm
    have hblank : ∀ w ∈ ["\n", " ", " ", " ", "\u2003", " ", "\t", " ", " ", " ", ""],
        w.toList.all isBlank = true := by
      decide
    refine ⟨tokens, mark, rfl, htext, ?_⟩
    rw [← htext]
    exact (ofSource_spaced hrun hcount (fun w hw => List.all_eq_true.mp (hblank w hw))
      (by decide)).2

end Program

namespace Token

open Lexical Text

/-- The text has one token in front of its end mark, and this is what the token says. -/
def Alone (source : String) (l : Lexeme) : Prop :=
  ∃ tokens, ofSource source = .ok tokens ∧ tokens.map (·.toLexeme) = [l, .endMark]

/-- The text of a lexeme has that one token if the lexeme can be read before any text at all. -/
theorem alone_text_iff {l : Lexeme} : Alone l.text l ↔ ∃ rest, Reads l rest := by
  constructor
  · rintro ⟨tokens, hsource, hlexemes⟩
    obtain ⟨token, tokens, rfl, rfl, hmark⟩ := List.map_eq_cons_iff.mp hlexemes
    obtain ⟨mark, rfl, -⟩ := List.map_eq_singleton_iff.mp hmark
    have hscanned : Scanned _ 0 0 ([token] ++ [mark]) := scanned_ofSource hsource
    exact hscanned.reads.2 token List.mem_cons_self
  · rintro ⟨rest, hreads⟩
    have hlegible : Legible [.lexeme l] := ⟨hreads.blank (by simp [Blank]), trivial⟩
    have hchars : Piece.chars [.lexeme l] = l.text.toList := List.append_nil _
    obtain ⟨tokens, hscan, hlexemes⟩ :=
      scan_of_legible hlegible 0 0 .start (Nat.lt_succ_self _)
    rw [hchars] at hscan
    exact ⟨tokens, hscan, hlexemes⟩

end Token

end FrontEnd
