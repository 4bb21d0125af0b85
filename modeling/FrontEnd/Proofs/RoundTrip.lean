import FrontEnd.Proofs.Acceptance.Program
import FrontEnd.Proofs.Printing.Layout

/-! Printing and reading again. A program that was read is printed as a text with room enough
between its lexemes; the scanner finds those lexemes again, the grammar finds the tree in them, and
what the grammar finds is what is read. Only the spans differ. The one way to fail is that
parentheses which the printer adds nest deeper than reading may go. -/
namespace FrontEnd

namespace Grammar

open Lexical Piece

variable {T : Nat → Lexeme} {i : Nat} {ps : List Piece}

/-- Pieces stand where their lexemes do. -/
theorem piecesAt_of_lexemes (h : ∀ n l, (lexemes ps)[n]? = some l → T (i + n) = l) :
    PiecesAt T i (i + (lexemes ps).length) ps := by
  induction ps generalizing i with
  | nil => rfl
  | cons p ps ih =>
    cases p with
    | lexeme l =>
      have hrest : PiecesAt T (i + 1) (i + 1 + (lexemes ps).length) ps := by
        apply ih
        intro n l' hl'
        rw [Nat.add_right_comm]
        exact h (n + 1) l' hl'
      rw [lexemes, List.length_cons, Nat.add_comm (lexemes ps).length, ← Nat.add_assoc]
      exact ⟨h 0 l rfl, hrest⟩
    | blank text => exact ih h

/-- The words and literals of a scanned stream can be written. -/
theorem supplies_ofSource {source : String} {tokens : List Token}
    (h : Token.ofSource source = .ok tokens) :
    Supplies Written (TokenStream.ofTokens tokens).lexeme := by
  have hplace : ∀ i, ((TokenStream.ofTokens tokens).lexeme i).kind ∈ openKinds →
      Written ((TokenStream.ofTokens tokens).lexeme i) ∧
        ((TokenStream.ofTokens tokens).lexeme i =
            .word ((TokenStream.ofTokens tokens).lexeme i).value ∨
          ∃ kind : LiteralKind, (TokenStream.ofTokens tokens).lexeme i =
            kind.lexeme ((TokenStream.ofTokens tokens).lexeme i).value) := by
    intro i hkind
    rcases TokenStream.lexeme_ofTokens_or tokens i with ⟨token, hmem, hi⟩ | hi
    · rw [hi] at hkind ⊢
      exact written_of_scan h token hmem hkind
    · rw [hi] at hkind
      exact absurd hkind (by decide)
  constructor
  · intro i hword
    obtain ⟨hwritten, hl | ⟨kind, hl⟩⟩ := hplace i (by rw [hword]; decide)
    · rwa [← hl]
    · rw [hl] at hword
      cases kind <;> cases hword
  · intro i kind hliteral
    have hkind : ((TokenStream.ofTokens tokens).lexeme i).kind ∈ openKinds := by
      unfold LiteralKind.ofLexeme? at hliteral
      split at hliteral <;> simp_all [openKinds]
    obtain ⟨hwritten, hl | ⟨kind', hl⟩⟩ := hplace i hkind
    · rw [hl] at hliteral
      cases hliteral
    · rw [hl, LiteralKind.ofLexeme?_lexeme] at hliteral
      obtain rfl : kind' = kind := Option.some.inj hliteral
      rwa [← hl]

/-- A printed program is scanned, and its pieces stand before the end mark of the tokens. -/
theorem ofSource_of_legible (h : Legible ps) :
    ∃ tokens, Token.ofSource (render ps) = .ok tokens ∧
      PiecesAt (TokenStream.ofTokens tokens).lexeme 0 (lexemes ps).length ps ∧
      ((TokenStream.ofTokens tokens).lexeme (lexemes ps).length).kind = .endMark := by
  obtain ⟨tokens, hscan, hlexemes⟩ := scan_of_legible h 0 0 .start (Nat.lt_succ_self _)
  have hplace : ∀ n l, (lexemes ps ++ [.endMark])[n]? = some l →
      (TokenStream.ofTokens tokens).lexeme n = l := by
    intro n l hl
    rw [← hlexemes, List.getElem?_map] at hl
    obtain ⟨token, htoken, rfl⟩ := Option.map_eq_some_iff.mp hl
    exact TokenStream.lexeme_ofTokens htoken
  refine ⟨tokens, ?_, ?_, ?_⟩
  · rw [← hscan, Token.ofSource, TextCursor.ofSource, toList_render]
  · rw [← Nat.zero_add (lexemes ps).length]
    apply piecesAt_of_lexemes
    intro n l hl
    rw [Nat.zero_add]
    apply hplace
    rw [List.getElem?_append_left (List.getElem?_eq_some_iff.mp hl).1]
    exact hl
  · rw [hplace (lexemes ps).length .endMark (by simp)]
    rfl

end Grammar

namespace Program

open Grammar Lexical

variable {source : String} {program : Program}

/-- A program comes from the tokens of its text. -/
theorem tokens_of_ofSource (h : ofSource source = .ok program) :
    ∃ tokens, Token.ofSource source = .ok tokens ∧ ofTokens tokens = .ok program := by
  unfold ofSource at h
  split at h
  · cases h
  · cases h
  · rename_i tokens htokens
    split at h
    · rename_i program' hprogram
      cases h
      exact ⟨tokens, htokens, hprogram⟩
    · cases h
    · cases h

/-- The statements of a program that was read are proper, with lexemes that can be written. -/
theorem proper_of_ofSource (h : ofSource source = .ok program)
    {N : Expr → Prop} (hfit : TailsFit N program.blocks) :
    ∀ s ∈ program.body, ProperStmt Written N s := by
  obtain ⟨tokens, htokens, hprogram⟩ := tokens_of_ofSource h
  exact (programAt_of_ofTokens hprogram).proper (supplies_ofSource htokens) hfit

/-- The text that is printed for a program is read as the same program with other spans, and is
printed again as it is, unless reading it takes more levels than there are. -/
theorem ofSource_print (h : ofSource source = .ok program)
    (hfit : ∀ b ∈ program.blocks, ∀ value ∈ b.tail, value.isNamedFunction = false) :
    (∃ ds, ofSource program.print = .error (.refused (.grammatical ds)) ∧
        ∃ d ∈ ds, d.cause = .nestingTooDeep maxDepth) ∨
      ∃ program', ofSource program.print = .ok program' ∧
        program'.erase = program.erase ∧ program'.print = program.print := by
  have hproper := proper_of_ofSource h hfit
  obtain ⟨tokens, htokens, hpieces, hend⟩ := ofSource_of_legible (legible_program hproper)
  obtain ⟨body, hbody, herase⟩ :=
    programAt_of_pieces hproper (piecesAt_intercalate_blank.mp hpieces) hend
  have hsame : (ofBody body).erase = program.erase := by
    rw [erase, erase, body_ofBody, herase]
  rcases ofTokens_of_programAt hbody with hread | ⟨ds, hread, hdeep⟩
  · right
    exact ⟨ofBody body, by simp only [ofSource, print, htokens, hread], hsame,
      print_eq_of_erase_eq hsame⟩
  · left
    exact ⟨ds, by simp only [ofSource, print, htokens, hread], hdeep⟩

/-- Of the parentheses in a text those stay that the tree needs. -/
theorem ofSource_print_parenthesized :
    ∃ program program', ofSource "let x=(1+2)*-{(f(3))};" = .ok program ∧
      ofSource "let x = (1 + 2) * -{ f(3) };" = .ok program' ∧
      program'.erase = program.erase := by
  have hfacts : (ofSource "let x=(1+2)*-{(f(3))};").toOption.map (fun program =>
      (program.print, program.blocks.all fun b => b.tail.all fun e => !e.isNamedFunction)) =
        some ("let x = (1 + 2) * -{ f(3) };", true) := by
    decide +kernel
  have hread : (ofSource "let x = (1 + 2) * -{ f(3) };").isOk = true := by
    decide +kernel
  cases hrun : ofSource "let x=(1+2)*-{(f(3))};" with
  | error e =>
    rw [hrun] at hfacts
    cases hfacts
  | ok program =>
    rw [hrun] at hfacts
    obtain ⟨hprint, htails⟩ := Prod.mk.inj (Option.some.inj hfacts)
    have hfit : ∀ b ∈ program.blocks, ∀ value ∈ b.tail, value.isNamedFunction = false := by
      intro b hb value hvalue
      have hall := List.all_eq_true.mp htails b hb
      rw [Option.mem_def.mp hvalue] at hall
      simpa using hall
    rcases ofSource_print hrun hfit with ⟨ds, herror, -⟩ | ⟨program', hsame, herase, -⟩
    · rw [hprint] at herror
      rw [herror] at hread
      cases hread
    · rw [hprint] at hsame
      exact ⟨program, program', rfl, hsame, herase⟩

end Program

end FrontEnd
