import FrontEnd.Proofs.Lexing.Scan
import FrontEnd.Proofs.Printing.Statement

/-! Printed trees are legible: no two lexemes of theirs are glued together. Words and numbers are
followed by a blank or by punctuation, and what stands right behind a sign starts an operand. The
statements are about pieces before any others that end them, so that they fit together from right
to left. -/
namespace FrontEnd.Grammar

open Piece Lexical FrontEnd.Tree

/-- The pieces start with a lexeme and can be laid out before any that end them. -/
structure Lays (ps : List Piece) : Prop where
  starts : ∃ l qs, ps = .lexeme l :: qs
  legible : ∀ {qs : List Piece}, Legible qs → Ends (chars qs) → Legible (ps ++ qs)

variable {ps qs : List Piece} {l : Lexeme}

theorem Lays.starts_append (h : Lays ps) : ∃ l rest, ps ++ qs = .lexeme l :: rest := by
  obtain ⟨l, rest, rfl⟩ := h.starts
  exact ⟨l, rest ++ qs, rfl⟩

theorem legible_space (h : Legible ps) (hstarts : ∃ l rest, ps = .lexeme l :: rest) :
    Legible (space :: ps) :=
  ⟨⟨' ', rfl, by decide⟩, hstarts, h⟩

theorem legible_newline (h : Legible ps) (hstarts : ∃ l rest, ps = .lexeme l :: rest) :
    Legible (newline :: ps) :=
  ⟨⟨'\n', rfl, by decide⟩, hstarts, h⟩

theorem ends_space : Ends (chars (space :: ps)) :=
  ends_cons (by decide)

theorem ends_newline : Ends (chars (newline :: ps)) :=
  ends_cons (by decide)

/-- The punctuation that words and numbers are followed by. -/
theorem ends_fixed {kind : TokenKind}
    (h : kind ∈ [TokenKind.openParen, .closeParen, .closeCurly, .comma, .semicolon,
      .doubleColon]) : Ends (chars (fixed kind :: ps)) := by
  simp only [List.mem_cons, List.not_mem_nil, or_false] at h
  rcases h with rfl | rfl | rfl | rfl | rfl | rfl <;> exact ends_cons (by decide)

theorem legible_fixed (kind : TokenKind) (hkind : kind ∈ closedKinds) (h : Legible ps) :
    Legible (fixed kind :: ps) :=
  ⟨reads_fixed hkind _, h⟩

theorem legible_written (hl : Written l) (h : Legible ps) (hends : Ends (chars ps)) :
    Legible (.lexeme l :: ps) :=
  ⟨hl _ hends, h⟩

namespace Lays

theorem written (hl : Written l) : Lays [.lexeme l] :=
  ⟨⟨l, [], rfl⟩, fun h hends => legible_written hl h hends⟩

/-- Pieces in parentheses, or none. -/
theorem parenthesized
    (h : ∀ {qs : List Piece}, Legible qs → Ends (chars qs) → Legible (ps ++ qs)) :
    Lays (Piece.parenthesized ps) := by
  refine ⟨⟨_, _, rfl⟩, fun {qs} hqs _ => ?_⟩
  have hclose : Legible (fixed .closeParen :: qs) := legible_fixed _ (by decide) hqs
  have hinner := legible_fixed .openParen (by decide) (h hclose (ends_fixed (by decide)))
  simpa [Piece.parenthesized] using hinner

theorem operand {needed : Bool} (h : Lays ps) : Lays (Piece.operand needed ps) := by
  cases needed with
  | true => exact .parenthesized h.legible
  | false => exact h

/-- A blank between two of them. -/
theorem space (hps : Lays ps) (hqs : Lays qs) : Lays (ps ++ Piece.space :: qs) := by
  refine ⟨hps.starts_append, fun {rs} hrs hends => ?_⟩
  rw [List.append_assoc]
  exact hps.legible (legible_space (hqs.legible hrs hends) hqs.starts_append) ends_space

/-- The second one directly behind the first. -/
theorem append (hps : Lays ps) (hqs : Lays qs)
    (hends : ∀ {rs : List Piece}, Ends (chars (qs ++ rs))) : Lays (ps ++ qs) := by
  refine ⟨hps.starts_append, fun {rs} hrs hends' => ?_⟩
  rw [List.append_assoc]
  exact hps.legible (hqs.legible hrs hends') hends

/-- A keyword and a blank before them. -/
theorem keyword (keyword : Keyword) (h : Lays ps) :
    Lays (word keyword.text :: Piece.space :: ps) :=
  Lays.space (.written (written_keyword keyword)) h

/-- A statement ends with its semicolon. -/
theorem semicolon (h : Lays ps) : Lays (ps ++ [fixed .semicolon]) :=
  h.append ⟨⟨_, _, rfl⟩, fun hqs _ => legible_fixed _ (by decide) hqs⟩ (ends_fixed (by decide))

end Lays

theorem legible_commaSeparated {parts : List (List Piece)} (h : ∀ p ∈ parts, Lays p) :
    ∀ {qs : List Piece}, Legible qs → Ends (chars qs) → Legible (commaSeparated parts ++ qs) := by
  intro qs hqs hends
  induction parts with
  | nil => exact hqs
  | cons p parts ih =>
    have hp := h p List.mem_cons_self
    cases parts with
    | nil => simpa [commaSeparated] using hp.legible hqs hends
    | cons q parts =>
      have hrest := ih fun p hp => h p (List.mem_cons_of_mem _ hp)
      have hq := h q (by simp)
      have hsplit : commaSeparated (p :: q :: parts) ++ qs =
          p ++ fixed .comma :: space :: (commaSeparated (q :: parts) ++ qs) := by
        simp [commaSeparated, List.intercalate]
      have hstarts : ∃ l rest, commaSeparated (q :: parts) ++ qs = .lexeme l :: rest := by
        obtain ⟨l, rest, rfl⟩ := hq.starts
        cases parts with
        | nil => exact ⟨l, rest ++ qs, by simp [commaSeparated]⟩
        | cons r parts => exact ⟨l, _, by simp [commaSeparated, List.intercalate]; rfl⟩
      rw [hsplit]
      exact hp.legible (legible_fixed _ (by decide) (legible_space hrest hstarts))
        (ends_fixed (by decide))

/-- Lists with a blank between their parts. -/
theorem lays_intercalate {blank : Piece} {parts : List (List Piece)}
    (hblank : ∀ {ps : List Piece}, Legible ps → (∃ l rest, ps = .lexeme l :: rest) →
      Legible (blank :: ps)) (hends : ∀ {ps : List Piece}, Ends (chars (blank :: ps)))
    (h : ∀ p ∈ parts, Lays p) (hne : parts ≠ []) : Lays ([blank].intercalate parts) := by
  induction parts with
  | nil => exact absurd rfl hne
  | cons p parts ih =>
    have hp := h p List.mem_cons_self
    cases parts with
    | nil => simpa [List.intercalate] using hp
    | cons q parts =>
      have hrest := ih (fun p hp => h p (List.mem_cons_of_mem _ hp)) (List.cons_ne_nil _ _)
      have hsplit : [blank].intercalate (p :: q :: parts) =
          p ++ blank :: [blank].intercalate (q :: parts) := by
        simp [List.intercalate]
      rw [hsplit]
      refine ⟨hp.starts_append, fun {rs} hrs hends' => ?_⟩
      rw [List.append_assoc]
      exact hp.legible (hblank (hrest.legible hrs hends') hrest.starts_append) hends

variable {N : Expr → Prop}

theorem ProperName.lays {x : Ident} (hx : ProperName Written x) : Lays [x.piece] :=
  .written hx.written

theorem lays_params {params : List Ident} (h : ∀ x ∈ params, ProperName Written x) :
    Lays (Ident.listPieces params) := by
  refine .parenthesized (legible_commaSeparated fun p hp => ?_)
  obtain ⟨x, hx, rfl⟩ := List.mem_map.mp hp
  exact (h x hx).lays

/-- A header and the body behind it. -/
theorem lays_header {kind : FunctionKind} {name : Option Ident} {params : List Ident}
    (hname : ∀ x ∈ name, ProperName Written x) (hparams : ∀ x ∈ params, ProperName Written x)
    (hbody : Lays ps) : Lays (Expr.headerPieces kind name params ++ ps) := by
  have harrow : Lays (fixed .arrow :: space :: ps) := by
    refine ⟨⟨_, _, rfl⟩, fun {qs} hqs hends => ?_⟩
    exact legible_fixed _ (by decide)
      (legible_space (hbody.legible hqs hends) hbody.starts_append)
  have hrest : Lays (Ident.listPieces params ++ space :: fixed .arrow :: space :: ps) :=
    (lays_params hparams).space harrow
  have hopen : ∀ {rs : List Piece}, Ends (chars
      (Ident.listPieces params ++ space :: fixed .arrow :: space :: ps ++ rs)) :=
    ends_fixed (by decide)
  cases name with
  | none =>
    have hall := (Lays.written (written_keyword kind.keyword)).append hrest hopen
    simpa [Expr.headerPieces, Piece.word] using hall
  | some x =>
    have hx := (hname x rfl).lays
    have hall := Lays.keyword kind.keyword (hx.append hrest hopen)
    simpa [Expr.headerPieces] using hall

theorem entryPieces_eq_map (entries : List Path) :
    Path.entryPieces entries = entries.map Path.pieces := by
  induction entries with
  | nil => rfl
  | cons entry entries ih => rw [Path.entryPieces, ih, List.map_cons]

theorem lays_entries {entries : List Path} (h : ∀ entry ∈ entries, Lays entry.pieces) :
    ∀ p ∈ Path.entryPieces entries, Lays p := by
  intro p hp
  rw [entryPieces_eq_map] at hp
  obtain ⟨entry, hentry, rfl⟩ := List.mem_map.mp hp
  exact h entry hentry

theorem exprListPieces_eq_map (es : List Expr) : exprListPieces es = es.map exprPieces := by
  induction es with
  | nil => rfl
  | cons e es ih => rw [exprListPieces, ih, List.map_cons]

theorem stmtListPieces_eq_map (stmts : List Stmt) :
    stmtListPieces stmts = stmts.map stmtPieces := by
  induction stmts with
  | nil => rfl
  | cons s stmts ih => rw [stmtListPieces, ih, List.map_cons]

/-- An alias, or nothing, before pieces that end it. -/
theorem legible_alias {place : PathPlace} {aliasable : Bool} {localName : Option Ident}
    (h : ProperAlias Written place aliasable localName) (hqs : Legible qs)
    (hends : Ends (chars qs)) :
    Legible (Path.aliasPieces localName ++ qs) ∧
      Ends (chars (Path.aliasPieces localName ++ qs)) := by
  cases localName with
  | none => exact ⟨hqs, hends⟩
  | some x =>
    have hx := Lays.keyword .asKey (h x rfl).2.2.lays
    have hall := legible_space (hx.legible hqs hends) hx.starts_append
    exact ⟨by simpa [Path.aliasPieces] using hall, ends_space⟩

mutual

theorem ProperPath.lays {place : PathPlace} {p : Path} (hp : ProperPath Written place p) :
    Lays p.pieces := by
  match hp with
  | .mk hsegment htarget halias =>
    rw [Path.pieces]
    refine ⟨⟨_, _, rfl⟩, fun {qs} hqs hends => ?_⟩
    obtain ⟨halias', hends'⟩ := legible_alias halias hqs hends
    obtain ⟨htarget', hends''⟩ := htarget.legible halias' hends'
    have hall := legible_written hsegment.written htarget' hends''
    simpa [Ident.piece, Piece.word] using hall

theorem ProperTarget.legible {place : PathPlace} {target : PathTarget} {aliasable : Bool}
    (ht : ProperTarget Written place target aliasable) {qs : List Piece} (hqs : Legible qs)
    (hends : Ends (chars qs)) :
    Legible (Path.targetPieces target ++ qs) ∧ Ends (chars (Path.targetPieces target ++ qs)) := by
  match ht with
  | .item hx =>
    have hall := legible_fixed .doubleColon (by decide) (hx.lays.legible hqs hends)
    exact ⟨by simpa [Path.targetPieces] using hall, ends_fixed (by decide)⟩
  | .nested hnext =>
    have hall := legible_fixed .doubleColon (by decide) (hnext.lays.legible hqs hends)
    exact ⟨by simpa [Path.targetPieces] using hall, ends_fixed (by decide)⟩
  | .wildcard =>
    exact ⟨legible_fixed .doubleColon (by decide)
      (legible_fixed .star (by decide) hqs), ends_fixed (by decide)⟩
  | .group _ hentries =>
    have hparts := lays_entries fun entry hentry => (hentries entry hentry).lays
    have hclose : Legible (fixed .closeCurly :: qs) := legible_fixed _ (by decide) hqs
    have hall := legible_fixed .doubleColon (by decide)
      (legible_fixed .openCurly (by decide)
        (legible_commaSeparated hparts hclose (ends_fixed (by decide))))
    exact ⟨by simpa [Path.targetPieces] using hall, ends_fixed (by decide)⟩

theorem ProperEntry.lays {entry : Path} (hentry : ProperEntry Written entry) :
    Lays entry.pieces := by
  match hentry with
  | .leaf hsegment halias =>
    rw [Path.pieces]
    refine ⟨⟨_, _, rfl⟩, fun {qs} hqs hends => ?_⟩
    obtain ⟨halias', hends'⟩ := legible_alias halias hqs hends
    have hall := legible_written hsegment.written halias' hends'
    simpa [Ident.piece, Piece.word, Path.targetPieces] using hall
  | .path hp => exact hp.lays

end

/-- An operator with blanks around it stands before its right operand. -/
theorem lays_operator (operation : Operation) (h : Lays ps) :
    Lays (.lexeme operation.lexeme :: space :: ps) :=
  ⟨⟨_, _, rfl⟩, fun hqs hends =>
    ⟨reads_operation operation _, legible_space (h.legible hqs hends) h.starts_append⟩⟩

theorem Opens.head (h : Opens Written l) :
    ∃ c cs, l.text.toList = c :: cs ∧ c ≠ '=' ∧ c ≠ '>' := by
  rcases h with ⟨hl, -, hkind⟩ | hl
  · exact hl.head hkind
  · simp only [List.mem_cons, List.not_mem_nil, or_false] at hl
    rcases hl with rfl | rfl | rfl | rfl | rfl <;> exact ⟨_, _, rfl, by decide, by decide⟩

/-- A sign stands right before what it is the sign of. -/
theorem lays_sign {operation : Operation} (hop : operation.isUnary = true) (h : Lays ps)
    (hopen : PiecesOpen Written ps) : Lays (.lexeme operation.lexeme :: ps) := by
  refine ⟨⟨_, _, rfl⟩, fun {qs} hqs hends => ⟨?_, h.legible hqs hends⟩⟩
  obtain ⟨l, rest, rfl, hl⟩ := hopen
  obtain ⟨c, cs, htext, hequals, hgreater⟩ := hl.head
  have hchars : chars (.lexeme l :: rest ++ qs) = c :: (cs ++ chars (rest ++ qs)) := by
    rw [List.cons_append, chars_cons, show (Piece.lexeme l).text = l.text from rfl, htext,
      List.cons_append]
  show Reads operation.lexeme (chars (.lexeme l :: rest ++ qs))
  rw [hchars]
  exact reads_sign hop hequals hgreater _

theorem lays_arguments {args : List Expr} (h : ∀ e ∈ args, Lays (exprPieces e)) :
    Lays (Piece.parenthesized (commaSeparated (exprListPieces args))) := by
  refine .parenthesized (legible_commaSeparated fun p hp => ?_)
  rw [exprListPieces_eq_map] at hp
  obtain ⟨e, he, rfl⟩ := List.mem_map.mp hp
  exact h e he

theorem lays_tuple {es : List Expr} (h : ∀ e ∈ es, Lays (exprPieces e)) :
    Lays (Expr.tuplePieces (exprListPieces es)) := by
  match es, h with
  | [], _ => exact .parenthesized fun hqs _ => hqs
  | [e], h =>
    refine .parenthesized fun {qs} hqs _ => ?_
    rw [List.append_assoc]
    exact (h e List.mem_cons_self).legible (legible_fixed .comma (by decide) hqs)
      (ends_fixed (by decide))
  | e :: e' :: es, h => exact lays_arguments h

/-- Items in braces, each of which ends with a blank behind it. -/
theorem lays_braces {items : List (List Piece)} (h : ∀ p ∈ items, Lays p) :
    Lays (Block.bracePieces items) := by
  cases items with
  | nil =>
    exact ⟨⟨_, _, rfl⟩, fun hqs _ =>
      legible_fixed _ (by decide) (legible_fixed .closeCurly (by decide) hqs)⟩
  | cons item items =>
    have hitems := lays_intercalate legible_space ends_space h (List.cons_ne_nil _ _)
    have hclosed : Lays ([space].intercalate (item :: items) ++ space :: [fixed .closeCurly]) :=
      hitems.space ⟨⟨_, _, rfl⟩, fun hqs _ => legible_fixed _ (by decide) hqs⟩
    refine ⟨⟨_, _, rfl⟩, fun {qs} hqs hends => ?_⟩
    have hall := legible_fixed .openCurly (by decide)
      (legible_space (hclosed.legible hqs hends) hclosed.starts_append)
    simpa [Block.bracePieces] using hall

theorem lays_block {stmts : List Stmt} {tail : Option Expr} {span : TokenRange}
    (hstmts : ∀ s ∈ stmts, Lays (stmtPieces s)) (htail : ∀ e ∈ tail, Lays (exprPieces e)) :
    Lays (blockPieces ⟨stmts, tail, span⟩) := by
  rw [blockPieces]
  refine lays_braces fun p hp => ?_
  rcases List.mem_append.mp hp with hp | hp
  · rw [stmtListPieces_eq_map] at hp
    obtain ⟨s, hs, rfl⟩ := List.mem_map.mp hp
    exact hstmts s hs
  · cases tail with
    | none => cases hp
    | some value =>
      rw [List.mem_singleton.mp hp]
      exact htail value rfl

theorem lays_binding {mutable : Bool} {x : Ident} {value : Expr} {span : TokenRange}
    (hx : ProperName Written x) (hvalue : Lays (exprPieces value)) :
    Lays (stmtPieces (.binding mutable x value span)) := by
  have hassign : Lays (fixed .assign :: space :: exprPieces value) :=
    ⟨⟨_, _, rfl⟩, fun hqs hends =>
      ⟨reads_assign _, legible_space (hvalue.legible hqs hends) hvalue.starts_append⟩⟩
  have hrest := (hx.lays.space hassign).semicolon
  cases mutable with
  | false =>
    have hall := Lays.keyword .letKey hrest
    simpa [stmtPieces] using hall
  | true =>
    have hall := Lays.keyword .letKey (.keyword .varKey hrest)
    simpa [stmtPieces] using hall

mutual

theorem ProperExpr.lays {e : Expr} (h : ProperExpr Written N e) : Lays (exprPieces e) := by
  match h with
  | .literal hl => exact .written hl
  | .ident hx => exact hx.lays
  | .binary _ hleft hright =>
    rw [exprPieces, List.append_assoc]
    exact hleft.lays.operand.space (lays_operator _ hright.lays.operand)
  | .unary hop he =>
    have hopen := piecesOpen_operand fun hb => he.piecesOpen
      (kind_ne_function_of_precedence
        (Nat.lt_of_lt_of_le (by decide) (prefix_le_of_operandNeeds hb)))
    exact lays_sign hop he.lays.operand hopen
  | .block hb => exact hb.lays
  | .compute hname hparams hbody => exact lays_header hname hparams hbody.lays
  | .action hname hparams hbody _ => exact lays_header hname hparams hbody.lays
  | .call hx hargs =>
    exact hx.lays.append (lays_arguments fun e he => (hargs e he).lays) (ends_fixed (by decide))
  | .callValue hcallee hargs =>
    exact hcallee.lays.operand.append (lays_arguments fun e he => (hargs e he).lays)
      (ends_fixed (by decide))
  | .tuple hes => exact lays_tuple fun e he => (hes e he).lays
  | .path hp => exact hp.lays

theorem ProperBlock.lays {b : Block} (h : ProperBlock Written N b) : Lays (blockPieces b) := by
  match h with
  | .mk hstmts _ htail _ =>
    exact lays_block (fun s hs => (hstmts s hs).lays) fun e he => (htail e he).lays

theorem ProperStmt.lays {s : Stmt} (h : ProperStmt Written N s) : Lays (stmtPieces s) := by
  match h with
  | .expr _ he => exact he.lays.semicolon
  | .binding hx hvalue => exact lays_binding hx hvalue.lays
  | .function (x := x) hx hparams hbody _ =>
    exact lays_header (by rintro _ ⟨⟩; exact hx) hparams hbody.lays
  | .returning hvalue => exact Lays.keyword .returnKey hvalue.lays.semicolon
  | .importResource _ hl hx =>
    have hall := Lays.keyword .importKey (.keyword .externKey
      ((Lays.written hl).space (.keyword .asKey hx.lays.semicolon)))
    exact hall
  | .importPath hp => exact Lays.keyword .importKey hp.lays.semicolon

end

/-- The layout of a program is legible. -/
theorem legible_program {program : Program}
    (h : ∀ s ∈ program.body, ProperStmt Written N s) : Legible program.pieces := by
  by_cases hnil : stmtListPieces program.body = []
  · rw [Program.pieces, hnil]
    trivial
  · have hparts : ∀ p ∈ stmtListPieces program.body, Lays p := by
      intro p hp
      rw [stmtListPieces_eq_map] at hp
      obtain ⟨s, hs, rfl⟩ := List.mem_map.mp hp
      exact (h s hs).lays
    have hall := lays_intercalate legible_newline ends_newline hparts hnil
    have hend : Legible ([newline].intercalate (stmtListPieces program.body) ++ []) :=
      hall.legible trivial ends_nil
    rw [List.append_nil] at hend
    exact hend

end FrontEnd.Grammar
