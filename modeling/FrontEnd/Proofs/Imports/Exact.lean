import FrontEnd.Proofs.Acceptance.Statement
import FrontEnd.Proofs.Depth.Rules
import FrontEnd.Proofs.Erasure
import FrontEnd.Proofs.Imports.Tacit
import FrontEnd.Proofs.Imports.Words
import FrontEnd.Proofs.Session

/-! Imports are read exactly. At every depth the rule for paths reads each path that fits the levels
that are left, and no other one; so the rule for import statements has a value exactly where a word
stands that has no more double colons in a row than there are levels, and the tree can be written
back into that word. -/
namespace FrontEnd.Grammar

open Parse Piece Node FrontEnd.Tree

variable {s t : State} {i j room : Nat} {w v : List Lexeme} {inBlock : Bool} {stmt : Stmt}

/-- The levels that are left at a depth are no more than there is room for, and the path lies on
them. -/
def FitsAt (room depth : Nat) (p : Path) : Prop :=
  maxDepth - depth ≤ room ∧ Bounded (maxDepth - depth) (.path p)

theorem AllBeneath.mono {P Q : Path → Prop} {target : PathTarget} (h : AllBeneath P target)
    (himp : ∀ p, P p → Q p) : AllBeneath Q target := by
  cases target with
  | nested next => exact himp next h
  | group entries => exact fun entry hentry hleaf => himp entry (h entry hentry hleaf)
  | _ => trivial

/-- A path that fits leaves its parts a level less, and they fit as well. -/
theorem FitsAt.below {depth : Nat} {p : Path} (h : FitsAt (room + 1) depth p) :
    depth < maxDepth ∧ AllBeneath (FitsAt room (depth + 1)) p.target := by
  obtain ⟨hroom, hbounded⟩ := h
  have hne := hbounded.ne_zero
  have hleft : maxDepth - depth = maxDepth - (depth + 1) + 1 := by omega
  rw [hleft] at hroom hbounded
  refine ⟨by omega, (bounded_succ_path.mp hbounded).mono ?_⟩
  intro q hq
  exact ⟨by omega, hq⟩

/-- Every path that stands in the tokens and fits is read. -/
theorem Level.withRoom_readsPaths (room : Nat) :
    (withRoom room).ReadsPaths (fun _ => False) (FitsAt room) := by
  induction room with
  | zero =>
    refine ⟨fun _ _ hfits => ?_⟩
    exact absurd (Nat.le_zero.mp hfits.1) hfits.2.ne_zero
  | succ room ih =>
    refine ⟨fun {s j segment place p} hs hpath hfits => ?_⟩
    obtain ⟨hdepth, hbelow⟩ := hfits.below
    refine Achieves.nested (fun hfull => absurd hdepth (Nat.not_lt_of_le hfull)) fun _ => ?_
    exact ih.pathFrom (s := s.withDepth (s.depth + 1)) hs hpath hbelow

/-- A word stands where an import statement does whose path fits, and it is what the statement is
written with. -/
theorem StmtAt.exists_importWord {T : Nat → Lexeme} {levels : Nat} (h : StmtAt T i j stmt)
    (himport : (T i).keyword? = some .importKey) (hfits : Bounded (levels + 1) (.stmt stmt)) :
    ∃ w, ImportWord levels w ∧ WordAt T i j w ∧ lexemes (stmtPieces stmt) = w := by
  have hother : ∀ {keyword : Keyword}, (T i).keyword? = some keyword → keyword = .importKey :=
    fun h => Option.some.inj (h.symm.trans himport)
  have himport' : (T i).Fills (.word Keyword.importKey.text) := fills_keyword.mpr himport
  cases h with
  | expr hno _ _ _ =>
    rw [himport] at hno
    cases hno
  | binding hlet _ _ _ _ _ _ => cases hother hlet
  | returning hreturn _ _ => cases hother hreturn
  | function hheader _ _ =>
    have hkind := hheader.functionKind?
    rw [himport] at hkind
    cases hkind
  | importResource _ hext hstring has hx hsemi =>
    obtain ⟨hname, hfills⟩ := hx.fills
    refine ⟨_, .resource hname, ⟨himport', fills_keyword.mpr hext, ⟨hstring, fun _ => rfl⟩,
      fills_keyword.mpr has, hfills, fills_fixed (by decide) |>.mpr hsemi, rfl⟩, rfl⟩
  | @importPath _ k _ p _ hx hcolon hpath hsemi =>
    obtain ⟨hname, hfills⟩ := hx.fills
    have hchild : (1, .path p) ∈ (Node.stmt (.importPath p (.clamped i (k + 1)))).below :=
      List.mem_singleton.mpr rfl
    have hp : Bounded levels (.path p) := hfits.child hchild
    obtain ⟨w, hw, hat, hwritten⟩ := hpath.exists_word rfl hp
    refine ⟨_, .path hname hw, ⟨himport', hfills, fills_fixed (by decide) |>.mpr hcolon,
      wordAt_append.mpr ⟨_, hat, fills_fixed (by decide) |>.mpr hsemi, rfl⟩⟩, ?_⟩
    simp [stmtPieces, hwritten]

/-- Where a word stands there is an import statement that is written with it. -/
theorem ImportWord.exists_stmt {T : Nat → Lexeme} {levels : Nat} (hw : ImportWord levels w)
    (hat : WordAt T i j w) :
    ∃ stmt, StmtAt T i j stmt ∧ lexemes (stmtPieces stmt) = w ∧
      ∀ p span, stmt = .importPath p span → Bounded levels (.path p) := by
  cases hw with
  | resource hx =>
    obtain ⟨himport, hext, hstring, has, hfills, hsemi, rfl⟩ := hat
    obtain ⟨x, hname, rfl⟩ := hx.nameAt hfills
    refine ⟨_, .importResource (fills_keyword.mp himport) (fills_keyword.mp hext) hstring.1
      (fills_keyword.mp has) hname hsemi.1, ?_, ?_⟩
    · rw [hstring.2 (show TokenKind.string ∈ Lexical.openKinds by decide)]
      rfl
    · intro p span h
      cases h
  | path hx hw =>
    obtain ⟨himport, hfills, hcolon, hat⟩ := hat
    obtain ⟨k, htargetAt, hsemi, rfl⟩ := wordAt_append.mp hat
    obtain ⟨x, hname, rfl⟩ := hx.nameAt hfills
    obtain ⟨p, hpath, hn, hwritten⟩ := hw.exists_path htargetAt (pathStops_of_kind hsemi.1) x
    refine ⟨_, .importPath (fills_keyword.mp himport) hname hcolon.1 hpath hsemi.1, ?_, ?_⟩
    · simp [stmtPieces, hwritten]
    · intro q span h
      cases h
      exact hn

/-- An import statement was read off a word: the tokens that fill the word were passed and nothing
else was changed, and the tree is written with the word even when it has lost its spans. -/
structure ImportRead (inBlock : Bool) (s : State) (w : List Lexeme) (stmt : Stmt) (t : State) :
    Prop where
  run : statementOf .importing inBlock s = .ok (some stmt) t
  word : ImportWord (maxDepth - s.depth) w
  filled : WordAt s.lexeme s.pos t.pos w
  passed : t = s.moveTo (s.pos + w.length)
  written : lexemes (stmtPieces stmt) = w
  written_erase : lexemes (stmtPieces stmt.erase) = w

theorem ensures_importStatement (hs : s.Valid)
    (himport : s.current.keyword? = some .importKey) (inBlock : Bool) :
    Ensures (statementOf .importing inBlock) s fun stmt? t =>
      ∃ stmt, stmt? = some stmt ∧ StmtRead s stmt t :=
  Ensures.atDepth fun room =>
    ((Level.withRoom_sound room).importStatement hs himport).map fun stmt _ _ h => ⟨stmt, rfl, h⟩

theorem errors_importStatement {stmt? : Option Stmt}
    (h : statementOf .importing inBlock s = .ok stmt? t) : t.errors = s.errors :=
  Tacit.of_ok (p := some <$> (Level.withRoom (maxDepth - s.depth)).importStatement) h

theorem bounded_importStatement (h : statementOf .importing inBlock s = .ok (some stmt) t) :
    Bounded (maxDepth - s.depth + 1) (.stmt stmt) :=
  ((Level.withRoom_fit (maxDepth - s.depth)).statementOf .importing inBlock).value h stmt rfl

/-- What the rule has a value for is a word. -/
theorem exists_importRead (hs : s.Valid) (himport : s.current.keyword? = some .importKey)
    {stmt? : Option Stmt} (h : statementOf .importing inBlock s = .ok stmt? t) :
    ∃ stmt w, stmt? = some stmt ∧ ImportRead inBlock s w stmt t := by
  obtain ⟨hst, stmt, rfl, -, -, hat⟩ := (ensures_importStatement hs himport inBlock).ok h
  have herrors := errors_importStatement h
  obtain ⟨w, hw, hfilled, hwritten⟩ :=
    (hat herrors).exists_importWord himport (bounded_importStatement h)
  refine ⟨stmt, w, rfl, h, hw, hfilled, ?_, hwritten, by rw [stmtPieces_erase, hwritten]⟩
  rw [← hfilled.stop_eq]
  obtain ⟨stream, pos, errors, depth⟩ := t
  obtain rfl : stream = s.stream := hst.stream
  obtain rfl : depth = s.depth := hst.depth
  obtain rfl : errors = s.errors := herrors
  rfl

/-- Where a word stands the rule has a value. -/
theorem ImportWord.exists_read (hw : ImportWord (maxDepth - s.depth) w) (hs : s.Valid)
    (himport : s.current.keyword? = some .importKey) (hat : WordAt s.lexeme s.pos j w)
    (inBlock : Bool) :
    ∃ stmt t, statementOf .importing inBlock s = .ok (some stmt) t ∧
      lexemes (stmtPieces stmt) = w := by
  obtain ⟨stmt, hstmt, hwritten, hfits⟩ := hw.exists_stmt hat
  have hrun : (Level.withRoom (maxDepth - s.depth)).importStatement s = .ok stmt (s.moveTo j) :=
    ((Level.withRoom_readsPaths _).importStatement hs hstmt
      (fun p span h => ⟨Nat.le_refl _, hfits p span h⟩) himport).run_eq.1
  exact ⟨stmt, s.moveTo j, run_map hrun, hwritten⟩

/-- The tokens begin with one word at most: the tree that is read there is written with it. -/
theorem ImportWord.unique (hw : ImportWord (maxDepth - s.depth) w)
    (hv : ImportWord (maxDepth - s.depth) v) (hs : s.Valid)
    (himport : s.current.keyword? = some .importKey) (hwat : WordAt s.lexeme s.pos i w)
    (hvat : WordAt s.lexeme s.pos j v) : w = v := by
  obtain ⟨stmt, t, hrun, rfl⟩ := hw.exists_read hs himport hwat true
  obtain ⟨stmt', t', hrun', rfl⟩ := hv.exists_read hs himport hvat true
  rw [hrun] at hrun'
  cases hrun'
  rfl

/-- At an `import` the rule for import statements has a value exactly where the tokens begin with a
word of the grammar that has no more double colons on the way to a name than there are levels left.
There is one such word at most. Its tokens are passed and nothing else changes, and the tree is
written with the word, its spans being of no account; so different words, wherever they stand, have
different trees. Where there is no word the rule is refused and does not fail in any other way. -/
theorem importStatement_exact (s : State) (hs : s.Valid)
    (himport : s.current.keyword? = some .importKey) (inBlock : Bool) :
    ((∃ stmt? t, statementOf .importing inBlock s = .ok stmt? t) ↔
      ∃ w j, ImportWord (maxDepth - s.depth) w ∧ WordAt s.lexeme s.pos j w) ∧
    (∀ stmt? t, statementOf .importing inBlock s = .ok stmt? t →
      ∃ stmt w, stmt? = some stmt ∧ ImportRead inBlock s w stmt t ∧
        (∀ v j, ImportWord (maxDepth - s.depth) v → WordAt s.lexeme s.pos j v → v = w) ∧
        ∀ s' v stmt' t', ImportRead inBlock s' v stmt' t' → v ≠ w → stmt'.erase ≠ stmt.erase) ∧
    ∀ f t, statementOf .importing inBlock s ≠ .fault f t := by
  refine ⟨⟨?_, ?_⟩, ?_, (ensures_importStatement hs himport inBlock).no_fault⟩
  · rintro ⟨stmt?, t, h⟩
    obtain ⟨stmt, w, -, hread⟩ := exists_importRead hs himport h
    exact ⟨w, t.pos, hread.word, hread.filled⟩
  · rintro ⟨w, j, hw, hat⟩
    obtain ⟨stmt, t, hrun, -⟩ := hw.exists_read hs himport hat inBlock
    exact ⟨some stmt, t, hrun⟩
  · intro stmt? t h
    obtain ⟨stmt, w, rfl, hread⟩ := exists_importRead hs himport h
    refine ⟨stmt, w, rfl, hread, fun v j hv hat => ?_, fun s' v stmt' t' hread' hne heq => ?_⟩
    · exact hv.unique hread.word hs himport hat hread.filled
    · exact hne (by rw [← hread'.written_erase, heq, hread.written_erase])

/-- The word `import a::{b, c::*, d as e};`. -/
def groupedWord : List Lexeme :=
  [.word "import", .word "a", .fixed .doubleColon, .fixed .openCurly, .word "b", .fixed .comma,
    .word "c", .fixed .doubleColon, .fixed .star, .fixed .comma, .word "d", .word "as", .word "e",
    .fixed .closeCurly, .fixed .semicolon]

/-- The word takes two levels, and there are as many tokens as it has lexemes. -/
theorem importStatement_exact_grouped :
    let s := State.ofTokens (groupedWord.map fun l => ⟨l, ⟨0, 0⟩, 0⟩)
    s.Valid ∧ s.current.keyword? = some .importKey ∧
      ImportWord (maxDepth - s.depth) groupedWord ∧
      ∃ stmt, ImportRead true s groupedWord stmt (s.moveTo 15) := by
  intro s
  have hs : s.Valid := State.valid_ofTokens _
  have himport : s.current.keyword? = some .importKey := by decide +kernel
  have hname : ∀ x ∈ ["a", "b", "c", "d", "e"], NameWord (.word x) := by
    intro x hx
    simp only [List.mem_cons, List.not_mem_nil, or_false] at hx
    rcases hx with rfl | rfl | rfl | rfl | rfl <;> exact .mk rfl
  have hword : ImportWord (maxDepth - s.depth) groupedWord :=
    .path (hname "a" (by simp)) (.group (.cons (.leaf (hname "b" (by simp)))
      (.cons (.path (hname "c" (by simp)) .wildcard)
        (.last (.renamed (hname "d" (by simp)) (hname "e" (by simp)))))))
  have hat : WordAt s.lexeme s.pos 15 groupedWord := by decide +kernel
  obtain ⟨hiff, hread, -⟩ := importStatement_exact s hs himport true
  obtain ⟨stmt?, t, hrun⟩ := hiff.mpr ⟨groupedWord, 15, hword, hat⟩
  obtain ⟨stmt, w, -, hstmt, hunique, -⟩ := hread stmt? t hrun
  obtain rfl := hunique groupedWord 15 hword hat
  obtain rfl : t = s.moveTo 15 := hstmt.passed
  exact ⟨hs, himport, hword, stmt, hstmt⟩

end FrontEnd.Grammar
