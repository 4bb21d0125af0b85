import FrontEnd.Proofs.Acceptance.Path
import FrontEnd.Proofs.Depth.Levels
import FrontEnd.Proofs.Lexing.Scan

/-! The words of import statements, as a grammar of lexemes that knows of no tree. A word stands in
a stream exactly where the grammar of trees finds a path, and it is what that path is written with.
Along any branch of a word there are only so many double colons; they are the levels of the path. -/
namespace FrontEnd.Grammar

open Piece

/-- A name, as a lexeme. -/
inductive NameWord : Lexeme → Prop where
  | mk {x : String} (h : Keyword.ofText? x = none) : NameWord (.word x)

mutual

/-- What may follow a double colon. With that one there are no more than the given number of
double colons on the way to any of the names. -/
inductive TargetWord : Nat → List Lexeme → Prop where
  | item {n : Nat} {x : Lexeme} (hx : NameWord x) : TargetWord (n + 1) [x]
  | renamed {n : Nat} {x y : Lexeme} (hx : NameWord x) (hy : NameWord y) :
      TargetWord (n + 1) [x, .word Keyword.asKey.text, y]
  | nested {n : Nat} {x : Lexeme} {w : List Lexeme} (hx : NameWord x) (hw : TargetWord n w) :
      TargetWord (n + 1) (x :: .fixed .doubleColon :: w)
  | wildcard {n : Nat} : TargetWord (n + 1) [.fixed .star]
  | group {n : Nat} {w : List Lexeme} (hw : EntriesWord n w) :
      TargetWord (n + 1) (.fixed .openCurly :: w ++ [.fixed .closeCurly])

/-- The entries of a group, with a comma between any two. -/
inductive EntriesWord : Nat → List Lexeme → Prop where
  | last {n : Nat} {w : List Lexeme} (hw : EntryWord n w) : EntriesWord n w
  | cons {n : Nat} {w v : List Lexeme} (hw : EntryWord n w) (hv : EntriesWord n v) :
      EntriesWord n (w ++ .fixed .comma :: v)

/-- An entry of a group. -/
inductive EntryWord : Nat → List Lexeme → Prop where
  | leaf {n : Nat} {x : Lexeme} (hx : NameWord x) : EntryWord n [x]
  | renamed {n : Nat} {x y : Lexeme} (hx : NameWord x) (hy : NameWord y) :
      EntryWord n [x, .word Keyword.asKey.text, y]
  | path {n : Nat} {x : Lexeme} {w : List Lexeme} (hx : NameWord x) (hw : TargetWord n w) :
      EntryWord n (x :: .fixed .doubleColon :: w)

end

/-- An import statement: of an outside resource under a name, or of a path with no more than the
given number of double colons on the way to any of its names. -/
inductive ImportWord (levels : Nat) : List Lexeme → Prop where
  | resource {text : String} {x : Lexeme} (hx : NameWord x) :
      ImportWord levels [.word Keyword.importKey.text, .word Keyword.externKey.text,
        ⟨.string, text, none⟩, .word Keyword.asKey.text, x, .fixed .semicolon]
  | path {x : Lexeme} {w : List Lexeme} (hx : NameWord x) (hw : TargetWord levels w) :
      ImportWord levels
        (.word Keyword.importKey.text :: x :: .fixed .doubleColon :: w ++ [.fixed .semicolon])

end FrontEnd.Grammar

namespace FrontEnd

/-- A token says what a lexeme of a word asks for. Where the kind of a token leaves its text open,
the text has to be the same. -/
def Lexeme.Fills (token lexeme : Lexeme) : Prop :=
  token.kind = lexeme.kind ∧ (lexeme.kind ∈ Lexical.openKinds → token.value = lexeme.value)

instance (token lexeme : Lexeme) : Decidable (token.Fills lexeme) :=
  inferInstanceAs (Decidable (_ ∧ _))

namespace Grammar

section

variable (T : Nat → Lexeme)

/-- The tokens from one place up to another fill a word. -/
def WordAt : Nat → Nat → List Lexeme → Prop
  | i, j, [] => i = j
  | i, j, l :: w => (T i).Fills l ∧ WordAt (i + 1) j w

instance decidableWordAt : (i j : Nat) → (w : List Lexeme) → Decidable (WordAt T i j w)
  | i, j, [] => inferInstanceAs (Decidable (i = j))
  | i, j, _ :: w =>
    letI := decidableWordAt (i + 1) j w
    inferInstanceAs (Decidable (_ ∧ _))

end

variable {T : Nat → Lexeme} {i j n : Nat} {w v : List Lexeme}

@[simp] theorem wordAt_nil : WordAt T i j [] ↔ i = j :=
  Iff.rfl

@[simp] theorem wordAt_cons {l : Lexeme} :
    WordAt T i j (l :: w) ↔ (T i).Fills l ∧ WordAt T (i + 1) j w :=
  Iff.rfl

@[simp] theorem wordAt_append :
    WordAt T i j (w ++ v) ↔ ∃ k, WordAt T i k w ∧ WordAt T k j v := by
  induction w generalizing i with
  | nil => simp
  | cons l w ih => simp [ih, and_assoc]

theorem WordAt.stop_eq (h : WordAt T i j w) : j = i + w.length := by
  induction w generalizing i with
  | nil => exact h.symm
  | cons l w ih =>
    rw [ih h.2, List.length_cons]
    omega

@[simp] theorem fills_fixed {token : Lexeme} {kind : TokenKind} (h : kind ∉ Lexical.openKinds) :
    token.Fills (.fixed kind) ↔ token.kind = kind := by
  constructor
  · exact And.left
  · intro hkind
    exact ⟨hkind, fun hopen => absurd hopen h⟩

theorem fills_word {token : Lexeme} {text : String} :
    token.Fills (.word text) ↔ token.kind = .word ∧ token.value = text := by
  simp [Lexeme.Fills, Lexeme.word, Lexical.openKinds]

theorem fills_keyword {token : Lexeme} {keyword : Keyword} :
    token.Fills (.word keyword.text) ↔ token.keyword? = some keyword := by
  rw [fills_word, Lexeme.keyword?]
  constructor
  · rintro ⟨hword, htext⟩
    rw [if_pos hword, htext, Keyword.ofText?_text]
  · intro h
    split at h
    · exact ⟨‹_›, (Keyword.text_of_ofText? h).symm⟩
    · cases h

/-- A name stands where a token fills the lexeme of a name. -/
theorem NameAt.fills {x : Ident} (h : NameAt T i x) :
    NameWord (.word x.name) ∧ (T i).Fills (.word x.name) := by
  obtain ⟨hword, hkey, rfl⟩ := h
  rw [Lexeme.keyword?, if_pos hword] at hkey
  exact ⟨.mk hkey, fills_word.mpr ⟨hword, rfl⟩⟩

theorem NameWord.nameAt {l : Lexeme} (h : NameWord l) (hfills : (T i).Fills l) :
    ∃ x, NameAt T i x ∧ l = .word x.name := by
  obtain ⟨hkey⟩ := h
  obtain ⟨hword, rfl⟩ := fills_word.mp hfills
  refine ⟨_, ⟨hword, ?_, rfl⟩, rfl⟩
  rw [Lexeme.keyword?, if_pos hword, hkey]

end Grammar

namespace Piece

variable {ps qs : List Piece}

@[simp] theorem lexemes_nil : lexemes [] = [] := rfl

@[simp] theorem lexemes_lexeme (l : Lexeme) : lexemes (.lexeme l :: ps) = l :: lexemes ps := rfl

@[simp] theorem lexemes_word (text : String) :
    lexemes (word text :: ps) = .word text :: lexemes ps := rfl

@[simp] theorem lexemes_ident (x : Ident) :
    lexemes (x.piece :: ps) = .word x.name :: lexemes ps := rfl

@[simp] theorem lexemes_fixed (kind : TokenKind) :
    lexemes (fixed kind :: ps) = .fixed kind :: lexemes ps := rfl

@[simp] theorem lexemes_space : lexemes (space :: ps) = lexemes ps := rfl

@[simp] theorem lexemes_append : lexemes (ps ++ qs) = lexemes ps ++ lexemes qs := by
  induction ps with
  | nil => rfl
  | cons p ps ih => cases p <;> simp [lexemes, ih]

theorem lexemes_commaSeparated_cons {p q : List Piece} {parts : List (List Piece)} :
    lexemes (commaSeparated (p :: q :: parts)) =
      lexemes p ++ .fixed .comma :: lexemes (commaSeparated (q :: parts)) := by
  simp [commaSeparated, List.intercalate]

end Piece

namespace Node

variable {n : Nat} {p : Path}

/-- A child lies that many levels deeper than its parent, and so has that many fewer. -/
theorem Bounded.child {node child : Node} {rise : Nat} (h : Bounded (n + 1) node)
    (hchild : (rise, child) ∈ node.below) : Bounded (n + 1 - rise) child := by
  intro level target hat
  have hlt := h _ _ (.step hchild hat)
  omega

/-- A node lies on a level of its own. -/
theorem Bounded.ne_zero {node : Node} (h : Bounded n node) : n ≠ 0 :=
  Nat.ne_zero_of_lt (h 0 node (.self node))

theorem entryRise_of_ne_leaf {entry : Path} (h : entry.target ≠ .leaf) : entryRise entry = 1 := by
  unfold entryRise
  split
  · exact absurd ‹_› h
  · rfl

/-- An entry of a group that is a single name has no node on a further level. -/
theorem bounded_leaf {entry : Path} (h : entry.target = .leaf) :
    Bounded (n + 1) (.path entry) := by
  obtain ⟨segment, target, localName, span⟩ := entry
  obtain rfl : target = .leaf := h
  exact Bounded.mk (by simp [below, belowTarget, rising, Bounded.ident])

/-- What stands behind the double colon of a path lies on the levels that are left, if the paths
in it have one level fewer. -/
theorem bounded_of_belowTarget {target : PathTarget} {rise : Nat} {child : Node}
    (h : Grammar.AllBeneath (fun q => Bounded n (.path q)) target)
    (hchild : (rise, child) ∈ belowTarget target) : Bounded (n + 1 - rise) child := by
  cases target with
  | leaf => cases hchild
  | item x =>
    cases List.mem_singleton.mp hchild
    exact Bounded.ident x
  | nested next =>
    cases List.mem_singleton.mp hchild
    exact h
  | wildcard span =>
    cases List.mem_singleton.mp hchild
    exact Bounded.wildcard span
  | group entries =>
    simp only [belowTarget, List.mem_map, Prod.mk.injEq] at hchild
    obtain ⟨entry, hentry, rfl, rfl⟩ := hchild
    by_cases hleaf : entry.target = .leaf
    · have hzero : entryRise entry = 0 := by simp [entryRise, hleaf]
      rw [hzero]
      exact bounded_leaf hleaf
    · rw [entryRise_of_ne_leaf hleaf]
      exact h entry hentry hleaf

/-- The paths below a path have one level fewer. -/
theorem bounded_succ_path :
    Bounded (n + 1) (.path p) ↔ Grammar.AllBeneath (fun q => Bounded n (.path q)) p.target := by
  obtain ⟨segment, target, localName, span⟩ := p
  constructor
  · intro h
    cases target with
    | nested next =>
      have hchild : (1, Node.path next) ∈
          below (.path ⟨segment, .nested next, localName, span⟩) := by
        simp [below, belowTarget]
      exact h.child hchild
    | group entries =>
      intro entry hentry hleaf
      have hchild : (entryRise entry, Node.path entry) ∈
          below (.path ⟨segment, .group entries, localName, span⟩) :=
        .tail _ (List.mem_append_left _ (List.mem_map_of_mem hentry))
      rw [entryRise_of_ne_leaf hleaf] at hchild
      exact h.child hchild
    | _ => trivial
  · intro h
    -- a name is within every bound, so only the target counts
    refine Bounded.mk ?_
    rintro ⟨rise, child⟩ hchild
    simp only [below, List.mem_cons, List.mem_append] at hchild
    rcases hchild with hchild | hchild | hchild
    · cases hchild
      exact Bounded.ident segment
    · exact bounded_of_belowTarget h hchild
    · simp only [rising, List.map_map, List.mem_map, Function.comp_apply, Prod.mk.injEq] at hchild
      obtain ⟨x, -, rfl, rfl⟩ := hchild
      exact Bounded.ident x

end Node

namespace Grammar

open Piece Node

variable {T : Nat → Lexeme} {i j k n : Nat} {w : List Lexeme}

/-- What a path is written with, as lexemes. -/
theorem lexemes_pieces (p : Path) :
    lexemes p.pieces = .word p.segment.name ::
      lexemes (Path.targetPieces p.target ++ Path.aliasPieces p.localName) := by
  obtain ⟨segment, target, localName, span⟩ := p
  simp [Path.pieces]

theorem EntriesAt.exists_cons {entries : List Path} (h : EntriesAt T i j entries) :
    ∃ entry rest, entries = entry :: rest := by
  cases h <;> exact ⟨_, _, rfl⟩

theorem AliasInAt.of_importing {place : PathPlace} {allowed : Bool} {localName : Option Ident}
    (h : AliasInAt T place allowed i j localName) (hplace : place = .importing) :
    AliasAt T allowed i j localName := by
  cases h with
  | importing h => exact h
  | expression => cases hplace

theorem AliasAt.absent {localName : Option Ident} (h : AliasAt T false i j localName) :
    j = i ∧ localName = Option.none := by
  cases h
  exact ⟨rfl, rfl⟩

mutual

/-- A path stands where a word does that it is written with. -/
theorem PathAt.exists_word {place : PathPlace} {segment : Ident} {p : Path} {i j n : Nat}
    (h : PathAt T place segment i j p) (hplace : place = .importing) (hn : Bounded n (.path p)) :
    ∃ w, TargetWord n w ∧ WordAt T i j w ∧
      lexemes p.pieces = .word segment.name :: .fixed .doubleColon :: w := by
  match h with
  | .mk htarget halias =>
    obtain ⟨n, rfl⟩ : ∃ m, n = m + 1 := Nat.exists_eq_succ_of_ne_zero (hn.ne_zero)
    obtain ⟨w, hw, hat, hwritten⟩ :=
      htarget.exists_word hplace (bounded_succ_path.mp hn) (halias.of_importing hplace)
    exact ⟨w, hw, hat, by rw [lexemes_pieces, hwritten]⟩

theorem TargetAt.exists_word {place : PathPlace} {target : PathTarget} {aliasable : Bool}
    {localName : Option Ident} {i j k n : Nat} (h : TargetAt T place i k target aliasable)
    (hplace : place = .importing) (hn : AllBeneath (fun q => Bounded n (.path q)) target)
    (halias : AliasAt T aliasable k j localName) :
    ∃ w, TargetWord (n + 1) w ∧ WordAt T i j w ∧
      lexemes (Path.targetPieces target ++ Path.aliasPieces localName) =
        .fixed .doubleColon :: w := by
  match h with
  | .item hx _ =>
    obtain ⟨hname, hfills⟩ := hx.fills
    cases halias with
    | none => exact ⟨_, .item hname, ⟨hfills, rfl⟩, by simp [Path.targetPieces, Path.aliasPieces]⟩
    | some has hy =>
      obtain ⟨hname', hfills'⟩ := hy.fills
      exact ⟨_, .renamed hname hname', ⟨hfills, fills_keyword.mpr has, hfills', rfl⟩,
        by simp [Path.targetPieces, Path.aliasPieces]⟩
  | .nested hx hcolon hnext =>
    obtain ⟨hname, hfills⟩ := hx.fills
    obtain ⟨w, hw, hat, hwritten⟩ := hnext.exists_word hplace hn
    obtain ⟨rfl, rfl⟩ := halias.absent
    exact ⟨_, .nested hname hw, ⟨hfills, fills_fixed (by decide) |>.mpr hcolon, hat⟩,
      by simp [Path.targetPieces, Path.aliasPieces, hwritten]⟩
  | .wildcard hstar =>
    obtain ⟨rfl, rfl⟩ := halias.absent
    exact ⟨_, .wildcard, ⟨fills_fixed (by decide) |>.mpr hstar, rfl⟩,
      by simp [Path.targetPieces, Path.aliasPieces]⟩
  | .group hopen hentries hclose =>
    obtain ⟨w, hw, hat, hwritten⟩ := hentries.exists_word hn
    obtain ⟨rfl, rfl⟩ := halias.absent
    refine ⟨_, .group hw,
      ⟨fills_fixed (by decide) |>.mpr hopen, wordAt_append.mpr ⟨_, hat, ?_⟩⟩, ?_⟩
    · exact ⟨fills_fixed (by decide) |>.mpr hclose, rfl⟩
    · simp [Path.targetPieces, Path.aliasPieces, hwritten]

theorem EntriesAt.exists_word {entries : List Path} {i j n : Nat} (h : EntriesAt T i j entries)
    (hn : ∀ entry ∈ entries, entry.target ≠ .leaf → Bounded n (.path entry)) :
    ∃ w, EntriesWord n w ∧ WordAt T i j w ∧
      lexemes (commaSeparated (Path.entryPieces entries)) = w := by
  match h with
  | .last hentry _ =>
    obtain ⟨w, hw, hat, hwritten⟩ := hentry.exists_word (hn _ List.mem_cons_self)
    exact ⟨w, .last hw, hat, by simpa [Path.entryPieces, commaSeparated] using hwritten⟩
  | .cons hentry hcomma hrest =>
    obtain ⟨w, hw, hat, hwritten⟩ := hentry.exists_word (hn _ List.mem_cons_self)
    obtain ⟨v, hv, hat', hwritten'⟩ :=
      hrest.exists_word fun entry hentry => hn entry (List.mem_cons_of_mem _ hentry)
    refine ⟨_, .cons hw hv,
      wordAt_append.mpr ⟨_, hat, fills_fixed (by decide) |>.mpr hcomma, hat'⟩, ?_⟩
    obtain ⟨entry', entries', rfl⟩ := hrest.exists_cons
    rw [Path.entryPieces, Path.entryPieces, lexemes_commaSeparated_cons, hwritten,
      ← Path.entryPieces, hwritten']

theorem EntryAt.exists_word {entry : Path} {i j n : Nat} (h : EntryAt T i j entry)
    (hn : entry.target ≠ .leaf → Bounded n (.path entry)) :
    ∃ w, EntryWord n w ∧ WordAt T i j w ∧ lexemes entry.pieces = w := by
  match h with
  | .leaf hx _ halias =>
    obtain ⟨hname, hfills⟩ := hx.fills
    cases halias with
    | none =>
      exact ⟨_, .leaf hname, ⟨hfills, rfl⟩,
        by simp [Path.pieces, Path.targetPieces, Path.aliasPieces]⟩
    | some has hy =>
      obtain ⟨hname', hfills'⟩ := hy.fills
      exact ⟨_, .renamed hname hname', ⟨hfills, fills_keyword.mpr has, hfills', rfl⟩,
        by simp [Path.pieces, Path.targetPieces, Path.aliasPieces]⟩
  | .path hx hcolon hpath =>
    obtain ⟨hname, hfills⟩ := hx.fills
    obtain ⟨w, hw, hat, hwritten⟩ := hpath.exists_word rfl (hn hpath.target_ne_leaf)
    exact ⟨_, .path hname hw, ⟨hfills, fills_fixed (by decide) |>.mpr hcolon, hat⟩, hwritten⟩

end

/-- What stands behind a path in an import, so that the path ends there. -/
def PathStops (T : Nat → Lexeme) (j : Nat) : Prop :=
  (T j).kind ≠ .doubleColon ∧ (T j).kind ≠ .word

theorem pathStops_of_kind {kind : TokenKind} (h : (T j).kind = kind)
    (hkind : kind ≠ .doubleColon ∧ kind ≠ .word := by decide) : PathStops T j := by
  rw [PathStops, h]
  exact hkind

theorem exists_alias_of_word {x : Lexeme} (hx : NameWord x)
    (hat : WordAt T i j [.word Keyword.asKey.text, x]) :
    ∃ localName, AliasAt T true i j (some localName) ∧ x = .word localName.name := by
  obtain ⟨has, hfills, rfl⟩ := hat
  obtain ⟨localName, hname, rfl⟩ := hx.nameAt hfills
  exact ⟨localName, .some (fills_keyword.mp has) hname, rfl⟩

mutual

/-- Where a word stands that nothing goes on, there is a path that is written with it. -/
theorem TargetWord.exists_path {w : List Lexeme} {i j n : Nat} (hw : TargetWord n w)
    (hat : WordAt T i j w) (hend : PathStops T j) (segment : Ident) :
    ∃ p, PathAt T .importing segment i j p ∧ Bounded n (.path p) ∧
      lexemes p.pieces = .word segment.name :: .fixed .doubleColon :: w := by
  match hw with
  | .item hx =>
    obtain ⟨hfills, rfl⟩ := hat
    obtain ⟨x, hname, rfl⟩ := hx.nameAt hfills
    refine ⟨_, .mk (.item hname hend.1) (.importing (.none hend.2)), ?_, ?_⟩
    · exact bounded_succ_path.mpr trivial
    · simp [lexemes_pieces, Path.targetPieces, Path.aliasPieces]
  | .renamed hx hy =>
    obtain ⟨hfills, hat⟩ := hat
    obtain ⟨x, hname, rfl⟩ := hx.nameAt hfills
    obtain ⟨y, halias, rfl⟩ := exists_alias_of_word hy hat
    refine ⟨_, .mk (.item hname ?_) (.importing halias), bounded_succ_path.mpr trivial, ?_⟩
    · rw [(fills_word.mp hat.1).1]
      decide
    · simp [lexemes_pieces, Path.targetPieces, Path.aliasPieces]
  | .nested hx hw =>
    obtain ⟨hfills, hcolon, hat⟩ := hat
    obtain ⟨x, hname, rfl⟩ := hx.nameAt hfills
    obtain ⟨p, hp, hn, hwritten⟩ := hw.exists_path hat hend x
    refine ⟨_, .mk (.nested hname hcolon.1 hp) (.importing (.none hend.2)), ?_, ?_⟩
    · exact bounded_succ_path.mpr hn
    · simp [lexemes_pieces, Path.targetPieces, Path.aliasPieces, hwritten]
  | .wildcard =>
    obtain ⟨hstar, rfl⟩ := hat
    refine ⟨_, .mk (.wildcard hstar.1) (.importing (.none hend.2)), ?_, ?_⟩
    · exact bounded_succ_path.mpr trivial
    · simp [lexemes_pieces, Path.targetPieces, Path.aliasPieces]
  | .group hw =>
    obtain ⟨hopen, hat⟩ := hat
    obtain ⟨k, hentriesAt, hclose, rfl⟩ := wordAt_append.mp hat
    obtain ⟨entries, hentries, hn, hwritten⟩ := hw.exists_entries hentriesAt hclose.1
    obtain ⟨entry, entries, rfl⟩ := hentries.exists_cons
    refine ⟨_, .mk (.group hopen.1 hentries hclose.1) (.importing (.none hend.2)), ?_, ?_⟩
    · exact bounded_succ_path.mpr hn
    · simp [lexemes_pieces, Path.targetPieces, Path.aliasPieces, hwritten]

theorem EntriesWord.exists_entries {w : List Lexeme} {i j n : Nat} (hw : EntriesWord n w)
    (hat : WordAt T i j w) (hclose : (T j).kind = .closeCurly) :
    ∃ entries, EntriesAt T i j entries ∧
      (∀ entry ∈ entries, entry.target ≠ .leaf → Bounded n (.path entry)) ∧
      lexemes (commaSeparated (Path.entryPieces entries)) = w := by
  match hw with
  | .last hw =>
    obtain ⟨entry, hentry, hn, hwritten⟩ := hw.exists_entry hat (pathStops_of_kind hclose)
    refine ⟨[entry], .last hentry hclose, by simpa using hn, ?_⟩
    simpa [Path.entryPieces, commaSeparated] using hwritten
  | .cons hw hv =>
    obtain ⟨k, hentryAt, hcomma, hrestAt⟩ := wordAt_append.mp hat
    obtain ⟨entry, hentry, hn, hwritten⟩ := hw.exists_entry hentryAt (pathStops_of_kind hcomma.1)
    obtain ⟨entries, hentries, hns, hwritten'⟩ := hv.exists_entries hrestAt hclose
    obtain ⟨next, rest, rfl⟩ := hentries.exists_cons
    refine ⟨entry :: next :: rest, .cons hentry hcomma.1 hentries, ?_, ?_⟩
    · exact List.forall_mem_cons.mpr ⟨hn, hns⟩
    · rw [Path.entryPieces, Path.entryPieces, lexemes_commaSeparated_cons, hwritten,
        ← Path.entryPieces, hwritten']

theorem EntryWord.exists_entry {w : List Lexeme} {i j n : Nat} (hw : EntryWord n w)
    (hat : WordAt T i j w) (hend : PathStops T j) :
    ∃ entry, EntryAt T i j entry ∧ (entry.target ≠ .leaf → Bounded n (.path entry)) ∧
      lexemes entry.pieces = w := by
  match hw with
  | .leaf hx =>
    obtain ⟨hfills, rfl⟩ := hat
    obtain ⟨x, hname, rfl⟩ := hx.nameAt hfills
    refine ⟨_, .leaf hname hend.1 (.none hend.2), fun hleaf => absurd rfl hleaf, ?_⟩
    simp [Path.pieces, Path.targetPieces, Path.aliasPieces]
  | .renamed hx hy =>
    obtain ⟨hfills, hat⟩ := hat
    obtain ⟨x, hname, rfl⟩ := hx.nameAt hfills
    obtain ⟨y, halias, rfl⟩ := exists_alias_of_word hy hat
    refine ⟨_, .leaf hname ?_ halias, fun hleaf => absurd rfl hleaf, ?_⟩
    · rw [(fills_word.mp hat.1).1]
      decide
    · simp [Path.pieces, Path.targetPieces, Path.aliasPieces]
  | .path hx hw =>
    obtain ⟨hfills, hcolon, hat⟩ := hat
    obtain ⟨x, hname, rfl⟩ := hx.nameAt hfills
    obtain ⟨p, hp, hn, hwritten⟩ := hw.exists_path hat hend x
    exact ⟨p, .path hname hcolon.1 hp, fun _ => hn, hwritten⟩

end

end Grammar

end FrontEnd
