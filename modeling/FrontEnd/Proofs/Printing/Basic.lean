import FrontEnd.Proofs.Erasure
import FrontEnd.Proofs.Proper

/-! Printed trees and the grammar. Where the lexemes of a printed tree stand, the grammar finds a
tree again, with other spans but else the same one. This file has the parts without expressions:
names, parameters, headers and paths. -/
namespace FrontEnd.Grammar

open Piece

section

variable (T : Nat → Lexeme)

/-- The lexemes from one place up to another are those of the pieces. -/
def PiecesAt : Nat → Nat → List Piece → Prop
  | i, j, [] => i = j
  | i, j, .lexeme l :: ps => T i = l ∧ PiecesAt (i + 1) j ps
  | i, j, .blank _ :: ps => PiecesAt i j ps

end

variable {T : Nat → Lexeme} {i j : Nat} {ps qs : List Piece}

@[simp] theorem piecesAt_nil : PiecesAt T i j [] ↔ i = j :=
  Iff.rfl

@[simp] theorem piecesAt_lexeme {l : Lexeme} :
    PiecesAt T i j (.lexeme l :: ps) ↔ T i = l ∧ PiecesAt T (i + 1) j ps :=
  Iff.rfl

@[simp] theorem piecesAt_fixed {kind : TokenKind} :
    PiecesAt T i j (fixed kind :: ps) ↔ T i = .fixed kind ∧ PiecesAt T (i + 1) j ps :=
  Iff.rfl

@[simp] theorem piecesAt_word {value : String} :
    PiecesAt T i j (word value :: ps) ↔ T i = .word value ∧ PiecesAt T (i + 1) j ps :=
  Iff.rfl

@[simp] theorem piecesAt_ident {x : Ident} :
    PiecesAt T i j (x.piece :: ps) ↔ T i = .word x.name ∧ PiecesAt T (i + 1) j ps :=
  Iff.rfl

@[simp] theorem piecesAt_literal {l : Literal} :
    PiecesAt T i j (l.piece :: ps) ↔ T i = l.kind.lexeme l.value ∧ PiecesAt T (i + 1) j ps :=
  Iff.rfl

@[simp] theorem piecesAt_space : PiecesAt T i j (space :: ps) ↔ PiecesAt T i j ps :=
  Iff.rfl

@[simp] theorem piecesAt_newline : PiecesAt T i j (newline :: ps) ↔ PiecesAt T i j ps :=
  Iff.rfl

@[simp] theorem piecesAt_append :
    PiecesAt T i j (ps ++ qs) ↔ ∃ k, PiecesAt T i k ps ∧ PiecesAt T k j qs := by
  induction ps generalizing i with
  | nil => simp
  | cons p ps ih =>
    cases p with
    | lexeme l => simp [ih, and_assoc]
    | blank t => exact ih

/-- A lexeme of a kind, where it stands. -/
theorem kind_eq_of_fixed {l : Lexeme} {kind : TokenKind} (h : l = .fixed kind) :
    l.kind = kind := by
  rw [h]
  rfl

theorem keyword?_word (value : String) : (Lexeme.word value).keyword? = Keyword.ofText? value :=
  rfl

/-- A keyword, where it stands. -/
theorem keyword?_of_word {l : Lexeme} {keyword : Keyword} (h : l = .word keyword.text) :
    l.keyword? = some keyword := by
  rw [h, keyword?_word, Keyword.ofText?_text]

/-- Between the parts of a list stand commas. -/
theorem piecesAt_commaSeparated_cons {p : List Piece} {parts : List (List Piece)} :
    PiecesAt T i j (commaSeparated (p :: parts)) ↔ ∃ k, PiecesAt T i k p ∧
      (parts = [] ∧ k = j ∨
        parts ≠ [] ∧ T k = .fixed .comma ∧ PiecesAt T (k + 1) j (commaSeparated parts)) := by
  cases parts with
  | nil => simp [commaSeparated]
  | cons q parts =>
    have hsplit : commaSeparated (p :: q :: parts) =
        p ++ fixed .comma :: space :: commaSeparated (q :: parts) := by
      simp [commaSeparated, List.intercalate]
    simp [hsplit]

/-- Blanks between the parts of a list do not count. -/
theorem piecesAt_intercalate_blank {text : String} {parts : List (List Piece)} :
    PiecesAt T i j ([.blank text].intercalate parts) ↔ PiecesAt T i j parts.flatten := by
  induction parts generalizing i with
  | nil => simp [List.intercalate]
  | cons p parts ih =>
    cases parts with
    | nil => simp [List.intercalate]
    | cons q parts =>
      have hsplit : [Piece.blank text].intercalate (p :: q :: parts) =
          p ++ .blank text :: [Piece.blank text].intercalate (q :: parts) := by
        simp [List.intercalate]
      have hblank : ∀ k,
          PiecesAt T k j (.blank text :: [Piece.blank text].intercalate (q :: parts)) ↔
            PiecesAt T k j (q :: parts).flatten := fun k => ih
      rw [hsplit, piecesAt_append, List.flatten_cons, piecesAt_append]
      simp only [hblank]

variable {L : Lexeme → Prop}

theorem ProperName.nameAt {x : Ident} (hx : ProperName L x) (h : T i = .word x.name) :
    ∃ x', NameAt T i x' ∧ x'.erase = x.erase := by
  refine ⟨⟨(T i).value, none, .single i⟩, ⟨?_, ?_, rfl⟩, ?_⟩
  · rw [h]
    rfl
  · rw [h]
    exact hx.ofText?
  · have hkeyword := hx.keyword
    rw [h]
    cases x
    cases hkeyword
    rfl

theorem paramsAt_of_pieces {params : List Ident} (hparams : ∀ x ∈ params, ProperName L x)
    (h : PiecesAt T i j (commaSeparated (params.map fun x => [x.piece])))
    (hclose : T j = .fixed .closeParen) :
    ∃ params', ParamsAt T i j params' ∧ params'.map Ident.erase = params.map Ident.erase := by
  induction params generalizing i with
  | nil =>
    obtain rfl : i = j := h
    exact ⟨[], .nil (kind_eq_of_fixed hclose), rfl⟩
  | cons x params ih =>
    rw [List.map_cons, piecesAt_commaSeparated_cons] at h
    obtain ⟨k, hx, hrest⟩ := h
    simp only [piecesAt_ident, piecesAt_nil] at hx
    obtain ⟨hx, rfl⟩ := hx
    obtain ⟨x', hx', hxe⟩ := (hparams x List.mem_cons_self).nameAt hx
    rcases hrest with ⟨hnil, rfl⟩ | ⟨-, hcomma, hrest⟩
    · obtain rfl := List.map_eq_nil_iff.mp hnil
      exact ⟨[x'], .last hx' (kind_eq_of_fixed hclose), by simp [hxe]⟩
    · obtain ⟨params', hparams', he⟩ :=
        ih (fun y hy => hparams y (List.mem_cons_of_mem _ hy)) hrest
      exact ⟨x' :: params', .cons hx' (kind_eq_of_fixed hcomma) hparams', by simp [hxe, he]⟩

/-- A printed header is one, and behind it stands its body. -/
theorem signatureAt_of_pieces {kind : FunctionKind} {name : Option Ident} {params : List Ident}
    (hname : ∀ x ∈ name, ProperName L x) (hparams : ∀ x ∈ params, ProperName L x)
    (h : PiecesAt T i j (Expr.headerPieces kind name params)) :
    ∃ name' params', SignatureAt T i j kind name' params' ∧
      name'.map Ident.erase = name.map Ident.erase ∧
      params'.map Ident.erase = params.map Ident.erase := by
  have hkind : ∀ {l : Lexeme}, l = .word kind.keyword.text →
      l.keyword?.bind Keyword.functionKind? = some kind := by
    intro l hl
    rw [keyword?_of_word hl]
    exact FunctionKind.functionKind?_keyword kind
  cases name with
  | none =>
    simp only [Expr.headerPieces, Ident.listPieces, parenthesized, List.cons_append,
      List.nil_append, List.append_assoc, piecesAt_word, piecesAt_fixed, piecesAt_append,
      piecesAt_space, piecesAt_nil] at h
    obtain ⟨hkey, hopen, k, hps, hclose, harrow, rfl⟩ := h
    obtain ⟨params', hparams', he⟩ := paramsAt_of_pieces hparams hps hclose
    have hno : (T (i + 1)).kind ≠ .word := by
      rw [kind_eq_of_fixed hopen]
      decide
    exact ⟨none, params', .mk (hkind hkey) (.none hno) (kind_eq_of_fixed hopen) hparams'
      (kind_eq_of_fixed hclose) (kind_eq_of_fixed harrow), rfl, he⟩
  | some x =>
    simp only [Expr.headerPieces, Ident.listPieces, parenthesized, List.cons_append,
      List.nil_append, List.append_assoc, piecesAt_word, piecesAt_fixed, piecesAt_append,
      piecesAt_space, piecesAt_nil, piecesAt_ident] at h
    obtain ⟨hkey, hx, hopen, k, hps, hclose, harrow, rfl⟩ := h
    obtain ⟨x', hx', hxe⟩ := (hname x rfl).nameAt hx
    obtain ⟨params', hparams', he⟩ := paramsAt_of_pieces hparams hps hclose
    exact ⟨some x', params', .mk (hkind hkey) (.some hx') (kind_eq_of_fixed hopen) hparams'
      (kind_eq_of_fixed hclose) (kind_eq_of_fixed harrow), by simp [hxe], he⟩

/-- Without a name a header declares nothing. -/
theorem not_declaresAt_of_pieces {kind : FunctionKind} {params : List Ident}
    (h : PiecesAt T i j (Expr.headerPieces kind none params)) : ¬ DeclaresAt T i := by
  simp only [Expr.headerPieces, Ident.listPieces, parenthesized, List.cons_append,
    List.nil_append, List.append_assoc, piecesAt_word, piecesAt_fixed] at h
  rintro ⟨j, kind, name, params, ⟨-, hname, -, -, -, -⟩, -⟩
  cases hname with
  | some hx =>
    have hword := hx.1
    rw [kind_eq_of_fixed h.2.1] at hword
    cases hword

/-- A printed alias is one. Where there is none, no word may follow in an import. -/
theorem ProperAlias.aliasInAt {place : PathPlace} {aliasable : Bool} {localName : Option Ident}
    (ha : ProperAlias L place aliasable localName)
    (h : PiecesAt T i j (Path.aliasPieces localName))
    (hend : place = .importing → (T j).kind ≠ .word) :
    ∃ localName', AliasInAt T place aliasable i j localName' ∧
      localName'.map Ident.erase = localName.map Ident.erase := by
  cases localName with
  | none =>
    obtain rfl : i = j := h
    cases place with
    | importing => exact ⟨none, .importing (.none (hend rfl)), rfl⟩
    | expression => exact ⟨none, .expression, rfl⟩
  | some x =>
    obtain ⟨rfl, rfl, hx⟩ := ha x rfl
    simp only [Path.aliasPieces, piecesAt_space, piecesAt_word, piecesAt_ident,
      piecesAt_nil] at h
    obtain ⟨has, hname, rfl⟩ := h
    obtain ⟨x', hx', hxe⟩ := hx.nameAt hname
    exact ⟨some x', .importing (.some (keyword?_of_word has) hx'), by simp [hxe]⟩

/-- What a printed path may not be followed by. -/
structure PathEnds (T : Nat → Lexeme) (place : PathPlace) (j : Nat) : Prop where
  colon : (T j).kind ≠ .doubleColon
  word : place = .importing → (T j).kind ≠ .word

theorem pathEnds_of_fixed {place : PathPlace} {kind : TokenKind} (h : T j = .fixed kind)
    (hcolon : kind ≠ .doubleColon) (hword : kind ≠ .word) : PathEnds T place j := by
  have hkind := kind_eq_of_fixed h
  exact ⟨hkind ▸ hcolon, fun _ => hkind ▸ hword⟩

/-- Behind a target stands its alias or what follows the path. -/
theorem ProperAlias.pathEnds {place : PathPlace} {aliasable : Bool} {localName : Option Ident}
    (ha : ProperAlias L place aliasable localName)
    (h : PiecesAt T i j (Path.aliasPieces localName)) (hend : PathEnds T place j) :
    (T i).kind ≠ .doubleColon ∧ (aliasable = false → PathEnds T place i) := by
  cases localName with
  | none =>
    obtain rfl : i = j := h
    exact ⟨hend.colon, fun _ => hend⟩
  | some x =>
    obtain ⟨-, rfl, -⟩ := ha x rfl
    simp only [Path.aliasPieces, piecesAt_space, piecesAt_word] at h
    refine ⟨?_, by simp⟩
    rw [h.1]
    decide

/-- A name, a double colon, and a path from there on. -/
def QualifiedAt (T : Nat → Lexeme) (place : PathPlace) (i j : Nat) (p : Path) : Prop :=
  ∃ x p', NameAt T i x ∧ (T (i + 1)).kind = .doubleColon ∧ PathAt T place x (i + 2) j p' ∧
    p'.erase = p.erase

theorem entriesAt_of_pieces {entries : List Path} (hne : entries ≠ [])
    (hentries : ∀ entry ∈ entries, ∀ {i j : Nat}, PiecesAt T i j entry.pieces →
      PathEnds T .importing j → ∃ entry', EntryAt T i j entry' ∧ entry'.erase = entry.erase)
    (h : PiecesAt T i j (commaSeparated (Path.entryPieces entries)))
    (hclose : T j = .fixed .closeCurly) :
    ∃ entries', EntriesAt T i j entries' ∧
      Path.eraseEntries entries' = Path.eraseEntries entries := by
  induction entries generalizing i with
  | nil => exact absurd rfl hne
  | cons entry entries ih =>
    rw [Path.entryPieces, piecesAt_commaSeparated_cons] at h
    obtain ⟨k, hentry, hrest⟩ := h
    have hread := hentries entry List.mem_cons_self hentry
    rcases hrest with ⟨hnil, rfl⟩ | ⟨hsome, hcomma, hrest⟩
    · obtain ⟨entry', hentry', he⟩ := hread (pathEnds_of_fixed hclose (by decide) (by decide))
      obtain rfl : entries = [] := by
        cases entries with
        | nil => rfl
        | cons => cases hnil
      exact ⟨[entry'], .last hentry' (kind_eq_of_fixed hclose), by simp [Path.eraseEntries, he]⟩
    · obtain ⟨entry', hentry', he⟩ := hread (pathEnds_of_fixed hcomma (by decide) (by decide))
      have hmore : entries ≠ [] := by
        rintro rfl
        exact hsome rfl
      obtain ⟨entries', hentries', hes⟩ :=
        ih hmore (fun entry hentry => hentries entry (List.mem_cons_of_mem _ hentry)) hrest
      exact ⟨entry' :: entries', .cons hentry' (kind_eq_of_fixed hcomma) hentries',
        by simp [Path.eraseEntries, he, hes]⟩

mutual

theorem ProperPath.qualifiedAt {place : PathPlace} {p : Path} (hp : ProperPath L place p)
    {i j : Nat} (h : PiecesAt T i j p.pieces) (hend : PathEnds T place j) :
    QualifiedAt T place i j p := by
  match hp with
  | .mk hsegment htarget halias =>
    simp only [Path.pieces, List.cons_append, piecesAt_ident, piecesAt_append] at h
    obtain ⟨hname, k, htargetAt, haliasAt⟩ := h
    obtain ⟨x, hx, hxe⟩ := hsegment.nameAt hname
    obtain ⟨hcolon, hends⟩ := halias.pathEnds haliasAt hend
    obtain ⟨hcolons, target', htarget', hte⟩ := htarget.targetAt htargetAt hcolon hends
    obtain ⟨localName', halias', hae⟩ := halias.aliasInAt haliasAt hend.word
    exact ⟨x, _, hx, hcolons, .mk htarget' halias', by simp [Path.erase, hxe, hte, hae]⟩

theorem ProperTarget.targetAt {place : PathPlace} {target : PathTarget} {aliasable : Bool}
    (ht : ProperTarget L place target aliasable) {i j : Nat}
    (h : PiecesAt T i j (Path.targetPieces target)) (hcolon : (T j).kind ≠ .doubleColon)
    (hends : aliasable = false → PathEnds T place j) :
    (T i).kind = .doubleColon ∧ ∃ target', TargetAt T place (i + 1) j target' aliasable ∧
      target'.erase = target.erase := by
  match ht with
  | .item hx =>
    simp only [Path.targetPieces, piecesAt_fixed, piecesAt_ident, piecesAt_nil] at h
    obtain ⟨hcolons, hname, rfl⟩ := h
    obtain ⟨x', hx', hxe⟩ := hx.nameAt hname
    exact ⟨kind_eq_of_fixed hcolons, .item x', .item hx' hcolon, by simp [PathTarget.erase, hxe]⟩
  | .nested hnext =>
    simp only [Path.targetPieces, piecesAt_fixed] at h
    obtain ⟨hcolons, hnextAt⟩ := h
    obtain ⟨x', next', hx', hcolons', hnext', hne⟩ := hnext.qualifiedAt hnextAt (hends rfl)
    exact ⟨kind_eq_of_fixed hcolons, .nested next', .nested hx' hcolons' hnext',
      by simp [PathTarget.erase, hne]⟩
  | .wildcard =>
    simp only [Path.targetPieces, piecesAt_fixed, piecesAt_nil] at h
    obtain ⟨hcolons, hstar, rfl⟩ := h
    exact ⟨kind_eq_of_fixed hcolons, _, .wildcard (kind_eq_of_fixed hstar), rfl⟩
  | .group hne hentries =>
    simp only [Path.targetPieces, List.cons_append, piecesAt_fixed, piecesAt_append,
      piecesAt_nil] at h
    obtain ⟨hcolons, hopen, k, hentriesAt, hclose, rfl⟩ := h
    obtain ⟨entries', hentries', he⟩ := entriesAt_of_pieces hne
      (fun entry hentry _ _ h hend => (hentries entry hentry).entryAt h hend) hentriesAt hclose
    cases entries' with
    | nil => cases hentries'
    | cons entry' entries' =>
      exact ⟨kind_eq_of_fixed hcolons, _,
        .group (kind_eq_of_fixed hopen) hentries' (kind_eq_of_fixed hclose),
        by rw [PathTarget.erase, PathTarget.erase, he]⟩

theorem ProperEntry.entryAt {entry : Path} (hentry : ProperEntry L entry) {i j : Nat}
    (h : PiecesAt T i j entry.pieces) (hend : PathEnds T .importing j) :
    ∃ entry', EntryAt T i j entry' ∧ entry'.erase = entry.erase := by
  match hentry with
  | .leaf hsegment halias =>
    simp only [Path.pieces, Path.targetPieces, List.cons_append, List.nil_append,
      piecesAt_ident] at h
    obtain ⟨hname, haliasAt⟩ := h
    obtain ⟨x, hx, hxe⟩ := hsegment.nameAt hname
    have hcolon := (halias.pathEnds haliasAt hend).1
    obtain ⟨localName', halias', hae⟩ := halias.aliasInAt haliasAt hend.word
    cases halias' with
    | importing halias' =>
      exact ⟨_, .leaf hx hcolon halias', by simp [Path.erase, PathTarget.erase, hxe, hae]⟩
  | .path hp =>
    obtain ⟨x, p', hx, hcolons, hpath, he⟩ := hp.qualifiedAt h hend
    exact ⟨p', .path hx hcolons hpath, he⟩

end

end FrontEnd.Grammar
