import FrontEnd.Proofs.Extent
import FrontEnd.Proofs.Leaves
import FrontEnd.Proofs.Reading.Program

/-! Tokens are conserved. Between the two ends of what was read, every token is a leaf of the tree
or one of the tokens that only mark the structure, and the leaves come in the order of the
tokens. -/
namespace FrontEnd

/-- A token that is never a leaf: brackets, separators, arrows, and keywords that open something. -/
def Lexeme.Mute (lexeme : Lexeme) : Prop :=
  lexeme.kind ∈ [.openParen, .closeParen, .openCurly, .closeCurly, .comma, .semicolon,
      .doubleColon, .arrow] ∨
    ∃ keyword ∈ [Keyword.letKey, .varKey, .actionKey, .computeKey, .returnKey, .importKey,
      .externKey], lexeme.keyword? = some keyword

namespace Grammar

section

variable (T : Nat → Lexeme)

/-- The leaf is the token at the place. -/
def LeafAt (i : Nat) (leaf : Leaf) : Prop :=
  leaf.span = .single i ∧ leaf.Says (T i)

/-- Beside its leaves a tree leaves these tokens out: mute ones, the sign between a variable and
its value, and the word before the name that something is imported under. -/
def Silent (leaves : List Leaf) (i : Nat) (lexeme : Lexeme) : Prop :=
  lexeme.Mute ∨
    (lexeme.kind = .assign ∧ ∃ x, Leaf.ident .binding x ∈ leaves ∧ x.span.stop = i) ∨
    (lexeme.keyword? = some .asKey ∧
      ∃ x, Leaf.ident .importAlias x ∈ leaves ∧ x.span.start = i + 1)

/-- The tokens from one place up to another are accounted for by the leaves: each leaf is one of
them, in this order, and what is no leaf is silent. -/
structure Accounts (i j : Nat) (leaves : List Leaf) : Prop where
  le : i ≤ j
  leafAt : ∀ leaf ∈ leaves, ∃ k, i ≤ k ∧ k < j ∧ LeafAt T k leaf
  ordered : leaves.Pairwise fun a b => a.span.stop ≤ b.span.start
  covered : ∀ k, i ≤ k → k < j →
    (∃ leaf ∈ leaves, leaf.span = .single k) ∨ Silent leaves k (T k)

end

variable {T : Nat → Lexeme} {i j k : Nat}

theorem mute_of_kind {lexeme : Lexeme} {kind : TokenKind} (h : lexeme.kind = kind)
    (hkind : kind ∈ [TokenKind.openParen, .closeParen, .openCurly, .closeCurly, .comma,
      .semicolon, .doubleColon, .arrow]) : lexeme.Mute :=
  .inl (h ▸ hkind)

theorem mute_of_keyword {lexeme : Lexeme} {keyword : Keyword} (h : lexeme.keyword? = some keyword)
    (hkeyword : keyword ∈ [Keyword.letKey, .varKey, .actionKey, .computeKey, .returnKey,
      .importKey, .externKey]) : lexeme.Mute :=
  .inr ⟨keyword, hkeyword, h⟩

theorem NameAt.leafAt {x : Ident} (h : NameAt T i x) (role : Role) :
    LeafAt T i (.ident role x) := by
  obtain ⟨hword, hkey, rfl⟩ := h
  exact ⟨rfl, hword, hkey, rfl⟩

theorem Silent.mono {leaves more : List Leaf} {lexeme : Lexeme} (h : Silent leaves i lexeme)
    (hmore : leaves ⊆ more) : Silent more i lexeme := by
  rcases h with h | ⟨hassign, x, hx, hspan⟩ | ⟨has, x, hx, hspan⟩
  · exact .inl h
  · exact .inr (.inl ⟨hassign, x, hmore hx, hspan⟩)
  · exact .inr (.inr ⟨has, x, hmore hx, hspan⟩)

namespace Accounts

variable {leaves more : List Leaf}

theorem nil : Accounts T i i [] :=
  ⟨Nat.le_refl i, by simp, .nil, by omega⟩

theorem append (h : Accounts T i k leaves) (h' : Accounts T k j more) :
    Accounts T i j (leaves ++ more) where
  le := Nat.le_trans h.le h'.le
  leafAt leaf hmem := by
    rcases List.mem_append.mp hmem with hmem | hmem
    · obtain ⟨m, him, hmk, hleaf⟩ := h.leafAt leaf hmem
      exact ⟨m, him, Nat.lt_of_lt_of_le hmk h'.le, hleaf⟩
    · obtain ⟨m, hkm, hmj, hleaf⟩ := h'.leafAt leaf hmem
      exact ⟨m, Nat.le_trans h.le hkm, hmj, hleaf⟩
  ordered := by
    refine List.pairwise_append.mpr ⟨h.ordered, h'.ordered, ?_⟩
    intro a ha b hb
    obtain ⟨m, -, hm, hspan, -⟩ := h.leafAt a ha
    obtain ⟨m', hm', -, hspan', -⟩ := h'.leafAt b hb
    rw [hspan, hspan']
    show m + 1 ≤ m'
    omega
  covered m him hmj := by
    by_cases hmk : m < k
    · rcases h.covered m him hmk with ⟨leaf, hmem, hspan⟩ | hsilent
      · exact .inl ⟨leaf, List.mem_append_left _ hmem, hspan⟩
      · exact .inr (hsilent.mono (List.subset_append_left _ _))
    · rcases h'.covered m (Nat.le_of_not_lt hmk) hmj with ⟨leaf, hmem, hspan⟩ | hsilent
      · exact .inl ⟨leaf, List.mem_append_right _ hmem, hspan⟩
      · exact .inr (hsilent.mono (List.subset_append_right _ _))

theorem single {leaf : Leaf} (h : LeafAt T i leaf) : Accounts T i (i + 1) [leaf] where
  le := Nat.le_succ i
  leafAt leaf' hmem := by
    obtain rfl := List.mem_singleton.mp hmem
    exact ⟨i, Nat.le_refl i, Nat.lt_succ_self i, h⟩
  ordered := List.pairwise_singleton _ _
  covered k hik hk := by
    obtain rfl : k = i := by omega
    exact .inl ⟨leaf, List.mem_singleton_self _, h.1⟩

theorem leaf {leaf : Leaf} (h : LeafAt T i leaf) (hrest : Accounts T (i + 1) j leaves) :
    Accounts T i j (leaf :: leaves) :=
  (single h).append hrest

/-- A token that is no leaf. -/
theorem silent (h : Silent leaves i (T i)) (hrest : Accounts T (i + 1) j leaves) :
    Accounts T i j leaves where
  le := Nat.le_of_succ_le hrest.le
  leafAt leaf hmem := by
    obtain ⟨k, hik, hk⟩ := hrest.leafAt leaf hmem
    exact ⟨k, Nat.le_of_succ_le hik, hk⟩
  ordered := hrest.ordered
  covered k hik hkj := by
    rcases Nat.lt_or_eq_of_le hik with hlt | rfl
    · exact hrest.covered k hlt hkj
    · exact .inr h

theorem mute (h : (T i).Mute) (hrest : Accounts T (i + 1) j leaves) : Accounts T i j leaves :=
  hrest.silent (.inl h)

/-- A variable and the sign behind it. -/
theorem binding {x : Ident} (h : LeafAt T i (.ident .binding x))
    (hassign : (T (i + 1)).kind = .assign) (hrest : Accounts T (i + 2) j leaves) :
    Accounts T i j (.ident .binding x :: leaves) := by
  have hboth : Accounts T i (i + 2) [.ident .binding x] := by
    refine ⟨by omega, ?_, List.pairwise_singleton _ _, ?_⟩
    · intro leaf hmem
      obtain rfl := List.mem_singleton.mp hmem
      exact ⟨i, Nat.le_refl i, by omega, h⟩
    · intro k hik hk
      have hspan : x.span = .single i := h.1
      rcases Nat.lt_or_eq_of_le hik with hlt | rfl
      · obtain rfl : k = i + 1 := by omega
        exact .inr (.inr (.inl ⟨hassign, x, List.mem_cons_self, by rw [hspan]; rfl⟩))
      · exact .inl ⟨_, List.mem_cons_self, h.1⟩
  exact hboth.append hrest

/-- The word before the name that something is imported under, and that name. -/
theorem importAlias {x : Ident} (has : (T i).keyword? = some .asKey)
    (h : LeafAt T (i + 1) (.ident .importAlias x)) (hrest : Accounts T (i + 2) j leaves) :
    Accounts T i j (.ident .importAlias x :: leaves) := by
  have hspan : x.span = .single (i + 1) := h.1
  exact (hrest.leaf h).silent
    (.inr (.inr ⟨has, x, List.mem_cons_self, by rw [hspan]; rfl⟩))

/-- A mute token behind the leaves. -/
theorem close (h : Accounts T i j leaves) (hmute : (T j).Mute) :
    Accounts T i (j + 1) leaves := by
  have hclose := h.append (.mute hmute (.nil (i := j + 1)))
  rwa [List.append_nil] at hclose

end Accounts

theorem OptionalNameAt.accounts {name : Option Ident} (h : OptionalNameAt T i j name) :
    Accounts T i j (Leaf.ofNames name.toList) := by
  cases h with
  | none => exact .nil
  | some h => exact .single (h.leafAt .plain)

theorem ParamsAt.accounts {params : List Ident} (h : ParamsAt T i j params) :
    Accounts T i j (Leaf.ofNames params) := by
  induction h with
  | nil _ => exact .nil
  | last h _ => exact .single (h.leafAt .plain)
  | cons h hcomma _ ih => exact .leaf (h.leafAt .plain) (.mute (mute_of_kind hcomma (by simp)) ih)

theorem SignatureAt.accounts {kind : FunctionKind} {name : Option Ident} {params : List Ident}
    (h : SignatureAt T i j kind name params) :
    Accounts T i j (Leaf.ofNames (name.toList ++ params)) := by
  obtain ⟨hkind, hname, hopen, hparams, hclose, harrow⟩ := h
  obtain ⟨keyword, hkey, hfunction⟩ := Option.bind_eq_some_iff.mp hkind
  have hmute : (T i).Mute := by
    refine mute_of_keyword hkey ?_
    cases keyword <;> simp [Keyword.functionKind?] at hfunction ⊢
  have hrest := (hparams.accounts.close (mute_of_kind hclose (by simp))).close
    (mute_of_kind harrow (by simp))
  have hall := hname.accounts.append (.mute (mute_of_kind hopen (by simp)) hrest)
  rw [Leaf.ofNames, List.map_append]
  exact .mute hmute hall

theorem AliasAt.accounts {allowed : Bool} {x : Option Ident} (h : AliasAt T allowed i j x) :
    Accounts T i j (Leaf.ofAlias x) := by
  cases h with
  | none _ => exact .nil
  | some has h => exact .importAlias has (h.leafAt _) .nil

theorem AliasInAt.accounts {place : PathPlace} {allowed : Bool} {x : Option Ident}
    (h : AliasInAt T place allowed i j x) : Accounts T i j (Leaf.ofAlias x) := by
  cases h with
  | importing h => exact h.accounts
  | expression => exact .nil

mutual

/-- The leaves of a path behind its first segment. -/
theorem PathAt.accounts {place : PathPlace} {segment : Ident} {i j : Nat} {p : Path}
    (h : PathAt T place segment i j p) :
    ∃ leaves, p.leaves = .ident .plain segment :: leaves ∧ Accounts T i j leaves := by
  match h with
  | .mk htarget halias =>
    exact ⟨_, Path.leaves.eq_1 .., htarget.accounts.append halias.accounts⟩

theorem TargetAt.accounts {place : PathPlace} {i j : Nat} {target : PathTarget}
    {aliasable : Bool} (h : TargetAt T place i j target aliasable) :
    Accounts T i j (Path.targetLeaves target) := by
  match h with
  | .item h _ =>
    simp only [Path.targetLeaves]
    exact .single (h.leafAt .plain)
  | .nested h hcolon hnext =>
    obtain ⟨leaves, heq, hrest⟩ := hnext.accounts
    simp only [Path.targetLeaves, heq]
    exact .leaf (h.leafAt .plain) (.mute (mute_of_kind hcolon (by simp)) hrest)
  | .wildcard h =>
    simp only [Path.targetLeaves]
    exact .single ⟨rfl, h⟩
  | .group h hentries hclose =>
    simp only [Path.targetLeaves]
    exact .mute (mute_of_kind h (by simp))
      (hentries.accounts.close (mute_of_kind hclose (by simp)))

theorem EntriesAt.accounts {i j : Nat} {entries : List Path} (h : EntriesAt T i j entries) :
    Accounts T i j (Path.entriesLeaves entries) := by
  match h with
  | .last h _ =>
    simp only [Path.entriesLeaves, List.append_nil]
    exact h.accounts
  | .cons h hcomma hentries =>
    simp only [Path.entriesLeaves]
    exact (h.accounts.close (mute_of_kind hcomma (by simp))).append hentries.accounts

theorem EntryAt.accounts {i j : Nat} {entry : Path} (h : EntryAt T i j entry) :
    Accounts T i j entry.leaves := by
  match h with
  | .leaf h _ halias =>
    simp only [Path.leaves, Path.targetLeaves, List.nil_append]
    exact .leaf (h.leafAt .plain) halias.accounts
  | .path h hcolon hpath =>
    obtain ⟨leaves, heq, hrest⟩ := hpath.accounts
    rw [heq]
    exact .leaf (h.leafAt .plain) (.mute (mute_of_kind hcolon (by simp)) hrest)

end

mutual

theorem ExprAt.accounts {i j : Nat} {e : Expr} (h : ExprAt T i j e) :
    Accounts T i j (Tree.exprLeaves e) := by
  match h with
  | .mk hu hlinks hgroup _ =>
    rw [Tree.exprLeaves_of_grouped hgroup]
    exact hu.accounts.append hlinks.accounts

theorem LinksAt.accounts {i j : Nat} {links : Links} (h : LinksAt T i j links) :
    Accounts T i j (Tree.linksLeaves links) := by
  match h with
  | .nil => exact .nil
  | .cons hop hu hlinks =>
    have hrest := hu.accounts.append hlinks.accounts
    simp only [Tree.linksLeaves, List.flatMap_cons, List.cons_append]
    exact .leaf ⟨rfl, hop⟩ hrest

theorem OperandAt.accounts {i j : Nat} {e : Expr} (h : OperandAt T i j e) :
    Accounts T i j (Tree.exprLeaves e) := by
  match h with
  | .before hop he =>
    simp only [Tree.exprLeaves]
    exact .leaf ⟨rfl, hop⟩ he.accounts
  | .called hcallee hcalls => exact hcalls.accounts hcallee.accounts

/-- The leaves of a called value come before those of the arguments. -/
theorem CallsAt.accounts {i j k : Nat} {callee e : Expr} (h : CallsAt T i j callee e)
    (hcallee : Accounts T k i (Tree.exprLeaves callee)) :
    Accounts T k j (Tree.exprLeaves e) := by
  match h with
  | .done _ => exact hcallee
  | .call hargs hcalls =>
    refine hcalls.accounts ?_
    simp only [Tree.exprLeaves]
    exact hcallee.append hargs.accounts

theorem ArgumentsAt.accounts {i j : Nat} {args : List Expr} (h : ArgumentsAt T i j args) :
    Accounts T i j (Tree.exprsLeaves args) := by
  match h with
  | .mk hopen hargs =>
    exact .mute (mute_of_kind hopen (by simp))
      (hargs.accounts.close (mute_of_kind hargs.closeParen (by simp)))

theorem ExprsAt.accounts {i j : Nat} {es : List Expr} (h : ExprsAt T i j es) :
    Accounts T i j (Tree.exprsLeaves es) := by
  match h with
  | .nil _ =>
    simp only [Tree.exprsLeaves]
    exact .nil
  | .last he _ =>
    simp only [Tree.exprsLeaves, List.append_nil]
    exact he.accounts
  | .cons he hcomma hes =>
    simp only [Tree.exprsLeaves]
    exact (he.accounts.close (mute_of_kind hcomma (by simp))).append hes.accounts

theorem PrimaryAt.accounts {i j : Nat} {e : Expr} (h : PrimaryAt T i j e) :
    Accounts T i j (Tree.exprLeaves e) := by
  match h with
  | .literal h =>
    simp only [Tree.exprLeaves]
    exact .single ⟨rfl, h, rfl⟩
  | .path h hcolon hpath =>
    obtain ⟨leaves, heq, hrest⟩ := hpath.accounts
    simp only [Tree.exprLeaves, heq]
    exact .leaf (h.leafAt .plain) (.mute (mute_of_kind hcolon (by simp)) hrest)
  | .call h hargs =>
    simp only [Tree.exprLeaves]
    exact .leaf (h.leafAt .plain) hargs.accounts
  | .ident h _ _ =>
    simp only [Tree.exprLeaves]
    exact .single (h.leafAt .plain)
  | .unit hopen hclose =>
    simp only [Tree.exprLeaves, Tree.exprsLeaves]
    exact .mute (mute_of_kind hopen (by simp)) (.mute (mute_of_kind hclose (by simp)) .nil)
  | .grouping hopen he hclose =>
    exact .mute (mute_of_kind hopen (by simp))
      (he.accounts.close (mute_of_kind hclose (by simp)))
  | .tuple hopen he hcomma hes =>
    simp only [Tree.exprLeaves, Tree.exprsLeaves]
    exact .mute (mute_of_kind hopen (by simp))
      ((he.accounts.close (mute_of_kind hcomma (by simp))).append
        (hes.accounts.close (mute_of_kind hes.closeParen (by simp))))
  | .block h =>
    simp only [Tree.exprLeaves]
    exact h.accounts
  | .compute hheader hbody =>
    simp only [Tree.exprLeaves]
    exact hheader.accounts.append hbody.accounts
  | .action hheader hbody _ =>
    simp only [Tree.exprLeaves]
    exact hheader.accounts.append hbody.accounts

theorem BlockAt.accounts {i j : Nat} {b : Block} (h : BlockAt T i j b) :
    Accounts T i j (Tree.blockLeaves b) := by
  match h with
  | .mk hopen hitems hclose =>
    simp only [Tree.blockLeaves]
    exact .mute (mute_of_kind hopen (by simp))
      (hitems.accounts.close (mute_of_kind hclose (by simp)))

theorem ItemsAt.accounts {i j : Nat} {stmts : List Stmt} {tail : Option Expr}
    (h : ItemsAt T i j stmts tail) :
    Accounts T i j (Tree.stmtsLeaves stmts ++ Tree.tailLeaves tail) := by
  match h with
  | .nil _ =>
    simp only [Tree.stmtsLeaves, Tree.tailLeaves, List.append_nil]
    exact .nil
  | .tail _ he _ =>
    simp only [Tree.stmtsLeaves, Tree.tailLeaves, List.nil_append]
    exact he.accounts
  | .functionTail _ _ he _ =>
    simp only [Tree.stmtsLeaves, Tree.tailLeaves, List.nil_append]
    exact he.accounts
  | .stmt hs _ hstmts =>
    simp only [Tree.stmtsLeaves, List.append_assoc]
    exact hs.accounts.append hstmts.accounts

theorem StmtAt.accounts {i j : Nat} {stmt : Stmt} (h : StmtAt T i j stmt) :
    Accounts T i j (Tree.stmtLeaves stmt) := by
  match h with
  | .expr _ he hsemi _ =>
    simp only [Tree.stmtLeaves]
    exact he.accounts.close (mute_of_kind hsemi (by simp))
  | @StmtAt.binding _ _ _ _ mutable _ _ hlet hmutable hk h hassign hvalue hsemi =>
    simp only [Tree.stmtLeaves]
    have hrest := hvalue.accounts.close (mute_of_kind hsemi (by simp))
    have hname := Accounts.binding (h.leafAt .binding) hassign hrest
    refine .mute (mute_of_keyword hlet (by simp)) ?_
    subst hk
    cases mutable with
    | false => exact hname
    | true =>
      have hvar : (T (i + 1)).keyword? = some .varKey := by
        simpa [Lexeme.isKeyword] using hmutable.symm
      exact .mute (mute_of_keyword hvar (by simp)) hname
  | .function hheader hbody _ =>
    simp only [Tree.stmtLeaves]
    exact hheader.accounts.append hbody.accounts
  | .returning hreturn hvalue hsemi =>
    simp only [Tree.stmtLeaves]
    exact .mute (mute_of_keyword hreturn (by simp))
      (hvalue.accounts.close (mute_of_kind hsemi (by simp)))
  | .importResource himport hext hstring has hx hsemi =>
    simp only [Tree.stmtLeaves]
    have hliteral : LiteralKind.ofLexeme? (T (i + 2)) = some .string := by
      simp [LiteralKind.ofLexeme?, hstring]
    exact .mute (mute_of_keyword himport (by simp)) (.mute (mute_of_keyword hext (by simp))
      (.leaf ⟨rfl, hliteral, rfl⟩ (.importAlias has (hx.leafAt _)
        (.mute (mute_of_kind hsemi (by simp)) .nil))))
  | .importPath himport hx hcolon hpath hsemi =>
    obtain ⟨leaves, heq, hrest⟩ := hpath.accounts
    simp only [Tree.stmtLeaves, heq]
    exact .mute (mute_of_keyword himport (by simp)) (.leaf (hx.leafAt .plain)
      (.mute (mute_of_kind hcolon (by simp)) (hrest.close (mute_of_kind hsemi (by simp)))))

end

theorem ProgramAt.accounts {stmts : List Stmt} (h : ProgramAt T i j stmts) :
    Accounts T i j (Tree.stmtsLeaves stmts) := by
  induction h with
  | nil _ =>
    simp only [Tree.stmtsLeaves]
    exact .nil
  | cons hs _ ih =>
    simp only [Tree.stmtsLeaves]
    exact hs.accounts.append ih

end Grammar

namespace Program

open Grammar

/-- The tokens of a program that is accepted are conserved, up to the first end mark. The leaves of
the program are single tokens, in order. A token is one leaf, which says what the token says, or it
is none and is left out because it only marks the structure. -/
theorem ofTokens_conserves {tokens : List Token} {program : Program}
    (h : ofTokens tokens = .ok program) :
    (∀ leaf ∈ program.leaves, ∃ i < tokens.findIdx (·.kind == .endMark),
      leaf.span = .single i) ∧
    program.leaves.Pairwise (fun a b => a.span.start < b.span.start) ∧
    ∀ i token, i < tokens.findIdx (·.kind == .endMark) → tokens[i]? = some token →
      ((program.leaves.map Leaf.span).count (.single i) = 1 ∧
        ∀ leaf ∈ program.leaves, leaf.span = .single i → leaf.Says token.toLexeme) ∨
      ((program.leaves.map Leaf.span).count (.single i) = 0 ∧
        Silent program.leaves i token.toLexeme) := by
  have hprogram := programAt_of_ofTokens h
  rw [TokenStream.limit_ofTokens] at hprogram
  have haccounts : Accounts _ 0 _ program.leaves := hprogram.accounts
  have hordered : program.leaves.Pairwise (fun a b => a.span.start < b.span.start) := by
    refine haccounts.ordered.imp_of_mem ?_
    intro a b ha _ hab
    obtain ⟨k, -, -, hspan, -⟩ := haccounts.leafAt a ha
    rw [hspan] at hab ⊢
    exact hab
  have hnodup : (program.leaves.map Leaf.span).Nodup := by
    refine List.pairwise_map.mpr (hordered.imp ?_)
    intro a b hlt heq
    rw [heq] at hlt
    exact Nat.lt_irrefl _ hlt
  refine ⟨?_, hordered, ?_⟩
  · intro leaf hmem
    obtain ⟨k, -, hk, hspan, -⟩ := haccounts.leafAt leaf hmem
    exact ⟨k, hk, hspan⟩
  · intro i token hi htoken
    have hlexeme : (State.ofTokens tokens).lexeme i = token.toLexeme :=
      TokenStream.lexeme_ofTokens htoken
    -- a token is a leaf, and then the only one there, or it marks the structure
    by_cases hmem : TokenRange.single i ∈ program.leaves.map Leaf.span
    · refine .inl ⟨by rw [hnodup.count, if_pos hmem], ?_⟩
      intro leaf hleaf hspan
      obtain ⟨k, -, -, hspan', hsays⟩ := haccounts.leafAt leaf hleaf
      have hk : i = k := by
        rw [hspan] at hspan'
        exact congrArg TokenRange.start hspan'
      rw [← hlexeme, hk]
      exact hsays
    · refine .inr ⟨List.count_eq_zero_of_not_mem hmem, ?_⟩
      rw [← hlexeme]
      refine (haccounts.covered i (Nat.zero_le i) hi).resolve_left ?_
      rintro ⟨leaf, hleaf, hspan⟩
      exact hmem (List.mem_map.mpr ⟨leaf, hleaf, hspan⟩)

/-- The tokens of `let x = 1;`, without an end mark. -/
def declarationTokens : List Token :=
  [⟨.word "let", ⟨0, 3⟩, 0⟩, ⟨.word "x", ⟨4, 5⟩, 0⟩, ⟨.fixed .assign, ⟨6, 7⟩, 0⟩,
    ⟨⟨.integer, "1", some .decimal⟩, ⟨8, 9⟩, 0⟩, ⟨.fixed .semicolon, ⟨9, 10⟩, 0⟩]

/-- Of the five tokens of a declaration the name and the value are leaves. -/
theorem ofTokens_conserves_declaration :
    ∃ program, ofTokens declarationTokens = .ok program ∧
      program.leaves.map Leaf.span = [.single 1, .single 3] ∧
      program.leaves.Pairwise (fun a b => a.span.start < b.span.start) := by
  have hspans : (ofTokens declarationTokens).toOption.map (·.leaves.map Leaf.span) =
      some [.single 1, .single 3] := by
    decide +kernel
  cases hrun : ofTokens declarationTokens with
  | error e =>
    rw [hrun] at hspans
    cases hspans
  | ok program =>
    rw [hrun] at hspans
    exact ⟨program, rfl, Option.some.inj hspans, (ofTokens_conserves hrun).2.1⟩

end Program

end FrontEnd
