import FrontEnd.Proofs.Mirror.Statement
import FrontEnd.Proofs.Safety
import FrontEnd.Proofs.Spacing
import Mathlib.Data.List.TakeWhile

/-! What reading a program sees of its tokens: kinds, values and radixes up to the first end mark.
Byte ranges, indices, what the end mark itself says and all that stands behind it are of no
account. -/
namespace FrontEnd

namespace Grammar

open Parse

variable {d : Nat}

namespace Mirrors

theorem programRound (stmts : Array Stmt) :
    Mirrors Eq d (programRound stmts) (programRound stmts) := by
  apply hasTokens.bind
  intro more
  refine ite ?_ (pure _)
  apply (atDepth fun hg => statement hg false).attempt.bind
  intro r
  cases r with
  | error e => exact resume e _
  | ok stmt? =>
    cases stmt? with
    | none => exact pure _
    | some stmt => exact pure _

theorem programEnd (stmts : Array Stmt) :
    Mirrors Eq d (programEnd stmts) (programEnd stmts) := by
  apply look
  intro a b h
  simp only [h.kind, h.text]
  apply ite (pure _)
  apply (diagnosticHere _).bind
  intro e
  exact (record e).bind fun _ => pure _

theorem program : Mirrors Eq d program program :=
  (loop programRound _).bind programEnd

end Mirrors

end Grammar

namespace Token

/-- The tokens before the first end mark. -/
def beforeEnd (tokens : List Token) : List Token :=
  tokens.takeWhile fun token => token.kind != .endMark

theorem kind_of_mem_beforeEnd {tokens : List Token} {token : Token}
    (h : token ∈ beforeEnd tokens) : token.kind ≠ .endMark := by
  simpa using List.mem_takeWhile_imp h

/-- Behind the tokens before the end mark nothing follows, or an end mark does. -/
theorem beforeEnd_eq_or (tokens : List Token) :
    beforeEnd tokens = tokens ∨ ∃ mark rest, mark.kind = .endMark ∧
      tokens = beforeEnd tokens ++ mark :: rest := by
  induction tokens with
  | nil => exact .inl rfl
  | cons token rest ih =>
    by_cases hk : token.kind = .endMark
    · right
      exact ⟨token, rest, hk, by simp [beforeEnd, hk]⟩
    · have hcons : beforeEnd (token :: rest) = token :: beforeEnd rest := by
        simp [beforeEnd, hk]
      rw [hcons]
      rcases ih with ih | ⟨mark, more, hmark, ih⟩
      · exact .inl (by rw [ih])
      · exact .inr ⟨mark, more, hmark, by rw [List.cons_append, ← ih]⟩

end Token

namespace Program

open Grammar

/-- Where an end mark follows that the first list lacks, the two streams look the same. -/
theorem seen_ofTokens_append {front rest : List Token} {mark : Token}
    (hfront : ∀ token ∈ front, token.kind ≠ .endMark) (hmark : mark.kind = .endMark) {i : Nat}
    (hi : i ≤ front.length) :
    ((TokenStream.ofTokens (front ++ mark :: rest)).lexeme i).seen =
      ((TokenStream.ofTokens front).lexeme i).seen := by
  by_cases hlt : i < front.length
  · have hleft := List.getElem?_eq_getElem hlt
    have hright : (front ++ mark :: rest)[i]? = some front[i] := by
      rw [List.getElem?_append_left hlt, hleft]
    rw [TokenStream.lexeme_ofTokens hleft, TokenStream.lexeme_ofTokens hright]
  · obtain rfl : i = front.length := by omega
    have hright : (front ++ mark :: rest)[front.length]? = some mark := by simp
    rw [TokenStream.lexeme_ofTokens hright, Lexeme.seen_of_endMark hmark,
      Lexeme.seen_of_endMark (TokenStream.kind_length_ofTokens hfront)]

theorem alike_append {front : List Token} {mark : Token}
    (hfront : ∀ token ∈ front, token.kind ≠ .endMark) (hmark : mark.kind = .endMark)
    (rest : List Token) :
    Alike 0 (.ofTokens front) (.ofTokens (front ++ mark :: rest)) where
  seen i hi := by
    apply seen_ofTokens_append hfront hmark
    have hlimit : i ≤ (TokenStream.ofTokens front).limit := hi
    rw [TokenStream.limit_ofTokens] at hlimit
    exact Nat.le_trans hlimit List.findIdx_le_length
  size := by
    show (TokenStream.ofTokens _).tokens.size ≤ (TokenStream.ofTokens _).tokens.size
    have hleft := TokenStream.length_close_append hfront []
    have hright := TokenStream.length_close_append hfront (mark :: rest)
    have hpos := List.length_pos_iff.mpr (TokenStream.close_ne_nil (mark :: rest))
    have hnil : (TokenStream.close []).length = 1 := rfl
    rw [List.append_nil] at hleft
    rw [TokenStream.size_ofTokens, TokenStream.size_ofTokens]
    omega
  pos := rfl
  errors := rfl
  depth := rfl
  depth' := rfl
  valid := State.valid_ofTokens _

/-- An end mark, whatever it says, ends a program as the end of the list does. -/
theorem ofTokens_append_endMark {front rest : List Token} {mark : Token}
    (hfront : ∀ token ∈ front, token.kind ≠ .endMark) (hmark : mark.kind = .endMark) :
    ofTokens front = ofTokens (front ++ mark :: rest) := by
  have hrun := Mirrors.program (alike_append hfront hmark rest)
  have hfault := ofTokens_ne_fault front
  unfold ofTokens at hfault ⊢
  generalize program (.ofTokens front) = o at hrun hfault ⊢
  generalize program (.ofTokens (front ++ mark :: rest)) = o' at hrun ⊢
  cases hrun with
  | ok hab hst => simp only [hab, hst.errors]
  | error hst => simp only [hst.errors]
  | fault => exact absurd rfl (hfault _)

/-- What follows the first end mark is of no account, and so is what the end mark says. -/
theorem ofTokens_beforeEnd (tokens : List Token) :
    ofTokens (Token.beforeEnd tokens) = ofTokens tokens := by
  rcases Token.beforeEnd_eq_or tokens with h | ⟨mark, rest, hmark, h⟩
  · rw [h]
  · conv_rhs => rw [h]
    exact ofTokens_append_endMark (fun _ => Token.kind_of_mem_beforeEnd) hmark

/-- A program depends on kinds, values and radixes of the tokens before the first end mark and on
nothing else: two lists of tokens that agree in these are read as the same program, with the same
ranges, or refused with the same diagnostics. -/
theorem ofTokens_eq_of_beforeEnd {tokens tokens' : List Token}
    (h : (Token.beforeEnd tokens).map (·.toLexeme) = (Token.beforeEnd tokens').map (·.toLexeme)) :
    ofTokens tokens = ofTokens tokens' := by
  rw [← ofTokens_beforeEnd tokens, ← ofTokens_beforeEnd tokens']
  exact ofTokens_congr h

/-- The tokens of `return f(0x1);`. -/
def returnedTokens : List Token :=
  [⟨.word "return", ⟨0, 6⟩, 0⟩, ⟨.word "f", ⟨7, 8⟩, 1⟩, ⟨.fixed .openParen, ⟨8, 9⟩, 2⟩,
    ⟨⟨.integer, "0x1", some .hex⟩, ⟨9, 12⟩, 3⟩, ⟨.fixed .closeParen, ⟨12, 13⟩, 4⟩,
    ⟨.fixed .semicolon, ⟨13, 14⟩, 5⟩]

/-- The same tokens at other places, before an end mark that says something else and a token that
no statement starts with. -/
def forgedTokens : List Token :=
  returnedTokens.map (fun token => { token with span := ⟨8, 3⟩, index := 40 }) ++
    [⟨⟨.endMark, "return", some .octal⟩, ⟨5, 2⟩, 1⟩, ⟨.fixed .closeCurly, ⟨0, 0⟩, 0⟩]

/-- Where the places are forged, the ranges are those of the tokens all the same. -/
theorem ofTokens_forged :
    ∃ program, ofTokens forgedTokens = .ok program ∧ program.span = ⟨0, 6⟩ ∧
      ofTokens returnedTokens = .ok program := by
  have hspan : (ofTokens returnedTokens).toOption.map (·.span) = some ⟨0, 6⟩ := by
    decide +kernel
  have heq : ofTokens forgedTokens = ofTokens returnedTokens :=
    ofTokens_eq_of_beforeEnd (by decide)
  cases hrun : ofTokens returnedTokens with
  | error e =>
    rw [hrun] at hspan
    cases hspan
  | ok program =>
    rw [hrun] at hspan heq
    exact ⟨program, heq, Option.some.inj hspan, rfl⟩

end Program

end FrontEnd
