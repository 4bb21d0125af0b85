import FrontEnd.Lexical.Pattern
import Mathlib.Data.List.Basic

/-! Each pattern has one rule and matches where that rule applies. The first pattern that matches is
that of the first rule that applies. -/
namespace FrontEnd.Lexical

open Text

variable {c : Char} {rest text : List Char} {pattern : Pattern}

namespace Pattern

/-- The rule of a pattern, on a text that begins with `c`. -/
def rule : Pattern → Char → List Char → Except LexicalCause Reading
  | .blanks, c, rest => .ok (Lexical.blanks (c :: rest))
  | .lineComment, c, rest => .ok (Lexical.lineComment (c :: rest))
  | .blockComment, _, rest => Lexical.blockComment rest.tail
  | .string, _, rest => Lexical.string rest
  | .rawString, _, rest => Lexical.rawString rest.tail
  | .character, _, rest => Lexical.character rest
  | .number, c, rest => Lexical.number (c :: rest)
  | .word, c, rest => .ok (Lexical.word (c :: rest))
  | .operator, c, rest => fixedToken c rest

/-- The condition under which the rule of a pattern applies. -/
def Opens : Pattern → Char → List Char → Prop
  | .blanks, c, _ => isBlank c = true
  | .lineComment, c, rest => c = '/' ∧ rest.head? = some '/'
  | .blockComment, c, rest => c = '/' ∧ rest.head? = some '*'
  | .string, c, _ => c = '"'
  | .rawString, c, rest => c = 'r' ∧ rest.head? = some '"'
  | .character, c, _ => c = '\''
  | .number, c, rest => opensNumber c rest = true
  | .word, c, _ => opensWord c = true
  | .operator, c, rest => (fixedToken? (c :: rest)).isSome = true

theorem isSome_literal? (start text : List Char) :
    (literal? start text).isSome = start.isPrefixOf text := by
  rw [literal?]
  cases start.isPrefixOf text <;> rfl

theorem isSome_literal?_one (d : Char) :
    (literal? [d] (c :: rest)).isSome = true ↔ c = d := by
  rw [isSome_literal?, List.isPrefixOf_iff_prefix, List.cons_prefix_cons,
    and_iff_left List.nil_prefix, eq_comm]

theorem isSome_literal?_two (d e : Char) :
    (literal? [d, e] (c :: rest)).isSome = true ↔ c = d ∧ rest.head? = some e := by
  rw [isSome_literal?, List.isPrefixOf_iff_prefix, List.cons_prefix_cons]
  cases rest with
  | nil => simp
  | cons f rest =>
    rw [List.cons_prefix_cons, and_iff_left List.nil_prefix, List.head?_cons, Option.some.injEq,
      eq_comm, eq_comm (a := e)]

/-- The alternatives for operators are the entries of the table of fixed tokens. -/
theorem operators_eq : operators = TokenKind.fixed.map fun entry => entry.1.toList := by
  decide

theorem isSome_operator (text : List Char) :
    (Pattern.operator.match? text).isSome = (fixedToken? text).isSome := by
  rw [match?, fixedToken?, operators_eq, List.find?_map, Option.isSome_map]
  rfl

/-- A pattern matches where its rule applies. -/
theorem isSome_match?_cons (pattern : Pattern) (c : Char) (rest : List Char) :
    (pattern.match? (c :: rest)).isSome = true ↔ pattern.Opens c rest := by
  cases pattern with
  | blanks => by_cases hc : isBlank c <;> simp [match?, Opens, hc]
  | lineComment => rw [match?, Option.isSome_map, isSome_literal?_two, Opens]
  | blockComment => exact isSome_literal?_two '/' '*'
  | string => exact isSome_literal?_one '"'
  | rawString => exact isSome_literal?_two 'r' '"'
  | character => exact isSome_literal?_one '\''
  | number =>
    by_cases hdigit : c.isDigit
    · simp [match?, Opens, opensNumber, hdigit]
    · by_cases hpoint : c = '.' ∧ rest.head?.any Char.isDigit = true <;>
        simp [match?, Opens, opensNumber, hdigit, hpoint]
  | word => by_cases hc : opensWord c <;> simp [match?, Opens, hc]
  | operator => rw [isSome_operator, Opens]

/-- No pattern matches the empty text. -/
theorem isSome_match?_nil (pattern : Pattern) : (pattern.match? []).isSome = false := by
  cases pattern <;> rfl

end Pattern

/-- What is read where these patterns are left to try. -/
def tried (c : Char) (rest : List Char) (patterns : List Pattern) : Except LexicalCause Reading :=
  match patterns.find? fun pattern => (pattern.match? (c :: rest)).isSome with
  | some pattern => pattern.rule c rest
  | none => .error (.unexpectedCharacter c c.toNat)

theorem tried_of_opens (patterns : List Pattern) (h : pattern.Opens c rest) :
    tried c rest (pattern :: patterns) = pattern.rule c rest := by
  have hmatch := (pattern.isSome_match?_cons c rest).mpr h
  simp only [tried, List.find?_cons, hmatch]

theorem tried_of_not_opens (patterns : List Pattern) (h : ¬ pattern.Opens c rest) :
    tried c rest (pattern :: patterns) = tried c rest patterns := by
  have hmatch := mt (pattern.isSome_match?_cons c rest).mp h
  simp only [tried, List.find?_cons, hmatch]

/-- A rule with its condition in front of the others is its pattern tried in front of theirs. -/
theorem ite_eq_tried (pattern : Pattern) (patterns : List Pattern)
    {dec : Decidable (pattern.Opens c rest)} {other : Except LexicalCause Reading}
    (h : other = tried c rest patterns) :
    (if pattern.Opens c rest then pattern.rule c rest else other) =
      tried c rest (pattern :: patterns) := by
  split
  · rw [tried_of_opens patterns ‹_›]
  · rw [tried_of_not_opens patterns ‹_›, h]

/-- The last rule needs no condition: it refuses what its pattern does not match. -/
theorem fixedToken_eq_tried (c : Char) (rest : List Char) :
    fixedToken c rest = tried c rest [.operator] := by
  by_cases h : Pattern.operator.Opens c rest
  · rw [tried_of_opens [] h]
    rfl
  · have hnone : fixedToken? (c :: rest) = none := Option.not_isSome_iff_eq_none.mp h
    rw [tried_of_not_opens [] h, fixedToken, hnone]
    rfl

/-- The patterns are tried in the order of the rules. -/
theorem read_eq_rule (c : Char) (rest : List Char) :
    read c rest =
      match Pattern.all.find? fun pattern => (pattern.match? (c :: rest)).isSome with
      | some pattern => pattern.rule c rest
      | none => .error (.unexpectedCharacter c c.toNat) := by
  show read c rest = tried c rest Pattern.all
  unfold read Pattern.all
  refine ite_eq_tried .blanks _ ?_
  refine ite_eq_tried .lineComment _ ?_
  refine ite_eq_tried .blockComment _ ?_
  refine ite_eq_tried .string _ ?_
  refine ite_eq_tried .rawString _ ?_
  refine ite_eq_tried .character _ ?_
  refine ite_eq_tried .number _ ?_
  refine ite_eq_tried .word _ ?_
  exact fixedToken_eq_tried c rest

/-- A text is read by the rule of a pattern that opens it, or no pattern does. -/
theorem read_cases (c : Char) (rest : List Char) :
    (∃ pattern : Pattern, pattern.Opens c rest ∧ read c rest = pattern.rule c rest) ∨
      read c rest = .error (.unexpectedCharacter c c.toNat) := by
  rw [read_eq_rule]
  cases hfirst : Pattern.all.find? fun pattern => (pattern.match? (c :: rest)).isSome with
  | none => exact .inr rfl
  | some pattern =>
    have hmatch := List.find?_some hfirst
    exact .inl ⟨pattern, (pattern.isSome_match?_cons c rest).mp hmatch, rfl⟩

end FrontEnd.Lexical
