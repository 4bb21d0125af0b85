import FrontEnd.Grammar.Path
import FrontEnd.Proofs.Parallel.Primitive

/-! Function headers and paths in two runs side by side. -/
namespace FrontEnd.Grammar

open Parse

variable {K : Link}

namespace Follows

theorem parameterRound (params : Array Ident) :
    Follows K (K.Beyond true) (parameterRound params)
      (parameterRound (Shift.shift K.offset params)) := by
  refine (isAt .closeParen).bind ?_
  rintro here _ rfl
  refine ite (pure rfl) ((expectName _).bind ?_)
  rintro param _ rfl
  exact separated params param

theorem functionName : Follows K (K.Beyond true) functionName functionName := by
  refine (isAt .word).bind ?_
  rintro here _ rfl
  exact ite ((expectName _).map fun _ _ h => congrArg some h) (pure rfl)

theorem signatureOf (kind : FunctionKind) (start : Nat) :
    Follows K (K.Beyond true) (signatureOf kind start) (signatureOf kind (start + K.offset)) := by
  refine functionName.bind ?_
  rintro name _ rfl
  refine (expect (by decide) _).bind ?_
  intro _ _ _
  refine (collect parameterRound).bind ?_
  rintro params _ rfl
  refine (expect (by decide) _).bind ?_
  intro _ _ _
  refine (expect (by decide) _).bind ?_
  intro _ _ _
  refine pure ?_
  show Signature.mk _ _ (Array.map _ params).toList _ =
    Signature.mk _ _ (List.map _ params.toList) _
  rw [Array.toList_map]

theorem signature : Follows K (K.Beyond true) signature signature := by
  refine advance.bind ?_
  rintro token _ ⟨span, rfl⟩
  dsimp only
  cases token.keyword?.bind Keyword.functionKind? with
  | none => exact raise _ _
  | some kind => exact signatureOf kind token.index

theorem pathAlias (allowed : Bool) :
    Follows K (K.Beyond true) (pathAlias allowed) (pathAlias allowed) := by
  refine current.bind ?_
  rintro token _ ⟨span, rfl⟩
  refine ite (pure rfl) (ite (failHere _) (ite (failHere _) (advance.bind ?_)))
  intro _ _ _
  exact (expectName _).map fun _ _ h => congrArg some h

theorem pathAliasIn (place : PathPlace) (allowed : Bool) :
    Follows K (K.Beyond true) (pathAliasIn place allowed) (pathAliasIn place allowed) := by
  cases place with
  | importing => exact pathAlias allowed
  | expression => exact pure rfl

end Follows

/-- The rules that open a level, in two runs side by side. -/
structure Level.Parallel (g : Level) (K : Link) (h : Level) : Prop where
  unary : Follows K (K.Beyond true) g.unary h.unary
  binary : ∀ left least,
    Follows K (K.Beyond true) (g.binary left least) (h.binary (left.shift K.offset) least)
  block : Closes K g.block h.block
  path : ∀ segment place,
    Follows K (K.Beyond true) (g.path segment place) (h.path (segment.shift K.offset) place)

namespace Follows

variable {g h : Level} (hg : g.Parallel K h)

include hg

theorem groupEntry (place : PathPlace) (segment : Ident) :
    Follows K (K.Beyond true) (g.groupEntry place segment)
      (h.groupEntry place (segment.shift K.offset)) := by
  refine (accept .doubleColon).bind ?_
  rintro (_ | colon) _ hcolon
  · cases hcolon
    refine (pathAlias true).bind ?_
    rintro localName _ rfl
    refine (rangeFrom _).bind ?_
    rintro span _ rfl
    refine pure ?_
    show _ = Path.shift K.offset ⟨segment, .leaf, localName, span⟩
    simp only [Path.shift, PathTarget.shift]
    rfl
  · obtain ⟨_, rfl, -⟩ := hcolon
    exact hg.path segment place

theorem groupRound (place : PathPlace) (entries : Array Path) :
    Follows K (K.Beyond true) (g.groupRound place entries)
      (h.groupRound place (Shift.shift K.offset entries)) := by
  refine (isAt .closeCurly).bind ?_
  rintro here _ rfl
  refine ite (pure rfl) ((expectName _).bind ?_)
  rintro segment _ rfl
  refine (groupEntry hg place segment).bind ?_
  rintro entry _ rfl
  have hpush := (Shift.shift_push K.offset entries entry).symm
  refine (accept .comma).bind ?_
  rintro (_ | comma) _ hcomma
  · cases hcomma
    exact pure (congrArg Round.done hpush)
  · obtain ⟨_, rfl, -⟩ := hcomma
    refine (accept .closeCurly).bind ?_
    rintro (_ | close) _ hclose
    · cases hclose
      exact pure (congrArg Round.again hpush)
    · obtain ⟨_, rfl, span, rfl⟩ := hclose
      exact failAt _ _

theorem group (place : PathPlace) :
    Follows K (K.Beyond true) (g.group place) (h.group place) := by
  refine advance.bind ?_
  rintro opening _ ⟨span, rfl⟩
  refine (collect (groupRound hg place)).bind ?_
  rintro entries _ rfl
  refine (expect (by decide) _).bind ?_
  intro _ _ _
  have hempty : (Shift.shift K.offset entries).isEmpty = entries.isEmpty := by
    simp only [Array.isEmpty, Shift.shift, Array.size_map]
  rw [hempty]
  refine ite ((rangeFrom _).bind ?_) (pure Array.toList_map)
  rintro span _ rfl
  exact fail ⟨.emptyGroup, span⟩

theorem pathTarget (place : PathPlace) :
    Follows K (K.Beyond true) (g.pathTarget place) (h.pathTarget place) := by
  refine current.bind ?_
  rintro token _ ⟨span, rfl⟩
  dsimp only
  split
  · refine (expectName _).bind ?_
    rintro item _ rfl
    refine (accept .doubleColon).bind ?_
    rintro (_ | colon) _ hcolon
    · cases hcolon
      refine pure ?_
      show _ = (PathTarget.shift K.offset (.item item), true)
      rw [PathTarget.shift]
      rfl
    · obtain ⟨_, rfl, -⟩ := hcolon
      refine (hg.path item place).bind ?_
      rintro next _ rfl
      refine pure ?_
      show _ = (PathTarget.shift K.offset (.nested next), false)
      rw [PathTarget.shift]
      rfl
  · refine ite (advance.bind ?_) (failHere _)
    rintro star _ ⟨span, rfl⟩
    refine pure ?_
    show _ = (PathTarget.shift K.offset (.wildcard (.single star.index)), false)
    rw [PathTarget.shift, TokenRange.shift_single]
  · refine ite ((group hg place).bind ?_) (failHere _)
    rintro entries _ rfl
    refine pure ?_
    show _ = (PathTarget.shift K.offset (.group entries), false)
    rw [PathTarget.shift, Path.shiftEntries_eq_map]
    rfl
  · exact failHere _

theorem pathFrom (segment : Ident) (place : PathPlace) :
    Follows K (K.Beyond true) (g.pathFrom segment place)
      (h.pathFrom (segment.shift K.offset) place) := by
  refine (pathTarget hg place).bind ?_
  rintro ⟨target, aliasable⟩ _ rfl
  refine (pathAliasIn place aliasable).bind ?_
  rintro localName _ rfl
  refine (rangeFrom _).bind ?_
  rintro span _ rfl
  refine pure ?_
  show _ = Path.shift K.offset ⟨segment, target, localName, span⟩
  rw [Path.shift]
  rfl

end Follows

end FrontEnd.Grammar
