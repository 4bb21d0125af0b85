import FrontEnd.Grammar.Level

/-! Paths. In an import a segment is followed by a name, a wildcard or a group, and a single name
may be given an alias. In an expression only names follow. -/
namespace FrontEnd.Grammar

open Parse

/-- The alias behind a path target, where there may be one. -/
def pathAlias (allowed : Bool) : Parse (Option Ident) := do
  let token ← current
  if token.kind ≠ .word then pure none
  else if token.isKeyword .asKey = false then failHere (.expectedAs token.text)
  else if allowed = false then failHere .aliasNotAllowed
  else
    let _ ← advance
    some <$> expectName "an import alias"

/-- The alias behind a path target in the given place. -/
def pathAliasIn (place : PathPlace) (allowed : Bool) : Parse (Option Ident) :=
  match place with
  | .importing => pathAlias allowed
  | .expression => pure none

namespace Level

variable (g : Level)

/-- One entry of a group, behind its first name. -/
def groupEntry (place : PathPlace) (segment : Ident) : Parse Path := do
  match ← accept .doubleColon with
  | some _ => g.path segment place
  | none =>
    let localName ← pathAlias true
    let span ← rangeFrom segment.span.start
    pure ⟨segment, .leaf, localName, span⟩

/-- An entry of a group and the comma behind it. A comma has to be followed by an entry. -/
def groupRound (place : PathPlace) (entries : Array Path) :
    Parse (Round (Array Path) (Array Path)) := do
  if ← isAt .closeCurly then pure (.done entries)
  else
    let segment ← expectName "a path segment"
    let entry ← g.groupEntry place segment
    match ← accept .comma with
    | none => pure (.done (entries.push entry))
    | some _ =>
      match ← accept .closeCurly with
      | some close => fail ⟨.trailingComma, .single close.index⟩
      | none => pure (.again (entries.push entry))

/-- A group of paths, with the cursor on its opening brace. -/
def group (place : PathPlace) : Parse (List Path) := do
  let opening ← advance
  let entries ← loop (g.groupRound place) #[]
  let _ ← expect .closeCurly "`\x7d`"
  if entries.isEmpty then
    let span ← rangeFrom opening.index
    fail ⟨.emptyGroup, span⟩
  else pure entries.toList

/-- What follows a double colon, and whether it may be given an alias. -/
def pathTarget (place : PathPlace) : Parse (PathTarget × Bool) := do
  let token ← current
  match token.kind with
  | .word =>
    let item ← expectName "a path segment"
    match ← accept .doubleColon with
    | some _ =>
      let next ← g.path item place
      pure (.nested next, false)
    | none => pure (.item item, true)
  | .star =>
    if place = .importing then
      let star ← advance
      pure (.wildcard (.single star.index), false)
    else failHere .wildcardOutsideImport
  | .openCurly =>
    if place = .importing then
      let entries ← g.group place
      pure (.group entries, false)
    else failHere .groupOutsideImport
  | _ =>
    let expected := match place with
      | .importing => "an identifier, `*` or `\x7b` after `::`"
      | .expression => "an identifier after `::`"
    failHere (.unexpectedToken expected token.text)

/-- A path behind its first segment and the double colon. -/
def pathFrom (segment : Ident) (place : PathPlace) : Parse Path := do
  let (target, aliasable) ← g.pathTarget place
  let localName ← pathAliasIn place aliasable
  let span ← rangeFrom segment.span.start
  pure ⟨segment, target, localName, span⟩

end Level

end FrontEnd.Grammar
