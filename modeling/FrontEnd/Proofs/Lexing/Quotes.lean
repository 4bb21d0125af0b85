import FrontEnd.Proofs.Spacing

/-! Literals in quotes are recognised exactly. A value between quotes is scanned as that one literal
if and only if it has the form that the quotes ask for, so that no escape moves the closing one. -/
namespace FrontEnd

namespace Lexical

variable {c : Char} {text body rest : List Char} {l : Lexeme}

/-- What is read as a literal in quotes was found between them by the rule of its kind. -/
theorem body_of_read (h : read c rest = .ok ⟨text, some l⟩) :
    (l.kind = .string → ∃ text, stringBody text = some l.value.toList) ∧
      (l.kind = .rawString → ∃ text, rawStringBody text = some l.value.toList) ∧
      (l.kind = .character → ∃ text, characterBody text = .ok l.value.toList) := by
  cases rule_of_read h with
  | string body _ hbody => simpa using ⟨_, hbody⟩
  | rawString body _ _ hbody => simpa using ⟨_, hbody⟩
  | character body _ hbody _ => simpa using ⟨_, hbody⟩
  | decimal isFloat run _ _ _ _ => cases isFloat <;> simp
  | fixed text kind hfixed =>
    have hkind := fixedToken?_kind hfixed
    simp only [openKinds, List.mem_cons, not_or] at hkind
    obtain ⟨-, hstring, hraw, hcharacter, -⟩ := hkind
    exact ⟨fun h => absurd h hstring, fun h => absurd h hraw, fun h => absurd h hcharacter⟩
  | _ => simp

variable {v : String}

/-- A literal that can be read at all can be read where the text ends. -/
theorem exists_reads_of_written {kind : TokenKind} {radix : Option Radix}
    (h : Written ⟨kind, String.ofList v.toList, radix⟩) : ∃ rest, Reads ⟨kind, v, radix⟩ rest := by
  rw [String.ofList_toList] at h
  exact ⟨[], h [] ends_nil⟩

theorem reads_string_iff : (∃ rest, Reads ⟨.string, v, none⟩ rest) ↔
    ∃ items : List (List Char), v.toList = items.flatten ∧ ∀ item ∈ items, StringItem item := by
  constructor
  · rintro ⟨rest, c, cs, -, hread⟩
    obtain ⟨text, hbody⟩ := (body_of_read hread).1 rfl
    exact exists_items_of_stringBody hbody
  · rintro ⟨items, hv, hitems⟩
    have hbody := stringBody_flatten hitems []
    rw [← hv] at hbody
    exact exists_reads_of_written (written_string hbody)

theorem reads_rawString_iff : (∃ rest, Reads ⟨.rawString, v, none⟩ rest) ↔
    ∀ c ∈ v.toList, c ∉ ['"', '\n', '\r'] := by
  constructor
  · rintro ⟨rest, c, cs, -, hread⟩
    obtain ⟨text, hbody⟩ := (body_of_read hread).2.1 rfl
    exact (rawStringBody_eq_some_iff []).mp (rawStringBody_local hbody [])
  · intro hv
    have hbody := (rawStringBody_eq_some_iff []).mpr hv
    exact exists_reads_of_written (written_rawString hbody)

theorem reads_character_iff :
    (∃ rest, Reads ⟨.character, v, none⟩ rest) ↔ CharacterForm v.toList := by
  constructor
  · rintro ⟨rest, c, cs, -, hread⟩
    obtain ⟨text, hbody⟩ := (body_of_read hread).2.2 rfl
    exact characterForm_of_characterBody hbody
  · intro hv
    exact exists_reads_of_written (written_character (hv.read_body []))

end Lexical

namespace Token

open Lexical

/-- A value between quotes is scanned as that one literal if and only if it is a sequence of items
of a string, or without quotes and line ends, or one of the forms of a character. -/
theorem alone_quoted_iff (v : String) :
    (Alone ("\"" ++ v ++ "\"") ⟨.string, v, none⟩ ↔
        ∃ items : List (List Char), v.toList = items.flatten ∧ ∀ item ∈ items, StringItem item) ∧
      (Alone ("r\"" ++ v ++ "\"") ⟨.rawString, v, none⟩ ↔
        ∀ c ∈ v.toList, c ∉ ['"', '\n', '\r']) ∧
      (Alone ("'" ++ v ++ "'") ⟨.character, v, none⟩ ↔ CharacterForm v.toList) := by
  have hstring : ("\"" ++ v ++ "\"") = (⟨.string, v, none⟩ : Lexeme).text := rfl
  have hraw : ("r\"" ++ v ++ "\"") = (⟨.rawString, v, none⟩ : Lexeme).text := rfl
  have hcharacter : ("'" ++ v ++ "'") = (⟨.character, v, none⟩ : Lexeme).text := rfl
  rw [hstring, hraw, hcharacter, alone_text_iff, alone_text_iff, alone_text_iff]
  exact ⟨reads_string_iff, reads_rawString_iff, reads_character_iff⟩

end Token

end FrontEnd
