import FrontEnd.Text.Quoted
import Mathlib.Data.List.Basic

/-! Quoted texts can be taken apart again. Every escape says by itself where it ends and which
character it stands for, and a quote that is not escaped closes the text. -/
namespace FrontEnd.Text

/-- What a hexadecimal digit counts. -/
def digitValue (c : Char) : Nat :=
  if c.isDigit then c.toNat - 48 else c.toNat - 87

/-- The number that hexadecimal digits write. -/
def hexValue (digits : List Char) : Nat :=
  digits.foldl (fun n c => 16 * n + digitValue c) 0

theorem digitValue_digitChar : ∀ d, d < 16 → digitValue d.digitChar = d := by
  decide

theorem hexValue_hexText (n : Nat) : hexValue (hexText n) = n := by
  induction n using Nat.strongRecOn with
  | ind n ih =>
    by_cases hlt : n < 16
    · rw [hexText, Nat.toDigits_of_lt_base hlt]
      simp [hexValue, digitValue_digitChar n hlt]
    · have hshort : hexValue (Nat.toDigits 16 (n / 16)) = n / 16 := ih (n / 16) (by omega)
      rw [hexValue] at hshort
      rw [hexText, Nat.toDigits_of_base_le (by decide) (by omega), hexValue, List.foldl_append,
        hshort, List.foldl_cons, List.foldl_nil, digitValue_digitChar _ (by omega)]
      omega

/-- No digit is the brace that closes an escape. -/
theorem ne_brace_of_mem_hexText {n : Nat} {c : Char} (h : c ∈ hexText n) : c ≠ '\x7d' := by
  have hdigit : ∀ d, d < 16 → d.digitChar ≠ '\x7d' := by decide
  induction n using Nat.strongRecOn with
  | ind n ih =>
    by_cases hlt : n < 16
    · rw [hexText, Nat.toDigits_of_lt_base hlt] at h
      rw [List.mem_singleton.mp h]
      exact hdigit n hlt
    · rw [hexText, Nat.toDigits_of_base_le (by decide) (by omega)] at h
      rcases List.mem_append.mp h with h | h
      · exact ih (n / 16) (by omega) h
      · rw [List.mem_singleton.mp h]
        exact hdigit _ (by omega)

/-- The character that stands behind a backslash, and what follows it. -/
def unescapeMark : List Char → Option (Char × List Char)
  | [] => none
  | 't' :: rest => some ('\t', rest)
  | 'n' :: rest => some ('\n', rest)
  | 'r' :: rest => some ('\r', rest)
  | '0' :: rest => some ('\x00', rest)
  | 'u' :: rest =>
    let digits := rest.tail.takeWhile (· != '\x7d')
    some (Char.ofNat (hexValue digits), rest.tail.drop (digits.length + 1))
  | c :: rest => some (c, rest)

/-- The first character of an escaped text, and what follows it. -/
def unescape : List Char → Option (Char × List Char)
  | [] => none
  | c :: rest => if c = '\\' then unescapeMark rest else some (c, rest)

/-- A character is read back from its code, up to the brace that closes it. -/
theorem unescapeMark_hexText (c : Char) (rest : List Char) :
    unescapeMark ('u' :: '\x7b' :: (hexText c.toNat ++ '\x7d' :: rest)) = some (c, rest) := by
  have hdigits : (hexText c.toNat ++ '\x7d' :: rest).takeWhile (· != '\x7d') =
      hexText c.toNat := by
    rw [List.takeWhile_append_of_pos fun d hd => by simpa using ne_brace_of_mem_hexText hd]
    simp
  simp only [unescapeMark, List.tail_cons]
  rw [hdigits, hexValue_hexText, Char.ofNat_toNat]
  simp

/-- An escaped character is read back, whatever follows it. -/
theorem unescape_escapeChar (c : Char) (rest : List Char) :
    unescape (escapeChar c ++ rest) = some (c, rest) := by
  by_cases hquote : c = '"'
  · subst hquote
    rfl
  by_cases hslash : c = '\\'
  · subst hslash
    rfl
  by_cases htab : c = '\t'
  · subst htab
    rfl
  by_cases hnewline : c = '\n'
  · subst hnewline
    rfl
  by_cases hreturn : c = '\r'
  · subst hreturn
    rfl
  by_cases hzero : c = '\x00'
  · subst hzero
    rfl
  simp only [escapeChar, hquote, hslash, htab, hnewline, hreturn, hzero, if_false]
  split
  · rw [List.append_assoc, List.append_assoc]
    exact unescapeMark_hexText c rest
  · simp [unescape, hslash]

/-- No escaped character starts with a quote. -/
theorem escapeChar_append_ne_quote (c : Char) (rest more : List Char) :
    escapeChar c ++ rest ≠ '"' :: more := by
  intro h
  have hread := unescape_escapeChar c rest
  rw [h] at hread
  obtain rfl : '"' = c := congrArg Prod.fst (Option.some.inj hread)
  cases h

/-- The quote behind an escaped text is found, and the text before it is the only one that is
escaped like this. -/
theorem escaped_cancel {cs ds more more' : List Char}
    (h : cs.flatMap escapeChar ++ '"' :: more = ds.flatMap escapeChar ++ '"' :: more') :
    cs = ds ∧ more = more' := by
  induction cs generalizing ds with
  | nil =>
    cases ds with
    | nil => exact ⟨rfl, (List.cons.inj h).2⟩
    | cons d ds =>
      rw [List.flatMap_cons, List.append_assoc] at h
      exact absurd h.symm (escapeChar_append_ne_quote d _ _)
  | cons c cs ih =>
    rw [List.flatMap_cons, List.append_assoc] at h
    cases ds with
    | nil => exact absurd h (escapeChar_append_ne_quote c _ _)
    | cons d ds =>
      rw [List.flatMap_cons, List.append_assoc] at h
      -- reading one character back says that both texts start with the same one
      have hread := congrArg unescape h
      rw [unescape_escapeChar, unescape_escapeChar] at hread
      obtain ⟨rfl, hrest⟩ := Prod.mk.inj (Option.some.inj hread)
      obtain ⟨rfl, hmore⟩ := ih hrest
      exact ⟨rfl, hmore⟩

/-- Two quoted texts at one place are the same, and the same follows them. -/
theorem quote_cancel {v w : String} {more more' : List Char}
    (h : (quote v).toList ++ more = (quote w).toList ++ more') : v = w ∧ more = more' := by
  simp only [quote, String.toList_ofList, List.cons_append, List.append_assoc,
    List.cons.injEq, true_and, List.nil_append] at h
  obtain ⟨htext, hmore⟩ := escaped_cancel h
  exact ⟨String.toList_injective htext, hmore⟩

end FrontEnd.Text
