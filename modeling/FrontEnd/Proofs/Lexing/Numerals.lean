import FrontEnd.Proofs.Lexing.Digits
import FrontEnd.Proofs.Spacing

/-! Numbers are recognised exactly. A text is scanned as one number if and only if it is one by the
grammar: groups of digits behind the mark of a radix, or a mantissa and an exponent. -/
namespace FrontEnd

namespace Lexical

open Text

/-! ## The grammar of numbers -/

/-- One digit of a literal with a radix mark, behind the one underscore that may part it from what
is before it. -/
def DigitGroup (radix : Radix) (group : List Char) : Prop :=
  ∃ d, radix.isDigit d = true ∧ (group = [d] ∨ group = ['_', d])

/-- Behind the mark of the radix come digits of it. -/
def MarkedNumeral (radix : Radix) (text : List Char) : Prop :=
  radix ∈ Radix.marked ∧ ∃ groups : List (List Char), groups ≠ [] ∧
    (∀ group ∈ groups, DigitGroup radix group) ∧ text = radix.mark.toList ++ groups.flatten

/-- The mark of an exponent, a sign or none, and a digit that others and underscores may follow. -/
def Exponent (text : List Char) : Prop :=
  ∃ mark sign d run, text = mark :: (sign ++ d :: run) ∧ (mark = 'e' ∨ mark = 'E') ∧
    (sign = [] ∨ sign = ['+'] ∨ sign = ['-']) ∧ d.isDigit = true ∧
    ∀ c ∈ run, c.isDigit = true ∨ c = '_'

/-- A decimal literal by its mantissa and the exponent behind it, which may be empty. -/
structure DecimalNumeral (mantissa exponent : List Char) : Prop where
  opens : ∃ d rest, d.isDigit = true ∧
    (mantissa ++ exponent = d :: rest ∨ mantissa ++ exponent = '.' :: d :: rest)
  mantissa_chars : ∀ c ∈ mantissa, c.isDigit = true ∨ c = '_' ∨ c = '.'
  point : mantissa.count '.' ≤ 1
  exponent_form : exponent = [] ∨ Exponent exponent
  parted : ¬ ['_', '_'] <:+: mantissa ++ exponent
  closed : (mantissa ++ exponent).getLast? ≠ some '_'

/-- The text is a number of this kind and radix. -/
inductive Numeral : List Char → TokenKind → Radix → Prop where
  | marked {radix : Radix} {text : List Char} : MarkedNumeral radix text →
      Numeral text .integer radix
  | integer {mantissa : List Char} : DecimalNumeral mantissa [] → '.' ∉ mantissa →
      Numeral mantissa .integer .decimal
  | float {mantissa exponent : List Char} : DecimalNumeral mantissa exponent →
      '.' ∈ mantissa ∨ exponent ≠ [] → Numeral (mantissa ++ exponent) .float .decimal

variable {radix : Radix} {text rest : List Char} {c : Char}

/-- The underscore right before a text, if one was read there. -/
def lead (underscored : Bool) : List Char :=
  if underscored then ['_'] else []

@[simp] theorem lead_false : lead false = [] := rfl

@[simp] theorem lead_true : lead true = ['_'] := rfl

/-! ## Groups of digits -/

theorem DigitGroup.exists_last {group : List Char} (h : DigitGroup radix group) :
    ∃ front d, group = front ++ [d] ∧ radix.isDigit d = true := by
  obtain ⟨d, hd, rfl | rfl⟩ := h
  · exact ⟨[], d, rfl, hd⟩
  · exact ⟨['_'], d, rfl, hd⟩

theorem digitGroup_lead {underscored : Bool} {d : Char} (h : radix.isDigit d = true) :
    DigitGroup radix (lead underscored ++ [d]) := by
  cases underscored with
  | false => exact ⟨d, h, .inl rfl⟩
  | true => exact ⟨d, h, .inr rfl⟩

/-- A run goes on over a digit, and over an underscore that is not the second one. -/
theorem radixRun_keep {underscored : Bool} :
    radixRun radix underscored (c :: rest) = (c :: rest, none) ↔
      (radix.isDigit c = true ∧ radixRun radix false rest = (rest, none)) ∨
        (c = '_' ∧ underscored = false ∧ radixRun radix true rest = (rest, none)) := by
  rw [radixRun]
  by_cases hdigit : radix.isDigit c = true
  · have hunder : c ≠ '_' := by
      rintro rfl
      rw [isDigit_radix_underscore] at hdigit
      cases hdigit
    simp [hdigit, hunder, Prod.ext_iff]
  by_cases hunder : c = '_' ∧ underscored = false
  · simp [hunder, isDigit_radix_underscore, Prod.ext_iff]
  · rw [if_neg hdigit, if_neg hunder, ← and_assoc]
    simp only [hdigit, hunder, false_and, or_false, Bool.false_eq_true, iff_false]
    split <;> simp

/-- The digits are read off in groups. An underscore that was read before belongs to the first. -/
theorem exists_groups_of_radixRun {underscored : Bool}
    (h : radixRun radix underscored text = (text, none))
    (hlast : ∀ d ∈ (lead underscored ++ text).getLast?, radix.isDigit d = true) :
    ∃ groups : List (List Char), (∀ group ∈ groups, DigitGroup radix group) ∧
      lead underscored ++ text = groups.flatten := by
  induction text generalizing underscored with
  | nil =>
    cases underscored with
    | false => exact ⟨[], by simp, rfl⟩
    -- an underscore would be the last character
    | true =>
      have hdigit := hlast '_' rfl
      rw [isDigit_radix_underscore] at hdigit
      cases hdigit
  | cons c rest ih =>
    rcases radixRun_keep.mp h with ⟨hdigit, hrest⟩ | ⟨rfl, rfl, hrest⟩
    · have hlast' : ∀ d ∈ rest.getLast?, radix.isDigit d = true := by
        intro d hd
        refine hlast d ?_
        rw [List.append_cons, List.getLast?_append, Option.mem_def.mp hd]
        rfl
      obtain ⟨groups, hgroups, hflatten⟩ := ih hrest hlast'
      rw [lead_false, List.nil_append] at hflatten
      exact ⟨(lead underscored ++ [c]) :: groups,
        List.forall_mem_cons.mpr ⟨digitGroup_lead hdigit, hgroups⟩, by simp [hflatten]⟩
    -- the underscore goes to the group of the next digit
    · exact ih hrest hlast

/-- Groups of digits are read to their end. -/
theorem radixRun_flatten {groups : List (List Char)}
    (h : ∀ group ∈ groups, DigitGroup radix group) :
    radixRun radix false groups.flatten = (groups.flatten, none) := by
  induction groups with
  | nil => rfl
  | cons group groups ih =>
    have hrest := ih fun g hg => h g (List.mem_cons_of_mem _ hg)
    obtain ⟨d, hd, rfl | rfl⟩ := h group List.mem_cons_self
    · simp [radixRun, hd, hrest]
    · simp [radixRun, hd, hrest, isDigit_radix_underscore]

/-- What is read to its end, with a digit as the last character, are groups of digits. -/
theorem radixRun_iff :
    (radixRun radix false text = (text, none) ∧ text.getLast?.any radix.isDigit = true) ↔
      ∃ groups : List (List Char), groups ≠ [] ∧ (∀ group ∈ groups, DigitGroup radix group) ∧
        text = groups.flatten := by
  constructor
  · rintro ⟨hrun, hlast⟩
    cases hd : text.getLast? with
    | none =>
      rw [hd] at hlast
      cases hlast
    | some d =>
      rw [hd, Option.any_some] at hlast
      obtain ⟨groups, hgroups, rfl⟩ := exists_groups_of_radixRun hrun <| by
        rintro e he
        rw [show lead false ++ text = text from rfl, hd] at he
        cases he
        exact hlast
      refine ⟨groups, ?_, hgroups, rfl⟩
      rintro rfl
      cases hd
  · rintro ⟨groups, hne, hgroups, rfl⟩
    refine ⟨radixRun_flatten hgroups, ?_⟩
    obtain ⟨front, d, hlast, hdigit⟩ := (hgroups _ (List.getLast_mem hne)).exists_last
    rw [← List.dropLast_append_getLast hne, List.flatten_append, hlast]
    simp [hdigit]

/-! ## Mantissa and exponent -/

/-- No two underscores stand side by side in the text, the one before it included. -/
def Parted (underscored : Bool) (text : List Char) : Prop :=
  ¬ ['_', '_'] <:+: lead underscored ++ text

theorem parted_nil (underscored : Bool) : Parted underscored [] := by
  have hshort : ¬ ['_', '_'] <:+: lead underscored := fun h => by
    have hlength := h.length_le
    cases underscored <;> simp at hlength
  rwa [Parted, List.append_nil]

theorem parted_cons {underscored : Bool} :
    Parted underscored (c :: rest) ↔ ¬ (underscored = true ∧ c = '_') ∧ Parted (c == '_') rest := by
  have hnext : Parted false (c :: rest) ↔ Parted (c == '_') rest := by
    by_cases hc : c = '_'
    · simp [Parted, hc]
    · have hfirst : (c == '_') = false := beq_eq_false_iff_ne.mpr hc
      rw [Parted, Parted, hfirst]
      simp [List.infix_cons_iff, Ne.symm hc]
  cases underscored with
  | false => simp [hnext]
  | true =>
    rw [← hnext]
    simp [Parted, List.infix_cons_iff, eq_comm]

theorem parted_cons_of_ne {underscored : Bool} (hc : c ≠ '_') :
    Parted underscored (c :: rest) ↔ Parted false rest := by
  rw [parted_cons, beq_eq_false_iff_ne.mpr hc]
  simp [hc]

theorem Parted.drop {underscored : Bool} {front : List Char}
    (h : Parted underscored (front ++ text)) : Parted false text := by
  refine mt (fun hpair => hpair.trans ?_) h
  exact ⟨lead underscored ++ front, [], by simp⟩

theorem ne_point (h : c.isDigit = true ∨ c = '_') : c ≠ '.' := by
  rintro rfl
  revert h
  decide

theorem ne_underscore_of_isDigit (h : c.isDigit = true) : c ≠ '_' := by
  rintro rfl
  cases h

variable {isFloat hasExponent underscored ending : Bool}

/-- A run goes on over a digit, and over an underscore that is not the second one. -/
theorem decimalRun_keep (h : c.isDigit = true ∨ c = '_') :
    decimalRun isFloat hasExponent underscored (c :: rest) = (c :: rest, .complete ending) ↔
      ¬ (underscored = true ∧ c = '_') ∧
        decimalRun isFloat hasExponent (c == '_') rest = (rest, .complete ending) := by
  rw [decimalRun_cons]
  by_cases hdigit : c.isDigit = true
  · have hunder := ne_underscore_of_isDigit hdigit
    simp [hdigit, hunder, beq_eq_false_iff_ne.mpr hunder, Prod.ext_iff]
  · obtain rfl := h.resolve_left hdigit
    rw [if_neg hdigit, if_pos rfl]
    cases underscored with
    | false => simp [Prod.ext_iff]
    | true => simp

/-- A run goes on over the first point. -/
theorem decimalRun_point :
    decimalRun isFloat hasExponent underscored ('.' :: rest) = ('.' :: rest, .complete ending) ↔
      isFloat = false ∧ decimalRun true hasExponent false rest = (rest, .complete ending) := by
  rw [decimalRun_cons, if_neg (by decide), if_neg (by decide), if_pos rfl]
  cases isFloat with
  | false => simp [Prod.ext_iff]
  | true => simp

/-- Another character ends a run, unless it may open the exponent. -/
theorem decimalRun_other (h : ¬ (c.isDigit = true ∨ c = '_')) (hpoint : c ≠ '.')
    (hmark : c = 'e' ∨ c = 'E' → hasExponent = true) :
    decimalRun isFloat hasExponent underscored (c :: rest) ≠ (c :: rest, .complete ending) := by
  obtain ⟨hdigit, hunder⟩ := not_or.mp h
  rw [decimalRun_cons, if_neg hdigit, if_neg hunder, if_neg hpoint]
  by_cases hexponent : c = 'e' ∨ c = 'E'
  · simp [hexponent, hmark hexponent]
  · simp [hexponent]

/-- Behind the mark of an exponent there are digits and underscores only. -/
theorem decimalRun_exponent_iff :
    decimalRun true true underscored text = (text, .complete ending) ↔
      (∀ c ∈ text, c.isDigit = true ∨ c = '_') ∧ Parted underscored text ∧ ending = true := by
  induction text generalizing underscored with
  | nil =>
    have hempty : decimalRun true true underscored [] = ([], .complete true) := rfl
    rw [hempty]
    simp [parted_nil, @eq_comm _ true]
  | cons c rest ih =>
    rw [List.forall_mem_cons]
    by_cases hc : c.isDigit = true ∨ c = '_'
    · rw [decimalRun_keep hc, ih, parted_cons]
      simp only [hc, true_and]
      exact and_left_comm.trans (and_congr_right' and_assoc.symm)
    · simp only [hc, false_and, iff_false]
      by_cases hpoint : c = '.'
      · subst hpoint
        simp [decimalRun_point]
      · exact decimalRun_other hc hpoint fun _ => rfl

/-- What is left of a decimal literal, by what is left of its mantissa and the exponent behind it.
The flags say that there was a point before it, and an underscore right before it. -/
structure DecimalRest (isFloat underscored : Bool) (mantissa exponent : List Char) : Prop where
  mantissa_chars : ∀ c ∈ mantissa, c.isDigit = true ∨ c = '_' ∨ c = '.'
  point : mantissa.count '.' ≤ (!isFloat).toNat
  exponent_form : exponent = [] ∨ Exponent exponent
  parted : Parted underscored (mantissa ++ exponent)

variable {mantissa exponent : List Char}

/-- A digit or an underscore leaves the rest as it is. -/
theorem decimalRest_cons (h : c.isDigit = true ∨ c = '_') :
    DecimalRest isFloat underscored (c :: mantissa) exponent ↔
      ¬ (underscored = true ∧ c = '_') ∧ DecimalRest isFloat (c == '_') mantissa exponent := by
  have hpoint := ne_point h
  constructor
  · rintro ⟨hchars, hcount, hexponent, hparted⟩
    rw [List.cons_append, parted_cons] at hparted
    rw [List.count_cons_of_ne hpoint] at hcount
    exact ⟨hparted.1, fun d hd => hchars d (List.mem_cons_of_mem c hd), hcount, hexponent,
      hparted.2⟩
  · rintro ⟨hfirst, hchars, hcount, hexponent, hparted⟩
    refine ⟨List.forall_mem_cons.mpr ⟨?_, hchars⟩, ?_, hexponent, parted_cons.mpr ⟨hfirst, hparted⟩⟩
    · exact h.imp_right .inl
    · rwa [List.count_cons_of_ne hpoint]

/-- A point is the only one. -/
theorem decimalRest_point :
    DecimalRest isFloat underscored ('.' :: mantissa) exponent ↔
      isFloat = false ∧ DecimalRest true false mantissa exponent := by
  constructor
  · rintro ⟨hchars, hcount, hexponent, hparted⟩
    rw [List.cons_append, parted_cons] at hparted
    rw [List.count_cons_self] at hcount
    cases isFloat with
    | true => exact absurd hcount (by simp)
    | false =>
      exact ⟨rfl, fun d hd => hchars d (List.mem_cons_of_mem _ hd), by simpa using hcount,
        hexponent, hparted.2⟩
  · rintro ⟨rfl, hchars, hcount, hexponent, hparted⟩
    refine ⟨List.forall_mem_cons.mpr ⟨.inr (.inr rfl), hchars⟩, ?_, hexponent,
      parted_cons.mpr ⟨by simp, hparted⟩⟩
    rw [List.count_cons_self]
    exact Nat.succ_le_succ hcount

/-- The mark of an exponent is neither a digit nor an underscore nor a point. -/
theorem mark_ne (h : c = 'e' ∨ c = 'E') : ¬ c.isDigit = true ∧ c ≠ '_' ∧ c ≠ '.' := by
  rcases h with rfl | rfl <;> decide

/-- A run goes on over the mark of the first exponent where digits follow, or a sign and digits. -/
theorem decimalRun_mark (hmark : c = 'e' ∨ c = 'E') :
    decimalRun isFloat false underscored (c :: rest) = (c :: rest, .complete ending) ↔
      ∃ sign d run, rest = sign ++ d :: run ∧ (sign = [] ∨ sign = ['+'] ∨ sign = ['-']) ∧
        d.isDigit = true ∧
        decimalRun true true false (d :: run) = (d :: run, .complete ending) := by
  obtain ⟨hdigit, hunder, hpoint⟩ := mark_ne hmark
  rw [decimalRun_cons, if_neg hdigit, if_neg hunder, if_neg hpoint, if_pos hmark,
    if_neg Bool.false_ne_true]
  constructor
  · intro h
    split at h
    · rename_i hfirst
      cases rest with
      | nil => cases hfirst
      | cons d run =>
        exact ⟨[], d, run, rfl, .inl rfl, hfirst, by simpa [Prod.ext_iff] using h⟩
    · split at h
      · rename_i sign d run _
        split at h
        · rename_i hsign
          refine ⟨[sign], d, run, rfl, by simpa using hsign.1, hsign.2, ?_⟩
          rw [decimalRun_cons, if_pos hsign.2]
          simpa [Prod.ext_iff] using h
        · cases (Prod.mk.inj h).2
      · cases (Prod.mk.inj h).2
  · rintro ⟨sign, d, run, rfl, hsign, hd, hrun⟩
    rcases hsign with rfl | rfl | rfl
    · simp [hd, hrun]
    · rw [decimalRun_cons, if_pos hd] at hrun
      simpa [hd, Prod.ext_iff] using hrun
    · rw [decimalRun_cons, if_pos hd] at hrun
      simpa [hd, Prod.ext_iff] using hrun

/-- An exponent is read to its end, and it is all that is read to its end from a mark on. -/
theorem decimalRun_mark_iff (hmark : c = 'e' ∨ c = 'E') :
    decimalRun isFloat false underscored (c :: rest) = (c :: rest, .complete ending) ↔
      Exponent (c :: rest) ∧ Parted underscored (c :: rest) ∧ ending = true := by
  rw [decimalRun_mark hmark, parted_cons_of_ne (mark_ne hmark).2.1]
  constructor
  · rintro ⟨sign, d, run, rfl, hsign, hd, hrun⟩
    obtain ⟨hchars, hparted, hending⟩ := decimalRun_exponent_iff.mp hrun
    refine ⟨⟨c, sign, d, run, rfl, hmark, hsign, hd, (List.forall_mem_cons.mp hchars).2⟩, ?_,
      hending⟩
    rcases hsign with rfl | rfl | rfl
    · exact hparted
    · exact (parted_cons_of_ne (by decide)).mpr hparted
    · exact (parted_cons_of_ne (by decide)).mpr hparted
  · rintro ⟨⟨mark, sign, d, run, htext, -, hsign, hd, hrun⟩, hparted, hending⟩
    obtain ⟨rfl, rfl⟩ := List.cons.inj htext
    exact ⟨sign, d, run, rfl, hsign, hd, decimalRun_exponent_iff.mpr
      ⟨List.forall_mem_cons.mpr ⟨.inl hd, hrun⟩, hparted.drop, hending⟩⟩

/-- What a run reads to its end is the rest of a decimal literal. -/
theorem exists_rest_of_decimalRun
    (h : decimalRun isFloat false underscored text = (text, .complete ending)) :
    ∃ mantissa exponent, text = mantissa ++ exponent ∧
      DecimalRest isFloat underscored mantissa exponent ∧
      (ending = true ↔ isFloat = true ∨ '.' ∈ mantissa ∨ exponent ≠ []) := by
  induction text generalizing isFloat underscored with
  | nil =>
    cases h
    exact ⟨[], [], rfl, ⟨by simp, by simp, .inl rfl, parted_nil _⟩, by simp⟩
  | cons c rest ih =>
    -- the mantissa ends at the first mark of an exponent
    by_cases hmark : c = 'e' ∨ c = 'E'
    · obtain ⟨hexponent, hparted, rfl⟩ := (decimalRun_mark_iff hmark).mp h
      exact ⟨[], c :: rest, rfl, ⟨by simp, by simp, .inr hexponent, hparted⟩, by simp⟩
    by_cases hc : c.isDigit = true ∨ c = '_'
    · obtain ⟨hfirst, hrun⟩ := (decimalRun_keep hc).mp h
      obtain ⟨mantissa, exponent, rfl, hrest, hending⟩ := ih hrun
      refine ⟨c :: mantissa, exponent, rfl, (decimalRest_cons hc).mpr ⟨hfirst, hrest⟩, ?_⟩
      simpa [(ne_point hc).symm] using hending
    by_cases hpoint : c = '.'
    · subst hpoint
      obtain ⟨rfl, hrun⟩ := decimalRun_point.mp h
      obtain ⟨mantissa, exponent, rfl, hrest, hending⟩ := ih hrun
      exact ⟨'.' :: mantissa, exponent, rfl, decimalRest_point.mpr ⟨rfl, hrest⟩,
        by simpa using hending⟩
    · exact absurd h (decimalRun_other hc hpoint fun hexponent => absurd hexponent hmark)

/-- The rest of a decimal literal is read to its end. -/
theorem decimalRun_of_rest (h : DecimalRest isFloat underscored mantissa exponent) :
    decimalRun isFloat false underscored (mantissa ++ exponent) =
      (mantissa ++ exponent,
        .complete (isFloat || mantissa.contains '.' || !exponent.isEmpty)) := by
  induction mantissa generalizing isFloat underscored with
  | nil =>
    rcases h.exponent_form with rfl | hexponent
    · simp [decimalRun]
    · obtain ⟨mark, sign, d, run, rfl, hmark, -⟩ := id hexponent
      simpa using (decimalRun_mark_iff hmark).mpr ⟨hexponent, h.parted, rfl⟩
  | cons c mantissa ih =>
    rw [List.cons_append]
    -- a digit or an underscore leaves the form as it is, a point is the first one
    by_cases hc : c.isDigit = true ∨ c = '_'
    · obtain ⟨hfirst, hrest⟩ := (decimalRest_cons hc).mp h
      refine (decimalRun_keep hc).mpr ⟨hfirst, ?_⟩
      rw [ih hrest]
      simp [(ne_point hc).symm]
    · obtain rfl := (or_assoc.mpr (h.mantissa_chars c List.mem_cons_self)).resolve_left hc
      obtain ⟨rfl, hrest⟩ := decimalRest_point.mp h
      refine decimalRun_point.mpr ⟨rfl, ?_⟩
      rw [ih hrest]
      simp

/-! ## From readings to numbers and back -/

theorem opensNumber_iff :
    opensNumber c rest = true ↔ ∃ d more, d.isDigit = true ∧
      (c :: rest = d :: more ∨ c :: rest = '.' :: d :: more) := by
  simp only [opensNumber, Bool.or_eq_true, Bool.and_eq_true, beq_iff_eq]
  constructor
  · rintro (hdigit | ⟨rfl, hdigit⟩)
    · exact ⟨c, rest, hdigit, .inl rfl⟩
    · cases rest with
      | nil => cases hdigit
      | cons d more => exact ⟨d, more, hdigit, .inr rfl⟩
  · rintro ⟨d, more, hdigit, htext | htext⟩
    · obtain ⟨rfl, rfl⟩ := List.cons.inj htext
      exact .inl hdigit
    · obtain ⟨rfl, rfl⟩ := List.cons.inj htext
      exact .inr ⟨rfl, hdigit⟩

/-- A decimal literal is no mark of a radix and what may follow one. -/
theorem unmarked_of_decimalRun {ending : DecimalEnd}
    (h : decimalRun false false false text = (text, ending)) :
    (Radix.marked.find? fun radix => radix.mark.toList.isPrefixOf text) = none := by
  rw [List.find?_eq_none]
  intro radix hradix hmark
  obtain ⟨tail, rfl⟩ := List.isPrefixOf_iff_prefix.mp hmark
  -- the run would end before the letter of the mark
  simp only [Radix.marked, List.mem_cons, List.not_mem_nil, or_false] at hradix
  rcases hradix with rfl | rfl | rfl <;> simp [Radix.mark, decimalRun_cons] at h

variable {l : Lexeme}

/-- What is read as a number is one. -/
theorem numeral_of_read (h : read c rest = .ok ⟨text, some l⟩)
    (hkind : l.kind = .integer ∨ l.kind = .float) :
    ∃ kind radix, Numeral text kind radix ∧ l = ⟨kind, String.ofList text, some radix⟩ := by
  cases rule_of_read h with
  | radix radix run hradix _ hrun hlast =>
    have hwhole := radixRun_local hrun ends_nil
    rw [List.append_nil] at hwhole
    obtain ⟨groups, hne, hgroups, rfl⟩ := radixRun_iff.mp ⟨hwhole, hlast⟩
    exact ⟨.integer, radix, .marked ⟨hradix, groups, hne, hgroups, rfl⟩, rfl⟩
  | decimal isFloat run hopens _ hrun hlast =>
    have hwhole := decimalRun_local hrun ends_nil
    rw [List.append_nil] at hwhole
    obtain ⟨cs, hcs, hopens'⟩ := decimalRun_opens hopens hrun
    obtain ⟨d, more, hdigit, hstarts⟩ := opensNumber_iff.mp (hopens' [])
    rw [List.append_nil, ← hcs] at hstarts
    obtain ⟨mantissa, exponent, rfl, hrest, hfloat⟩ := exists_rest_of_decimalRun hwhole
    have hnumeral : DecimalNumeral mantissa exponent :=
      ⟨⟨d, more, hdigit, hstarts⟩, hrest.mantissa_chars, hrest.point, hrest.exponent_form,
        hrest.parted, hlast⟩
    cases isFloat with
    | true => exact ⟨.float, .decimal, .float hnumeral (by simpa using hfloat), rfl⟩
    | false =>
      obtain ⟨hpoint, rfl⟩ : '.' ∉ mantissa ∧ exponent = [] := by simpa using hfloat
      refine ⟨.integer, .decimal, ?_, rfl⟩
      rw [List.append_nil]
      exact .integer hnumeral hpoint
  | fixed text kind hfixed =>
    exact absurd (show kind ∈ openKinds by rcases hkind with rfl | rfl <;> decide)
      (fixedToken?_kind hfixed)
  | _ => simp at hkind

/-- A decimal literal is read wherever it ends. -/
theorem DecimalNumeral.written (h : DecimalNumeral mantissa exponent) :
    Written ⟨if mantissa.contains '.' || !exponent.isEmpty then .float else .integer,
      String.ofList (mantissa ++ exponent), some .decimal⟩ := by
  have hrest : DecimalRest false false mantissa exponent :=
    ⟨h.mantissa_chars, h.point, h.exponent_form, h.parted⟩
  have hrun := decimalRun_of_rest hrest
  rw [Bool.false_or] at hrun
  have hmark := unmarked_of_decimalRun hrun
  have hlast := h.closed
  have hopens := h.opens
  generalize mantissa ++ exponent = text at hrun hmark hlast hopens ⊢
  cases text with
  | nil => simp at hopens
  | cons c rest => exact written_decimal (opensNumber_iff.mpr hopens) hmark hrun hlast

/-- A number is read wherever it ends. -/
theorem Numeral.written {kind : TokenKind} (h : Numeral text kind radix) :
    Written ⟨kind, String.ofList text, some radix⟩ := by
  cases h with
  | marked hmarked =>
    obtain ⟨hradix, groups, hne, hgroups, rfl⟩ := hmarked
    obtain ⟨hrun, hlast⟩ := radixRun_iff.mpr ⟨groups, hne, hgroups, rfl⟩
    exact written_radix hradix hrun hlast
  | integer hdecimal hpoint =>
    have hwritten := hdecimal.written
    simpa [hpoint] using hwritten
  | float hdecimal hfloat =>
    have hwritten := hdecimal.written
    rwa [if_pos (by simpa using hfloat)] at hwritten

theorem Numeral.kind_eq {kind : TokenKind} (h : Numeral text kind radix) :
    kind = .integer ∨ kind = .float := by
  cases h with
  | marked _ => exact .inl rfl
  | integer _ _ => exact .inl rfl
  | float _ _ => exact .inr rfl

end Lexical

namespace Token

open Lexical

/-- A text is scanned as one number that it spells as a whole if and only if it is a number by the
grammar, and then the token says of which kind and radix. -/
theorem alone_number_iff (text : String) (l : Lexeme) :
    (Alone text l ∧ (l.kind = .integer ∨ l.kind = .float) ∧ l.value = text) ↔
      ∃ kind radix, Numeral text.toList kind radix ∧ l = ⟨kind, text, some radix⟩ := by
  have hspelled : ∀ {l : Lexeme}, l.kind = .integer ∨ l.kind = .float → l.text = l.value := by
    rintro ⟨kind, value, radix⟩ (rfl | rfl) <;> rfl
  constructor
  · rintro ⟨halone, hkind, rfl⟩
    rw [← hspelled hkind] at halone
    obtain ⟨rest, c, cs, htext, hread⟩ := alone_text_iff.mp halone
    obtain ⟨kind, radix, hnumeral, hl⟩ := numeral_of_read hread hkind
    rw [← htext, hspelled hkind] at hnumeral hl
    rw [String.ofList_toList] at hl
    exact ⟨kind, radix, hnumeral, hl⟩
  · rintro ⟨kind, radix, hnumeral, rfl⟩
    have hwritten := hnumeral.written [] ends_nil
    rw [String.ofList_toList] at hwritten
    have halone := alone_text_iff.mpr ⟨[], hwritten⟩
    rw [hspelled hnumeral.kind_eq] at halone
    exact ⟨halone, hnumeral.kind_eq, rfl⟩

end Token

end FrontEnd
