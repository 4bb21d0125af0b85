import FrontEnd.Proofs.Lexing.Parts
import FrontEnd.Proofs.Lexing.Scan

/-! A scan loses nothing. The tokens of a text stand in it one behind the other, each on the
characters that write it, and what is left between them is blanks and comments. -/
namespace FrontEnd

namespace Text

/-- The offset of a place between two characters, or of an end of the text. -/
def Boundary (text : List Char) (offset : Nat) : Prop :=
  ∃ front back, text = front ++ back ∧ byteLength front = offset

/-- The bytes of the range are those of the part. -/
def Covers (text : List Char) (range : ByteRange) (part : List Char) : Prop :=
  ∃ front back, text = front ++ part ++ back ∧ byteLength front = range.start ∧
    byteLength (front ++ part) = range.stop

variable {text part : List Char} {range : ByteRange}

/-- A text has one cut at an offset. -/
theorem append_inj_of_byteLength {front back front' back' : List Char}
    (h : front ++ back = front' ++ back') (hlen : byteLength front = byteLength front') :
    front = front' ∧ back = back' := by
  have hsplit := splitBytes_append front back
  rw [h, hlen, splitBytes_append] at hsplit
  obtain ⟨hfront, hback⟩ := Prod.mk.inj (Option.some.inj hsplit)
  exact ⟨hfront.symm, hback.symm⟩

theorem Boundary.le {offset : Nat} (h : Boundary text offset) : offset ≤ byteLength text := by
  obtain ⟨front, back, rfl, rfl⟩ := h
  rw [byteLength_append]
  exact Nat.le_add_right _ _

theorem Covers.boundary (h : Covers text range part) :
    Boundary text range.start ∧ Boundary text range.stop := by
  obtain ⟨front, back, rfl, hstart, hstop⟩ := h
  exact ⟨⟨front, part ++ back, List.append_assoc .., hstart⟩, ⟨front ++ part, back, rfl, hstop⟩⟩

theorem Covers.start_lt_stop (h : Covers text range part) (hpart : part ≠ []) :
    range.start < range.stop := by
  obtain ⟨front, back, -, hstart, hstop⟩ := h
  obtain ⟨c, cs, rfl⟩ := List.exists_cons_of_ne_nil hpart
  have := c.utf8Size_pos
  simp only [byteLength_append, byteLength_cons] at hstop
  omega

end Text

namespace Lexical

open Text

/-- Text made of separators, before the text that follows it. -/
inductive Separation : List Char → List Char → Prop where
  | nil {more : List Char} : Separation [] more
  | cons {first gap more : List Char} : Separator first (gap ++ more) → Separation gap more →
      Separation (first ++ gap) more

/-- Between the two offsets there are separators only. -/
def Apart (text : List Char) (i j : Nat) : Prop :=
  ∃ front gap back, text = front ++ gap ++ back ∧ byteLength front = i ∧
    byteLength (front ++ gap) = j ∧ Separation gap back

/-- The tokens are those of the text from an offset on, the first of them at `index`. -/
inductive Scanned (text : List Char) : Nat → Nat → List Token → Prop where
  | done {offset index : Nat} : Apart text offset (byteLength text) →
      Scanned text offset index [.endMark (byteLength text) index]
  | token {offset index : Nat} {l : Lexeme} {span : ByteRange} {rest : List Char}
      {tokens : List Token} : Apart text offset span.start → Covers text span l.text.toList →
      Reads l rest → Scanned text span.stop (index + 1) tokens →
      Scanned text offset index (⟨l, span, index⟩ :: tokens)

variable {text : List Char} {offset index : Nat} {tokens : List Token}

theorem Apart.le {i j : Nat} (h : Apart text i j) : i ≤ j := by
  obtain ⟨front, gap, back, -, hi, hj, -⟩ := h
  rw [byteLength_append] at hj
  omega

theorem apart_self (front rest : List Char) :
    Apart (front ++ rest) (byteLength front) (byteLength front) :=
  ⟨front, [], rest, by simp, rfl, by simp, .nil⟩

theorem Apart.cons {front first rest : List Char} {j : Nat} (hfirst : Separator first rest)
    (h : Apart (front ++ first ++ rest) (byteLength (front ++ first)) j) :
    Apart (front ++ first ++ rest) (byteLength front) j := by
  obtain ⟨front', gap, back, htext, hi, hj, hgap⟩ := h
  -- both texts are cut at the offset behind the first separator
  rw [List.append_assoc front'] at htext
  obtain ⟨rfl, rfl⟩ := append_inj_of_byteLength htext hi.symm
  exact ⟨front, first ++ gap, back, by simp, rfl, by simpa using hj, .cons hfirst hgap⟩

theorem Scanned.separate {front first rest : List Char} (hfirst : Separator first rest)
    (h : Scanned (front ++ first ++ rest) (byteLength (front ++ first)) index tokens) :
    Scanned (front ++ first ++ rest) (byteLength front) index tokens := by
  cases h with
  | done hgap => exact .done (hgap.cons hfirst)
  | token hgap hcovers hreads hrest => exact .token (hgap.cons hfirst) hcovers hreads hrest

/-- Every round of a scan reads a separator or a token. -/
theorem scanned_of_scan {rounds : Nat} :
    ∀ {index : Nat} {front rest : List Char} {position : Position} {tokens : List Token},
      scan rounds index ⟨rest, byteLength front, position⟩ = .ok tokens →
      Scanned (front ++ rest) (byteLength front) index tokens := by
  induction rounds with
  | zero =>
    intro index front rest position tokens h
    cases h
  | succ rounds ih =>
    intro index front rest position tokens h
    cases rest with
    | nil =>
      cases h
      have hgap := apart_self front []
      rw [List.append_nil] at hgap ⊢
      exact .done hgap
    | cons c rest =>
      cases hread : read c rest with
      | error cause =>
        simp only [scan, hread] at h
        cases h
      | ok reading =>
        obtain ⟨text, lexeme⟩ := reading
        -- what was read moves over to the text in front
        cases lexeme with
        | none =>
          obtain ⟨more, htext, hfirst⟩ := separator_of_read hread
          rw [scan_trivia hread htext, ← byteLength_append] at h
          rw [htext, ← List.append_assoc]
          exact (ih h).separate hfirst
        | some l =>
          obtain rfl := text_of_read hread
          obtain ⟨more, htext, hreads⟩ := reads_of_read hread
          rw [scan_round hread htext] at h
          split at h
          · cases h
          · rename_i later hlater
            cases h
            rw [← byteLength_append] at hlater ⊢
            have hrest := ih hlater
            rw [htext]
            rw [List.append_assoc] at hrest
            exact .token (apart_self front _) ⟨front, more, by simp, rfl, rfl⟩ hreads hrest

namespace Scanned

theorem index_eq (h : Scanned text offset index tokens) {i : Nat} {token : Token}
    (htoken : tokens[i]? = some token) : token.index = index + i := by
  induction h generalizing i with
  | done _ =>
    cases i with
    | zero =>
      cases htoken
      rfl
    | succ i => cases htoken
  | token _ _ _ _ ih =>
    cases i with
    | zero =>
      cases htoken
      rfl
    | succ i =>
      have := ih htoken
      omega

theorem closed (h : Scanned text offset index tokens) :
    ∃ front, tokens = front ++ [.endMark (byteLength text) (index + front.length)] ∧
      ∀ token ∈ front, token.kind ≠ .endMark := by
  induction h with
  | done _ => exact ⟨[], rfl, by simp⟩
  | @token _ index l span _ _ _ _ hreads _ ih =>
    obtain ⟨front, rfl, hkinds⟩ := ih
    obtain ⟨c, cs, -, hread⟩ := hreads
    refine ⟨⟨l, span, index⟩ :: front, ?_, ?_⟩
    · simp [Nat.add_assoc, Nat.add_comm 1]
    · intro token hmem
      rcases List.mem_cons.mp hmem with rfl | hmem
      · exact (kind_of_read hread).1
      · exact hkinds token hmem

/-- A token is the end mark, or it was read at its span. -/
theorem covers (h : Scanned text offset index tokens) {token : Token} (hmem : token ∈ tokens) :
    token = .endMark (byteLength text) token.index ∨
      Covers text token.span token.text.toList ∧ ∃ rest, Reads token.toLexeme rest := by
  induction h with
  | done _ =>
    obtain rfl := List.mem_singleton.mp hmem
    exact .inl rfl
  | token _ hcovers hreads _ ih =>
    rcases List.mem_cons.mp hmem with rfl | hmem
    · exact .inr ⟨hcovers, _, hreads⟩
    · exact ih hmem

theorem start_le_stop (h : Scanned text offset index tokens) {token : Token}
    (hmem : token ∈ tokens) : token.span.start ≤ token.span.stop := by
  rcases h.covers hmem with heq | ⟨⟨front, back, -, hstart, hstop⟩, -⟩
  · rw [heq]
    exact Nat.le_refl _
  · rw [byteLength_append] at hstop
    omega

theorem offset_le (h : Scanned text offset index tokens) {token : Token} (hmem : token ∈ tokens) :
    offset ≤ token.span.start := by
  induction h with
  | done hgap =>
    obtain rfl := List.mem_singleton.mp hmem
    exact hgap.le
  | token hgap hcovers _ _ ih =>
    rcases List.mem_cons.mp hmem with rfl | hmem
    · exact hgap.le
    · -- later tokens start behind the end of this one
      have hlater := ih hmem
      have hfirst := hgap.le
      obtain ⟨front, back, -, hstart, hstop⟩ := hcovers
      rw [byteLength_append] at hstop
      omega

theorem ordered (h : Scanned text offset index tokens) :
    tokens.Pairwise fun a b => a.span.stop ≤ b.span.start := by
  induction h with
  | done _ => exact List.pairwise_singleton _ _
  | token _ _ _ hrest ih => exact .cons (fun _ hmem => hrest.offset_le hmem) ih

theorem apart_head (h : Scanned text offset index tokens) {token : Token}
    (hhead : tokens.head? = some token) : Apart text offset token.span.start := by
  cases h with
  | done hgap =>
    cases hhead
    exact hgap
  | token hgap _ _ _ =>
    cases hhead
    exact hgap

theorem apart_next (h : Scanned text offset index tokens) {i : Nat} {token next : Token}
    (htoken : tokens[i]? = some token) (hnext : tokens[i + 1]? = some next) :
    Apart text token.span.stop next.span.start := by
  induction h generalizing i with
  | done _ => simp at hnext
  | token _ _ _ hrest ih =>
    cases i with
    | zero =>
      cases htoken
      refine hrest.apart_head ?_
      rw [List.head?_eq_getElem?]
      exact hnext
    | succ i => exact ih htoken hnext

end Scanned

/-- The tokens keep every character of the text: they are written on it in order, closed by one end
mark, and only separators are left out. -/
structure Lossless (text : List Char) (tokens : List Token) : Prop where
  /-- One end mark stands behind all other tokens, at the end of the text. -/
  closed : ∃ front, tokens = front ++ [.endMark (byteLength text) front.length] ∧
    ∀ token ∈ front, token.kind ≠ .endMark
  numbered : ∀ (i : Nat) (token : Token), tokens[i]? = some token → token.index = i
  boundaries : ∀ token ∈ tokens, token.span.start ≤ token.span.stop ∧
    Boundary text token.span.start ∧ Boundary text token.span.stop
  ordered : tokens.Pairwise fun a b => a.span.stop ≤ b.span.start
  /-- The source text of a token is the text that writes it, and there is some. -/
  spelled : ∀ token ∈ tokens, token.kind ≠ .endMark →
    token.span.start < token.span.stop ∧ Covers text token.span token.text.toList
  radix : ∀ token ∈ tokens,
    token.radix.isSome = true ↔ token.kind = .integer ∨ token.kind = .float
  leading : ∀ token, tokens.head? = some token → Apart text 0 token.span.start
  between : ∀ (i : Nat) (token next : Token), tokens[i]? = some token →
    tokens[i + 1]? = some next → Apart text token.span.stop next.span.start

theorem Scanned.lossless (h : Scanned text 0 0 tokens) : Lossless text tokens where
  closed := by simpa using h.closed
  numbered i token htoken := by simpa using h.index_eq htoken
  boundaries token hmem := by
    refine ⟨h.start_le_stop hmem, ?_⟩
    rcases h.covers hmem with heq | ⟨hcovers, -⟩
    · have hend : Boundary text (byteLength text) := ⟨text, [], by simp, rfl⟩
      rw [heq]
      exact ⟨hend, hend⟩
    · exact hcovers.boundary
  ordered := h.ordered
  spelled token hmem hkind := by
    rcases h.covers hmem with heq | ⟨hcovers, rest, c, cs, htext, -⟩
    · rw [heq] at hkind
      exact absurd rfl hkind
    · exact ⟨hcovers.start_lt_stop (by simp [htext]), hcovers⟩
  radix token hmem := by
    rcases h.covers hmem with heq | ⟨-, rest, c, cs, -, hread⟩
    · rw [heq]
      simp [Token.endMark, Lexeme.endMark]
    · exact (kind_of_read hread).2
  leading _ hhead := h.apart_head hhead
  between _ _ _ htoken hnext := h.apart_next htoken hnext

namespace Lossless

variable {i j : Nat} {first last : Token}

/-- A token ends before the ones behind it start. -/
theorem stop_le_start (h : Lossless text tokens) (hij : i < j) (hfirst : tokens[i]? = some first)
    (hlast : tokens[j]? = some last) : first.span.stop ≤ last.span.start := by
  obtain ⟨hi, rfl⟩ := List.getElem?_eq_some_iff.mp hfirst
  obtain ⟨hj, rfl⟩ := List.getElem?_eq_some_iff.mp hlast
  exact List.pairwise_iff_getElem.mp h.ordered i j hi hj hij

/-- Both ends of the tokens keep their order. -/
theorem span_le_span (h : Lossless text tokens) (hij : i ≤ j) (hfirst : tokens[i]? = some first)
    (hlast : tokens[j]? = some last) :
    first.span.start ≤ last.span.start ∧ first.span.stop ≤ last.span.stop := by
  rcases Nat.eq_or_lt_of_le hij with rfl | hlt
  · obtain rfl : first = last := Option.some.inj (hfirst.symm.trans hlast)
    exact ⟨Nat.le_refl _, Nat.le_refl _⟩
  · have hnext := h.stop_le_start hlt hfirst hlast
    have hfront := (h.boundaries first (List.mem_of_getElem? hfirst)).1
    have hback := (h.boundaries last (List.mem_of_getElem? hlast)).1
    omega

/-- The bytes of a range of tokens go from the first of them to the last, where the last token of
the list stands for all indices behind it. -/
theorem bytes_min (h : Lossless text tokens) {r : TokenRange} (hr : r.start < r.stop) :
    ∃ first last, tokens[min r.start (tokens.length - 1)]? = some first ∧
      tokens[min (r.stop - 1) (tokens.length - 1)]? = some last ∧
      r.bytes tokens = .ok ⟨first.span.start, last.span.stop⟩ ∧
      first.span.start ≤ last.span.stop := by
  have hlength : 0 < tokens.length := by
    obtain ⟨front, rfl, -⟩ := h.closed
    simp
  obtain ⟨first, hfirst⟩ : ∃ first, tokens[min r.start (tokens.length - 1)]? = some first :=
    ⟨_, List.getElem?_eq_getElem (by omega)⟩
  obtain ⟨last, hlast⟩ : ∃ last, tokens[min (r.stop - 1) (tokens.length - 1)]? = some last :=
    ⟨_, List.getElem?_eq_getElem (by omega)⟩
  have hle : first.span.start ≤ last.span.stop :=
    Nat.le_trans (h.boundaries first (List.mem_of_getElem? hfirst)).1
      (h.span_le_span (by omega) hfirst hlast).2
  refine ⟨first, last, hfirst, hlast, ?_, hle⟩
  have hempty : r.isEmpty = false := beq_eq_false_iff_ne.mpr (Nat.ne_of_lt hr)
  have hpos : r.stop ≠ 0 := by omega
  simp only [TokenRange.bytes, hfirst, hlast, hempty, Bool.false_eq_true, hpos, if_false,
    Nat.max_eq_left hle]

/-- The bytes of a range that ends in the list, which are a stretch of the text. -/
theorem bytes (h : Lossless text tokens) {r : TokenRange} (hr : r.start < r.stop)
    (hstop : r.stop ≤ tokens.length) :
    ∃ first last, tokens[r.start]? = some first ∧ tokens[r.stop - 1]? = some last ∧
      r.bytes tokens = .ok ⟨first.span.start, last.span.stop⟩ ∧
      first.span.start ≤ last.span.stop ∧
      Boundary text first.span.start ∧ Boundary text last.span.stop := by
  obtain ⟨first, last, hfirst, hlast, hbytes, hle⟩ := h.bytes_min hr
  rw [Nat.min_eq_left (by omega)] at hfirst hlast
  exact ⟨first, last, hfirst, hlast, hbytes, hle,
    (h.boundaries first (List.mem_of_getElem? hfirst)).2.1,
    (h.boundaries last (List.mem_of_getElem? hlast)).2.2⟩

end Lossless

end Lexical

namespace Token

open Lexical Text

variable {source : String} {tokens : List Token}

theorem scanned_ofSource (h : ofSource source = .ok tokens) :
    Scanned source.toList 0 0 tokens := by
  have hscan : scan _ 0 ⟨source.toList, byteLength [], .start⟩ = .ok tokens := h
  exact scanned_of_scan hscan

/-- Scanning keeps the source text, apart from what separates its tokens. -/
theorem ofSource_lossless (h : ofSource source = .ok tokens) : Lossless source.toList tokens :=
  (scanned_ofSource h).lossless

/-- Characters of several bytes stand in the comment, in the literals and between the tokens. -/
theorem ofSource_lossless_wide :
    ∃ tokens, ofSource "/* é */x\u2003:: r\"ü\" '\\x41'//→" = .ok tokens ∧
      Lossless "/* é */x\u2003:: r\"ü\" '\\x41'//→".toList tokens := by
  cases h : ofSource "/* é */x\u2003:: r\"ü\" '\\x41'//→" with
  | ok tokens => exact ⟨tokens, rfl, ofSource_lossless h⟩
  | error failure =>
    have hread : (ofSource "/* é */x\u2003:: r\"ü\" '\\x41'//→").isOk = true := by decide +kernel
    rw [h] at hread
    cases hread

end Token

end FrontEnd
