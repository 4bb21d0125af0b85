import FrontEnd.Token.Stream
import Mathlib.Data.List.Basic

/-! The places of a token stream. Rules read a stream through the lexemes at its places, and only
up to its first end mark, the limit; the token at a place up to there carries that place as its
index. -/
namespace FrontEnd.TokenStream

/-- What the token at a place says. -/
def lexeme (stream : TokenStream) (i : Nat) : Lexeme :=
  (stream.get i).toLexeme

/-- The place of the first end mark. -/
def limit (stream : TokenStream) : Nat :=
  stream.tokens.findIdx (·.kind == .endMark)

theorem limit_lt_size (stream : TokenStream) : stream.limit < stream.tokens.size := by
  obtain ⟨last, hlast, hkind⟩ := Option.map_eq_some_iff.mp stream.closed
  rw [Array.back?_eq_getElem?] at hlast
  exact Array.findIdx_lt_size_of_exists
    ⟨last, Array.mem_of_getElem? hlast, by simpa using hkind⟩

theorem get_of_lt {stream : TokenStream} {i : Nat} (h : i < stream.tokens.size) :
    stream.get i = stream.tokens[i] := by
  have hi : min i (stream.tokens.size - 1) = i := by omega
  simp only [get, hi]

theorem kind_limit (stream : TokenStream) : (stream.get stream.limit).kind = .endMark := by
  rw [get_of_lt stream.limit_lt_size]
  have hlt := stream.limit_lt_size
  have h : (stream.tokens[stream.limit].kind == .endMark) = true :=
    Array.findIdx_getElem (w := hlt)
  simpa using h

/-- No token before the limit is an end mark. -/
theorem kind_of_lt_limit {stream : TokenStream} {i : Nat} (h : i < stream.limit) :
    (stream.get i).kind ≠ .endMark := by
  rw [get_of_lt (Nat.lt_trans h stream.limit_lt_size)]
  have hn := Array.not_of_lt_findIdx h
  simpa using hn

theorem index_get {stream : TokenStream} {i : Nat} (h : i ≤ stream.limit) :
    (stream.get i).index = i := by
  have hi : i < stream.tokens.size := Nat.lt_of_le_of_lt h stream.limit_lt_size
  rw [get_of_lt hi]
  exact stream.numbered i hi

/-- A place up to the limit that shows no end mark lies before the limit. -/
theorem lt_limit {stream : TokenStream} {i : Nat} (h : i ≤ stream.limit)
    (hk : (stream.get i).kind ≠ .endMark) : i < stream.limit := by
  refine Nat.lt_of_le_of_ne h ?_
  rintro rfl
  exact hk stream.kind_limit

/-- A stream shows the tokens that it was made from. -/
theorem lexeme_ofTokens {tokens : List Token} {i : Nat} {token : Token}
    (h : tokens[i]? = some token) : (ofTokens tokens).lexeme i = token.toLexeme := by
  obtain ⟨hi, htoken⟩ := List.getElem?_eq_some_iff.mp h
  have hclose : (close tokens)[i]? = some token := by
    unfold close
    split
    · exact h
    · rw [List.getElem?_append_left hi, h]
  have hnumber : (ofTokens tokens).tokens[i]? = some { token with index := i } := by
    simp only [ofTokens, number, List.getElem?_toArray, List.getElem?_mapIdx, hclose]
    rfl
  obtain ⟨hsize, hget⟩ := Array.getElem?_eq_some_iff.mp hnumber
  unfold lexeme
  rw [get_of_lt hsize, hget]

/-- Behind the tokens that it was made from a stream shows an end mark, if there was none. -/
theorem kind_length_ofTokens {tokens : List Token}
    (h : ∀ token ∈ tokens, token.kind ≠ .endMark) :
    ((ofTokens tokens).lexeme tokens.length).kind = .endMark := by
  have hlast : ¬ tokens.getLast?.map (·.kind) = some .endMark := by
    intro hlast
    obtain ⟨last, hmem, hkind⟩ := Option.map_eq_some_iff.mp hlast
    exact h last (List.mem_of_getLast? hmem) hkind
  have hnumber : ((ofTokens tokens).tokens[tokens.length]?).map (·.kind) = some .endMark := by
    simp only [ofTokens, number, close, if_neg hlast, List.getElem?_toArray, List.getElem?_mapIdx]
    simp [Token.endMark, Lexeme.endMark]
  obtain ⟨token, htoken, hkind⟩ := Option.map_eq_some_iff.mp hnumber
  obtain ⟨hsize, hget⟩ := Array.getElem?_eq_some_iff.mp htoken
  unfold lexeme
  rw [get_of_lt hsize, hget]
  exact hkind

/-- A place behind the last token shows what the last token shows. -/
theorem kind_get_of_size_le {stream : TokenStream} {i : Nat} (h : stream.tokens.size ≤ i + 1) :
    (stream.get i).kind = .endMark := by
  obtain ⟨last, hlast, hkind⟩ := Option.map_eq_some_iff.mp stream.closed
  rw [Array.back?_eq_getElem?] at hlast
  obtain ⟨hsize, hget⟩ := Array.getElem?_eq_some_iff.mp hlast
  have hi : min i (stream.tokens.size - 1) = stream.tokens.size - 1 := by omega
  simp only [get, hi, hget]
  exact hkind

/-- Every place of a stream shows a token that the stream was made from, or an end mark. -/
theorem lexeme_ofTokens_or (tokens : List Token) (i : Nat) :
    (∃ token ∈ tokens, (ofTokens tokens).lexeme i = token.toLexeme) ∨
      ((ofTokens tokens).lexeme i).kind = .endMark := by
  by_cases hi : i < tokens.length
  · left
    exact ⟨tokens[i], List.getElem_mem hi, lexeme_ofTokens (List.getElem?_eq_getElem hi)⟩
  · right
    apply kind_get_of_size_le
    have hclose : (close tokens).length ≤ tokens.length + 1 := by
      unfold close
      split <;> simp
    have hsize : (ofTokens tokens).tokens.size = (close tokens).length := by
      simp [ofTokens, number]
    omega

/-- The limit of a stream is the first end mark of the tokens, or their number. -/
theorem limit_ofTokens (tokens : List Token) :
    (ofTokens tokens).limit = tokens.findIdx (·.kind == .endMark) := by
  refine Nat.le_antisymm ?_ ?_
  · refine Nat.le_of_not_lt ?_
    intro hlt
    have hkind := kind_of_lt_limit hlt
    have hle : tokens.findIdx (·.kind == .endMark) ≤ tokens.length := List.findIdx_le_length
    rcases Nat.lt_or_eq_of_le hle with hn | hn
    · have hfound := List.findIdx_getElem (w := hn)
      rw [show ((ofTokens tokens).get _).kind = ((ofTokens tokens).lexeme _).kind from rfl,
        lexeme_ofTokens (List.getElem?_eq_getElem hn)] at hkind
      exact hkind (by simpa using hfound)
    · rw [hn] at hkind
      refine hkind (kind_length_ofTokens ?_)
      intro token hmem
      have hnone := List.findIdx_eq_length.mp hn token hmem
      simpa using hnone
  · refine Nat.le_of_not_lt ?_
    intro hlt
    have hlength : (ofTokens tokens).limit < tokens.length :=
      Nat.lt_of_lt_of_le hlt List.findIdx_le_length
    have hnot := List.not_of_lt_findIdx hlt
    have hkind := (ofTokens tokens).kind_limit
    rw [show ((ofTokens tokens).get _).kind = ((ofTokens tokens).lexeme _).kind from rfl,
      lexeme_ofTokens (List.getElem?_eq_getElem hlength)] at hkind
    simp [hkind] at hnot

theorem size_ofTokens (tokens : List Token) :
    (ofTokens tokens).tokens.size = (close tokens).length := by
  simp [ofTokens, number]

theorem close_ne_nil (tokens : List Token) : close tokens ≠ [] := by
  intro h
  have hlast := getLast?_close tokens
  rw [h] at hlast
  cases hlast

/-- What a stream shows is what its tokens say, the last one for every place behind them. -/
theorem some_lexeme_ofTokens (tokens : List Token) (i : Nat) :
    some ((ofTokens tokens).lexeme i) =
      ((close tokens).map (·.toLexeme))[min i ((close tokens).length - 1)]? := by
  have hpos : 0 < (close tokens).length := List.length_pos_iff.mpr (close_ne_nil tokens)
  have hlt : min i ((close tokens).length - 1) < (close tokens).length := by omega
  rw [List.getElem?_map, List.getElem?_eq_getElem hlt]
  simp [lexeme, get, ofTokens, number]

/-- Behind tokens without an end mark a list is closed as it is on its own. -/
theorem map_close_append {a : List Token} (ha : ∀ token ∈ a, token.kind ≠ .endMark)
    (b : List Token) :
    (close (a ++ b)).map (·.toLexeme) = a.map (·.toLexeme) ++ (close b).map (·.toLexeme) := by
  cases b with
  | nil =>
    have hlast : ¬ a.getLast?.map (·.kind) = some .endMark := by
      intro hlast
      obtain ⟨last, hmem, hkind⟩ := Option.map_eq_some_iff.mp hlast
      exact ha last (List.mem_of_getLast? hmem) hkind
    rw [List.append_nil, close, if_neg hlast, List.map_append]
    rfl
  | cons token b =>
    unfold close
    rw [List.getLast?_append_cons]
    split <;> simp

theorem length_close_append {a : List Token} (ha : ∀ token ∈ a, token.kind ≠ .endMark)
    (b : List Token) : (close (a ++ b)).length = a.length + (close b).length := by
  have h := congrArg List.length (map_close_append ha b)
  simpa using h

/-- Behind tokens without an end mark a stream shows what the rest of its tokens shows. -/
theorem lexeme_ofTokens_append {a : List Token} (ha : ∀ token ∈ a, token.kind ≠ .endMark)
    (b : List Token) (i : Nat) :
    (ofTokens (a ++ b)).lexeme (i + a.length) = (ofTokens b).lexeme i := by
  have hpos : 0 < (close b).length := List.length_pos_iff.mpr (close_ne_nil b)
  apply Option.some.inj
  rw [some_lexeme_ofTokens, some_lexeme_ofTokens, map_close_append ha, length_close_append ha,
    List.getElem?_append_right (by rw [List.length_map]; omega), List.length_map]
  congr 1
  omega

end FrontEnd.TokenStream
