import FrontEnd.Token.Basic

/-! Token streams: lists of tokens that a grammar can be run on. A stream ends in an end mark and
its tokens are numbered by their places, whatever list it was made from. -/
namespace FrontEnd

structure TokenStream where
  tokens : Array Token
  closed : tokens.back?.map (·.kind) = some .endMark
  numbered : ∀ i (h : i < tokens.size), tokens[i].index = i

namespace TokenStream

/-- Adds an end mark behind the last token unless that is one. -/
def close (tokens : List Token) : List Token :=
  if tokens.getLast?.map (·.kind) = some .endMark then tokens
  else tokens ++ [.endMark ((tokens.getLast?.map (·.span.stop)).getD 0) 0]

/-- Gives every token its place in the list as its index. -/
def number (tokens : List Token) : List Token :=
  tokens.mapIdx fun i token => { token with index := i }

theorem getLast?_close (tokens : List Token) :
    (close tokens).getLast?.map (·.kind) = some .endMark := by
  unfold close
  split
  · assumption
  · simp [Token.endMark, Lexeme.endMark]

theorem getLast?_number (tokens : List Token) :
    (number tokens).getLast?.map (·.kind) = tokens.getLast?.map (·.kind) := by
  simp only [number, List.getLast?_mapIdx, Option.map_map]
  rfl

/-- The stream of a list of tokens. -/
def ofTokens (tokens : List Token) : TokenStream where
  tokens := (number (close tokens)).toArray
  closed := by
    rw [List.back?_toArray, getLast?_number, getLast?_close]
  numbered := by
    intro i h
    simp [number]

theorem size_pos (stream : TokenStream) : 0 < stream.tokens.size := by
  have h := stream.closed
  cases hs : stream.tokens.size with
  | zero =>
    rw [Array.eq_empty_of_size_eq_zero hs] at h
    simp at h
  | succ n => exact Nat.succ_pos n

/-- The token at a place; every place behind the stream shows its end mark. -/
def get (stream : TokenStream) (i : Nat) : Token :=
  have h : min i (stream.tokens.size - 1) < stream.tokens.size := by
    have := stream.size_pos
    omega
  stream.tokens[min i (stream.tokens.size - 1)]

end TokenStream

end FrontEnd
