import FrontEnd.Fault

/-! Half-open ranges: of bytes in a source text, and of tokens in a token list. A node of a tree is
located by the tokens that it covers. -/
namespace FrontEnd

/-- The bytes from `start` up to, not including, `stop`. -/
structure ByteRange where
  start : Nat
  stop : Nat
deriving DecidableEq

namespace ByteRange

def isEmpty (r : ByteRange) : Bool :=
  r.start == r.stop

/-- The number of bytes covered; a range that ends before its start has none. -/
def length (r : ByteRange) : Except Fault Nat :=
  if r.start ≤ r.stop then .ok (r.stop - r.start) else .error .overflow

end ByteRange

/-- The tokens from `start` up to, not including, `stop`. -/
structure TokenRange where
  start : Nat
  stop : Nat
deriving DecidableEq

namespace TokenRange

/-- The range of no tokens at the start of the list. -/
def zero : TokenRange := ⟨0, 0⟩

/-- The range with the given ends, which have to be in order. -/
def checked (start stop : Nat) : Except Fault TokenRange :=
  if start ≤ stop then .ok ⟨start, stop⟩ else .error (.invertedRange start stop)

/-- The range of the one token at `index`. -/
def single (index : Nat) : TokenRange :=
  ⟨index, index + 1⟩

/-- As `single`, where both ends have to be addresses. -/
def singleChecked (index : Nat) : Except Fault TokenRange :=
  if index + 1 < addressLimit then .ok (single index) else .error .overflow

/-- From `start` up to `stop`, or the empty range at `start` if `stop` lies before it. -/
def clamped (start stop : Nat) : TokenRange :=
  ⟨start, max stop start⟩

/-- From the start of one range to the end of another. -/
def upTo (r other : TokenRange) : TokenRange :=
  clamped r.start other.stop

def isEmpty (r : TokenRange) : Bool :=
  r.start == r.stop

/-- The range as it is shown in messages. -/
def text (r : TokenRange) : String :=
  "[" ++ toString r.start ++ ", " ++ toString r.stop ++ ")"

theorem checked_eq_ok_iff {start stop : Nat} {r : TokenRange} :
    checked start stop = .ok r ↔ start ≤ stop ∧ r = ⟨start, stop⟩ := by
  unfold checked
  by_cases h : start ≤ stop
  · simp [h, eq_comm]
  · simp [h]

end TokenRange

end FrontEnd
