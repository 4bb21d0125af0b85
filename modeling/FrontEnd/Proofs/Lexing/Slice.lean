import FrontEnd.Proofs.Lexing.Lossless
import FrontEnd.Text.Slice

/-! Slices of a text exist at the offsets between its characters, and the bytes of a text tell its
ASCII characters apart from all others. -/
namespace FrontEnd.Text

variable {ε : Type} {front back : List Char}

@[simp] theorem ok_bind {α β : Type} (a : α) (next : α → Except ε β) :
    ((.ok a : Except ε α) >>= next) = next a := rfl

@[simp] theorem error_bind {α β : Type} (e : ε) (next : α → Except ε β) :
    ((.error e : Except ε α) >>= next) = .error e := rfl

/-- What has a value has one at each step. -/
theorem bind_eq_ok_iff {α β : Type} {x : Except ε α} {next : α → Except ε β} {b : β} :
    (x >>= next) = .ok b ↔ ∃ a, x = .ok a ∧ next a = .ok b := by
  cases x <;> simp

theorem cut_append (front back : List Char) :
    (cut (byteLength front) (front ++ back) : Except (Failure ε) _) = .ok (front, back) := by
  induction front with
  | nil => simp [cut]
  | cons c cs ih =>
    have hpos := c.utf8Size_pos
    obtain ⟨n, hn⟩ : ∃ n, c.utf8Size + byteLength cs = n + 1 :=
      ⟨c.utf8Size + byteLength cs - 1, by omega⟩
    have hrest : n + 1 - c.utf8Size = byteLength cs := by omega
    have hle : c.utf8Size ≤ n + 1 := by omega
    simp only [byteLength_cons, hn, List.cons_append, cut, hle, if_true, hrest, ih]
    rfl

@[simp] theorem sliceTo_append (front back : List Char) :
    (sliceTo (byteLength front) (front ++ back) : Except (Failure ε) _) = .ok front := by
  rw [sliceTo, cut_append]
  rfl

@[simp] theorem sliceFrom_append (front back : List Char) :
    (sliceFrom (byteLength front) (front ++ back) : Except (Failure ε) _) = .ok back := by
  rw [sliceFrom, cut_append]
  rfl

theorem sliceTo_of_eq {text : List Char} {stop : Nat} (htext : text = front ++ back)
    (hstop : stop = byteLength front) : (sliceTo stop text : Except (Failure ε) _) = .ok front := by
  rw [htext, hstop, sliceTo_append]

theorem sliceFrom_of_eq {text : List Char} {start : Nat} (htext : text = front ++ back)
    (hstart : start = byteLength front) :
    (sliceFrom start text : Except (Failure ε) _) = .ok back := by
  rw [htext, hstart, sliceFrom_append]

theorem slice_append (front middle back : List Char) :
    (slice (byteLength front) (byteLength front + byteLength middle)
      (front ++ (middle ++ back)) : Except (Failure ε) _) = .ok middle := by
  rw [slice, ← byteLength_append, ← List.append_assoc, sliceTo_append]
  exact sliceFrom_append front middle

/-- A cut that exists lies between two characters. -/
theorem append_of_cut {n : Nat} {text : List Char}
    (h : (cut n text : Except (Failure ε) _) = .ok (front, back)) :
    text = front ++ back ∧ byteLength front = n := by
  induction text generalizing n front with
  | nil =>
    cases n with
    | zero =>
      cases h
      simp
    | succ n => cases h
  | cons c cs ih =>
    cases n with
    | zero =>
      cases h
      simp
    | succ n =>
      simp only [cut] at h
      by_cases hle : c.utf8Size ≤ n + 1
      · simp only [hle, if_true] at h
        obtain ⟨⟨front', back'⟩, hcut, hcons⟩ := bind_eq_ok_iff.mp h
        cases hcons
        obtain ⟨hcs, hlength⟩ := ih hcut
        refine ⟨by rw [hcs]; rfl, ?_⟩
        rw [byteLength_cons, hlength]
        omega
      · simp only [hle, if_false] at h
        cases h

/-- A text can be cut between its characters and nowhere else. -/
theorem exists_cut_iff {n : Nat} {text : List Char} :
    (∃ parts, (cut n text : Except (Failure ε) _) = .ok parts) ↔ Boundary text n := by
  constructor
  · intro ⟨⟨front, back⟩, h⟩
    exact ⟨front, back, append_of_cut h⟩
  · intro ⟨front, back, htext, hn⟩
    rw [htext, ← hn]
    exact ⟨(front, back), cut_append front back⟩

instance (text : List Char) (offset : Nat) : Decidable (Boundary text offset) :=
  decidable_of_iff ((cut offset text : Except (Failure Empty) _).isOk = true) <| by
    rw [← exists_cut_iff (ε := Empty)]
    cases (cut offset text : Except (Failure Empty) _) <;> simp [Except.isOk, Except.toBool]

/-- A slice that exists is a part of the text. -/
theorem covers_of_slice {start stop : Nat} {text part : List Char}
    (h : (slice start stop text : Except (Failure ε) _) = .ok part) :
    Covers text ⟨start, stop⟩ part := by
  obtain ⟨before, hto, hfrom⟩ := bind_eq_ok_iff.mp h
  obtain ⟨⟨before', after⟩, hbefore, hto⟩ := bind_eq_ok_iff.mp hto
  obtain ⟨⟨front, part'⟩, hfront, hfrom⟩ := bind_eq_ok_iff.mp hfrom
  cases hto
  cases hfrom
  obtain ⟨htext, hstop⟩ := append_of_cut hbefore
  obtain ⟨hparts, hstart⟩ := append_of_cut hfront
  exact ⟨front, after, by rw [htext, hparts], hstart, by rw [← hparts, hstop]⟩

theorem utf8Size_of_ascii {c : Char} (h : c.toNat < 128) : c.utf8Size = 1 := by
  rw [Char.utf8Size_eq_one_iff, UInt32.le_iff_toNat_le]
  exact Nat.le_of_lt_succ h

theorem byteLength_of_ascii {text : List Char} (h : ∀ c ∈ text, c.toNat < 128) :
    byteLength text = text.length := by
  induction text with
  | nil => rfl
  | cons c cs ih =>
    have hc := utf8Size_of_ascii (h c (by simp))
    have hcs := ih fun d hd => h d (by simp [hd])
    simp [hc, hcs, Nat.add_comm]

theorem byteLength_le (text : List Char) : byteLength text ≤ 4 * text.length := by
  induction text with
  | nil => simp
  | cons c cs ih =>
    have hc := c.utf8Size_le_four
    simp only [byteLength_cons, List.length_cons]
    omega

theorem length_le_byteLength (text : List Char) : text.length ≤ byteLength text := by
  induction text with
  | nil => simp
  | cons c cs ih =>
    have hc := c.utf8Size_pos
    simp only [byteLength_cons, List.length_cons]
    omega

@[simp] theorem bytes_nil : bytes [] = [] := rfl

@[simp] theorem bytes_cons (c : Char) (cs : List Char) :
    bytes (c :: cs) = String.utf8EncodeChar c ++ bytes cs := rfl

@[simp] theorem bytes_append (xs ys : List Char) : bytes (xs ++ ys) = bytes xs ++ bytes ys :=
  List.flatMap_append

@[simp] theorem length_bytes (text : List Char) : (bytes text).length = byteLength text := by
  induction text with
  | nil => rfl
  | cons c cs ih => simp [ih]

/-- The byte behind a part of a text is the first one of the rest. -/
theorem getElem?_bytes_append (front back : List Char) (i : Nat) :
    (bytes (front ++ back))[byteLength front + i]? = (bytes back)[i]? := by
  rw [bytes_append, List.getElem?_append_right (by simp), length_bytes]
  congr 1
  omega

/-- The first byte of a character is the character itself if that is in ASCII, and no ASCII
character otherwise. -/
theorem exists_head_utf8EncodeChar (c : Char) :
    ∃ byte tail, String.utf8EncodeChar c = byte :: tail ∧
      (c.toNat < 128 ∧ byte.toNat = c.toNat ∨ 128 ≤ c.toNat ∧ 128 ≤ byte.toNat) := by
  have hv : c.val.toNat = c.toNat := rfl
  simp only [String.utf8EncodeChar, hv]
  by_cases h₁ : c.toNat ≤ 127
  · simp only [h₁, if_true]
    refine ⟨_, _, rfl, .inl ⟨by omega, ?_⟩⟩
    simp
    omega
  · simp only [h₁, if_false]
    -- a longer code starts with the mark of its length, which is 192 or more
    split
    · refine ⟨_, _, rfl, .inr ⟨by omega, ?_⟩⟩
      simp
      omega
    · split
      · refine ⟨_, _, rfl, .inr ⟨by omega, ?_⟩⟩
        simp
        omega
      · refine ⟨_, _, rfl, .inr ⟨by omega, ?_⟩⟩
        simp
        omega

/-- What the first byte of a character says about the character. -/
theorem exists_byte_cons (c : Char) (cs : List Char) :
    ∃ byte, (bytes (c :: cs))[0]? = some byte ∧ isDigitByte byte = c.isDigit ∧
      ∀ d : Char, d.toNat < 128 → (byte = d.toUInt8 ↔ c = d) := by
  obtain ⟨byte, tail, hbyte, hvalue⟩ := exists_head_utf8EncodeChar c
  refine ⟨byte, by simp [hbyte], ?_, ?_⟩
  · rw [Bool.eq_iff_iff, Lexical.isDigit_iff]
    simp only [isDigitByte, Bool.and_eq_true, decide_eq_true_eq, UInt8.le_iff_toNat_le]
    have hzero : ('0'.toUInt8).toNat = 48 := rfl
    have hnine : ('9'.toUInt8).toNat = 57 := rfl
    omega
  · intro d hd
    have hcode : (d.toUInt8).toNat = d.toNat := by
      show (UInt8.ofNat d.toNat).toNat = d.toNat
      simp
      omega
    have hchar : c = d ↔ c.toNat = d.toNat := by
      constructor
      · intro h
        rw [h]
      · intro h
        rw [← Char.ofNat_toNat c, ← Char.ofNat_toNat d, h]
    rw [← UInt8.toNat_inj, hcode, hchar]
    omega

end FrontEnd.Text
