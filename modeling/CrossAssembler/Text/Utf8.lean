import CrossAssembler.Fault

/-!
# Text in files

A file holds text as UTF-8. The first byte of a character tells how many bytes follow and, for some
first bytes, in which range the second one lies; all others lie from 80 to BF. Bytes that are no
text are reported with their position, from the first byte of the character to the last one that
still fits.

In the text every line ends with a line feed: a carriage return, alone or in front of a line feed,
stands for one (`unifyLineEnds`).
-/

namespace CrossAssembler.Text

/-- What the first byte of a character announces: how many bytes follow, the range of the second
byte, and the leading bits of the code point. -/
structure Lead where
  tails : Nat
  least : UInt8
  greatest : UInt8
  bits : Nat
  deriving DecidableEq, Repr

/-- The announcement of a first byte, unless no character starts with it. -/
def lead? (b : UInt8) : Option Lead :=
  if b < 0x80 then some ⟨0, 0x80, 0xBF, b.toNat⟩
  else if b < 0xC2 then none
  else if b < 0xE0 then some ⟨1, 0x80, 0xBF, b.toNat % 0x20⟩
  else if b = 0xE0 then some ⟨2, 0xA0, 0xBF, 0⟩
  else if b = 0xED then some ⟨2, 0x80, 0x9F, 0x0D⟩
  else if b < 0xF0 then some ⟨2, 0x80, 0xBF, b.toNat % 0x10⟩
  else if b = 0xF0 then some ⟨3, 0x90, 0xBF, 0⟩
  else if b < 0xF4 then some ⟨3, 0x80, 0xBF, b.toNat % 0x08⟩
  else if b = 0xF4 then some ⟨3, 0x80, 0x8F, 4⟩
  else none

/-- The code point of a character whose first `taken` bytes are read, `bits` so far, and the bytes
behind it; or the number of bytes that fit and what is wrong with the next one. -/
def finishChar (bits taken : Nat) (least greatest : UInt8) :
    Nat → List UInt8 → Except (Nat × Malformation) (Nat × List UInt8)
  | 0, bytes => .ok (bits, bytes)
  | _ + 1, [] => .error (taken, .endOfData)
  | n + 1, b :: bytes =>
    if least ≤ b ∧ b ≤ greatest then
      finishChar (bits * 0x40 + b.toNat % 0x40) (taken + 1) 0x80 0xBF n bytes
    else .error (taken, .continuationByte)

/-- The character that starts with a byte, and the bytes behind it. -/
def decodeChar (b : UInt8) (bytes : List UInt8) :
    Except (Nat × Malformation) (Char × List UInt8) :=
  match lead? b with
  | none => .error (1, .startByte)
  | some l =>
    (finishChar l.bits 1 l.least l.greatest l.tails bytes).map fun (code, rest) =>
      (Char.ofNat code, rest)

theorem length_finishChar_le {bits taken : Nat} {least greatest : UInt8} {n : Nat}
    {bytes : List UInt8} {code : Nat} {rest : List UInt8}
    (h : finishChar bits taken least greatest n bytes = .ok (code, rest)) :
    rest.length ≤ bytes.length := by
  induction n generalizing bits taken least greatest bytes with
  | zero =>
    simp only [finishChar, Except.ok.injEq, Prod.mk.injEq] at h
    exact Nat.le_of_eq (by rw [h.2])
  | succ n ih =>
    cases bytes with
    | nil => simp [finishChar] at h
    | cons b bytes =>
      rw [finishChar] at h
      split at h
      · exact Nat.le_succ_of_le (ih h)
      · cases h

theorem length_decodeChar_le {b : UInt8} {bytes : List UInt8} {c : Char} {rest : List UInt8}
    (h : decodeChar b bytes = .ok (c, rest)) : rest.length ≤ bytes.length := by
  unfold decodeChar at h
  split at h
  · cases h
  next l _ =>
    cases hf : finishChar l.bits 1 l.least l.greatest l.tails bytes with
    | error e => simp [hf, Except.map] at h
    | ok result =>
      obtain ⟨code, after⟩ := result
      simp only [hf, Except.map, Except.ok.injEq, Prod.mk.injEq] at h
      exact h.2 ▸ length_finishChar_le hf

/-- The characters of bytes from a position on, behind those already read, which come last
first. -/
def decodeFrom (position : Nat) (read : List Char) (bytes : List UInt8) :
    Except FileFault (List Char) :=
  match bytes with
  | [] => .ok read.reverse
  | b :: rest =>
    match h : decodeChar b rest with
    | .ok (c, after) =>
      decodeFrom (position + (rest.length + 1 - after.length)) (c :: read) after
    | .error (count, reason) => .error (.undecodable position count b reason)
termination_by bytes.length
decreasing_by exact Nat.lt_succ_of_le (length_decodeChar_le h)

/-- The characters of a file. -/
def decode (bytes : List UInt8) : Except FileFault (List Char) :=
  decodeFrom 0 [] bytes

/-- A text in which every line ends with a line feed. -/
def unifyLineEnds : List Char → List Char
  | [] => []
  | '\r' :: '\n' :: cs => '\n' :: unifyLineEnds cs
  | '\r' :: cs => '\n' :: unifyLineEnds cs
  | c :: cs => c :: unifyLineEnds cs

/-- The text of a file. -/
def ofFile (bytes : List UInt8) : Except FileFault String :=
  (decode bytes).map fun cs => String.ofList (unifyLineEnds cs)

end CrossAssembler.Text
