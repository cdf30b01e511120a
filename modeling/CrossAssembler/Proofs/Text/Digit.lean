import CrossAssembler.Text.Digit
import Mathlib

/-!
# Digits read back

A number is written in the digits of a base, most significant first, and `Text.ofDigits` reads it from left
to right. What is written is read back (`ofDigits_toDigits`), and zeros in front do not matter
(`ofDigits_zeros`), nor does it matter which letters are capital (`digitValue?_toUpper`). Digits are
characters of one byte (`utf8Len_of_isDigit`).
-/

namespace CrossAssembler.Text

/-- The last digit counts once, and all others one place more. -/
theorem ofDigits_append_singleton (base : Nat) (cs : List Char) (c : Char) :
    ofDigits base (cs ++ [c]) = ofDigits base cs * base + (digitValue? c).getD 0 := by
  rw [ofDigits, List.foldl_append]
  rfl

/-- Zeros in front of a number do not change it. -/
theorem ofDigits_zeros (base n : Nat) (cs : List Char) :
    ofDigits base (List.replicate n '0' ++ cs) = ofDigits base cs := by
  have hzeros : ofDigits base (List.replicate n '0') = 0 := by
    induction n with
    | zero => rfl
    | succ n ih =>
      rw [List.replicate_succ', ofDigits_append_singleton, ih, Nat.zero_mul]
      rfl
  -- the zeros leave the value that reading starts from, which is zero
  change (List.replicate n '0' ++ cs).foldl _ 0 = _
  rw [List.foldl_append]
  change cs.foldl _ (ofDigits base (List.replicate n '0')) = _
  rw [hzeros]
  rfl

/-! ### The digits of a number -/

/-- The digits of a number, one after another: those of a number below the base, then one digit more at the
end of what has been written. -/
theorem toDigits_induction {base : Nat} (hbase : 1 < base) {P : Nat → List Char → Prop}
    (hone : ∀ d, d < base → P d [d.digitChar])
    (hmore : ∀ n cs d, d < base → P n cs → P (n * base + d) (cs ++ [d.digitChar])) (n : Nat) :
    P n (Nat.toDigits base n) := by
  induction n using Nat.strongRecOn with
  | ind n ih =>
    -- all but the last digit are those of the quotient, which is smaller
    rw [Nat.toDigits_eq_if hbase]
    split
    next hlt => exact hone n hlt
    next hge =>
      have hpositive : 0 < n := by omega
      have hfewer : n / base < n := Nat.div_lt_self hpositive hbase
      have hlast : n % base < base := Nat.mod_lt n (Nat.zero_lt_of_lt hbase)
      have hstep := hmore (n / base) _ (n % base) hlast (ih (n / base) hfewer)
      rwa [Nat.div_add_mod' n base] at hstep

theorem digitValue?_digitChar {d : Nat} (h : d < 16) : digitValue? d.digitChar = some d := by
  interval_cases d <;> rfl

theorem isDigit_digitChar {base d : Nat} (hbase : base ≤ 16) (h : d < base) :
    isDigit base d.digitChar = true := by
  rw [isDigit, digitValue?_digitChar (Nat.lt_of_lt_of_le h hbase)]
  exact decide_eq_true h

theorem isDigit_of_mem_toDigits {base : Nat} (hbase : 1 < base) (hletters : base ≤ 16) (n : Nat) :
    ∀ c ∈ Nat.toDigits base n, isDigit base c = true := by
  refine toDigits_induction hbase (P := fun _ cs => ∀ c ∈ cs, isDigit base c = true) ?_ ?_ n
  · intro d hd
    exact List.forall_mem_singleton.2 (isDigit_digitChar hletters hd)
  · intro n cs d hd ih
    exact List.forall_mem_append.2 ⟨ih, List.forall_mem_singleton.2 (isDigit_digitChar hletters hd)⟩

/-- **The digits of a number read back**, in every base that letters suffice for. -/
theorem ofDigits_toDigits {base : Nat} (hbase : 1 < base) (hletters : base ≤ 16) (n : Nat) :
    ofDigits base (Nat.toDigits base n) = n := by
  refine toDigits_induction hbase (P := fun n cs => ofDigits base cs = n) ?_ ?_ n
  · intro d hd
    change 0 * base + (digitValue? d.digitChar).getD 0 = d
    rw [digitValue?_digitChar (Nat.lt_of_lt_of_le hd hletters), Nat.zero_mul, Nat.zero_add]
    rfl
  · intro n cs d hd ih
    rw [ofDigits_append_singleton, ih, digitValue?_digitChar (Nat.lt_of_lt_of_le hd hletters)]
    rfl

/-! ### Capital and small letters -/

theorem between_iff {low high c : Char} :
    low ≤ c ∧ c ≤ high ↔ low.toNat ≤ c.toNat ∧ c.toNat ≤ high.toNat := by
  rw [Char.le_def, Char.le_def, UInt32.le_iff_toNat_le, UInt32.le_iff_toNat_le]
  rfl

theorem digitValue?_capital {c : Char} (h : 65 ≤ c.toNat ∧ c.toNat ≤ 90) :
    digitValue? c = some (c.toNat - 55) := by
  have hdigit : ¬ ('0' ≤ c ∧ c ≤ '9') := by
    rw [between_iff]
    change ¬ (48 ≤ c.toNat ∧ c.toNat ≤ 57)
    omega
  have hsmall : ¬ ('a' ≤ c ∧ c ≤ 'z') := by
    rw [between_iff]
    change ¬ (97 ≤ c.toNat ∧ c.toNat ≤ 122)
    omega
  have hcapital : 'A' ≤ c ∧ c ≤ 'Z' := between_iff.2 h
  rw [digitValue?, if_neg hdigit, if_neg hsmall, if_pos hcapital]

theorem digitValue?_small {c : Char} (h : 97 ≤ c.toNat ∧ c.toNat ≤ 122) :
    digitValue? c = some (c.toNat - 87) := by
  have hdigit : ¬ ('0' ≤ c ∧ c ≤ '9') := by
    rw [between_iff]
    change ¬ (48 ≤ c.toNat ∧ c.toNat ≤ 57)
    omega
  have hsmall : 'a' ≤ c ∧ c ≤ 'z' := between_iff.2 h
  rw [digitValue?, if_neg hdigit, if_pos hsmall]

/-- A letter is worth as much as its capital. -/
theorem digitValue?_toUpper (c : Char) : digitValue? c.toUpper = digitValue? c := by
  -- only a small letter is changed, and it is 32 places from its capital
  by_cases hlower : c.isLower = true
  · have hsmall : 97 ≤ c.toNat ∧ c.toNat ≤ 122 := by
      obtain ⟨hlow, hhigh⟩ := Bool.and_eq_true_iff.1 hlower
      exact ⟨of_decide_eq_true hlow, of_decide_eq_true hhigh⟩
    have hnat : c.toUpper.toNat = c.toNat - 32 := by
      have hvalid : (c.toNat - 32).isValidChar := .inl (by omega)
      rw [Char.toUpper_eq_of_isLower hlower, Char.toNat_ofNat, if_pos hvalid]
    rw [digitValue?_small hsmall, digitValue?_capital (by omega), hnat]
    congr 1
  · rw [Char.toUpper_eq_of_not_isLower hlower]

theorem isDigit_toUpper (base : Nat) (c : Char) : isDigit base c.toUpper = isDigit base c := by
  unfold isDigit
  rw [digitValue?_toUpper]

theorem ofDigits_map_toUpper (base : Nat) (cs : List Char) :
    ofDigits base (cs.map Char.toUpper) = ofDigits base cs := by
  unfold ofDigits
  rw [List.foldl_map]
  simp only [digitValue?_toUpper]

/-! ### Digits as bytes -/

/-- Digits are characters of one byte. -/
theorem utf8Size_of_isDigit {base : Nat} {c : Char} (h : isDigit base c = true) : c.utf8Size = 1 := by
  have hlast : c ≤ 'z' := by
    unfold isDigit digitValue? at h
    split_ifs at h with hdigit hlower hupper
    · exact Char.le_trans hdigit.2 (by decide)
    · exact hlower.2
    · exact Char.le_trans hupper.2 (by decide)
  rw [Char.utf8Size_eq_one_iff]
  exact UInt32.le_trans hlast (by decide)

theorem utf8Len_of_isDigit {base : Nat} {cs : List Char} (h : ∀ c ∈ cs, isDigit base c = true) :
    String.utf8Len cs = cs.length := by
  induction cs with
  | nil => rfl
  | cons c cs ih =>
    rw [List.forall_mem_cons] at h
    rw [String.utf8Len_cons, ih h.2, utf8Size_of_isDigit h.1, List.length_cons]

end CrossAssembler.Text
