import CrossAssembler.Proofs.Text.Digit
import CrossAssembler.Text.Numeral

/-!
# Numerals of plain digits

`Text.number?` takes much that is no row of digits: signs, underscores, a second mark, digits of any
script. None of that is in the way of a row of plain digits. It is read as what `Text.ofDigits` makes
of it (`integer?_of_digits`), with a mark in front if it is hexadecimal and with blanks on both sides
(`number?_of_decimal`, `number?_of_hexadecimal`).

What has to be known of a digit is said once, of the digits of base 16 (`toNat_of_isDigit_sixteen`).
-/

namespace CrossAssembler.Text

/-! ### Plain digits -/

/-- A digit is one in every larger base. -/
theorem isDigit_mono {base base' : Nat} (hle : base ≤ base') {c : Char}
    (h : isDigit base c = true) : isDigit base' c = true := by
  unfold isDigit at h ⊢
  cases hvalue : digitValue? c with
  | none =>
    rw [hvalue] at h
    cases h
  | some d =>
    rw [hvalue] at h
    exact decide_eq_true (Nat.lt_of_lt_of_le (of_decide_eq_true h) hle)

theorem toNat_of_isDigit_sixteen {c : Char} (h : isDigit 16 c = true) :
    (48 ≤ c.toNat ∧ c.toNat ≤ 57) ∨ (65 ≤ c.toNat ∧ c.toNat ≤ 70) ∨
      (97 ≤ c.toNat ∧ c.toNat ≤ 102) := by
  unfold isDigit digitValue? at h
  simp only [between_iff] at h
  -- a letter beyond F has a value of sixteen or more
  split_ifs at h with hdigit hsmall hcapital
  · exact .inl hdigit
  · have hlow : 97 ≤ c.toNat := hsmall.1
    have hlt : c.toNat - 87 < 16 := of_decide_eq_true h
    omega
  · have hlow : 65 ≤ c.toNat := hcapital.1
    have hlt : c.toNat - 55 < 16 := of_decide_eq_true h
    omega

theorem isBlank_of_isDigit {c : Char} (h : isDigit 16 c = true) : isBlank c = false := by
  have hcode := toNat_of_isDigit_sixteen h
  have hwide : isWideBlank c = false := by
    simp only [isWideBlank, wideBlanks, List.any_cons, List.any_nil, Bool.or_false,
      Bool.or_eq_false_iff, Bool.and_eq_false_iff, decide_eq_false_iff_not]
    omega
  -- the codes of blanks and of digits are ranges of numbers that do not meet
  simp only [isBlank, isPlainBlank, hwide, Bool.or_false, Bool.or_eq_false_iff,
    Bool.and_eq_false_iff, decide_eq_false_iff_not, beq_eq_false_iff_ne]
  omega

theorem isPlainBlank_of_isDigit {c : Char} (h : isDigit 16 c = true) : isPlainBlank c = false := by
  have hblank := isBlank_of_isDigit h
  rw [isBlank, Bool.or_assoc, Bool.or_eq_false_iff] at hblank
  exact hblank.1

theorem plainChar_of_isDigit {c : Char} (h : isDigit 16 c = true) : plainChar c = c := by
  have hcode := toNat_of_isDigit_sixteen h
  exact if_pos (by omega)

theorem ne_of_isDigit {c d : Char} (h : isDigit 16 c = true) (hd : isDigit 16 d = false) :
    c ≠ d := by
  rintro rfl
  rw [h] at hd
  cases hd

/-! ### A row of digits -/

/-- Digits without underscores are grouped. -/
theorem isGrouped_of_not_mem {cs : List Char} (hne : cs ≠ []) (h : '_' ∉ cs) :
    isGrouped cs = true := by
  fun_induction isGrouped cs with
  | case1 => exact absurd rfl hne
  | case2 cs => exact absurd List.mem_cons_self h
  | case3 c hc => rfl
  | case4 c cs hc ih => exact absurd (List.mem_cons_of_mem _ List.mem_cons_self) h
  | case5 c d cs hc hd ih =>
    exact ih (List.cons_ne_nil d cs) fun hmem => h (List.mem_cons_of_mem _ hmem)

section

variable {word : List Char}

/-- There is no second mark in a row of digits: neither letter `x` is a digit. -/
theorem dropMark_of_digits (base : Nat) (hword : ∀ c ∈ word, isDigit 16 c = true) :
    dropMark base word = word := by
  have hmark : ∀ c ∈ word, c ≠ 'x' ∧ c ≠ 'X' := fun c hc =>
    ⟨ne_of_isDigit (hword c hc) rfl, ne_of_isDigit (hword c hc) rfl⟩
  unfold dropMark
  split <;> simp_all

/-- A row of digits is a natural number, if it is not too long to be read. -/
theorem natural?_of_digits {base : Nat} (hbase : base ≤ 16) (hne : word ≠ [])
    (hword : ∀ c ∈ word, isDigit base c = true)
    (hshort : base = 10 → word.length ≤ maxDecimalDigits) :
    natural? base word = some (ofDigits base word) := by
  have hplain : ∀ c ∈ word, isDigit 16 c = true := fun c hc => isDigit_mono hbase (hword c hc)
  have hunderscore : '_' ∉ word := fun hmem => ne_of_isDigit (hplain _ hmem) rfl rfl
  have hrun : ∀ c ∈ word, (isDigit base c || c == '_') = true := by
    intro c hc
    rw [hword c hc, Bool.true_or]
  have hfilter : word.filter (· != '_') = word :=
    List.filter_eq_self.2 fun c hc => bne_iff_ne.2 (ne_of_mem_of_not_mem hc hunderscore)
  have hfits : (base != 10 || decide (word.length ≤ maxDecimalDigits)) = true := by
    rw [Bool.or_eq_true, bne_iff_ne, decide_eq_true_eq]
    exact Decidable.not_or_of_imp hshort
  -- the mark, the grouping and the limit on digits are passed one by one
  unfold natural?
  dsimp only
  rw [dropMark_of_digits base hplain, List.takeWhile_eq_self_iff.2 hrun,
    List.dropWhile_eq_nil_iff.2 hrun, hfilter, isGrouped_of_not_mem hne hunderscore]
  exact if_pos hfits

/-- A row of digits is an integer: nothing in front of the digits is a sign or a blank. -/
theorem integer?_of_digits {base : Nat} (hbase : base ≤ 16) (hne : word ≠ [])
    (hword : ∀ c ∈ word, isDigit base c = true)
    (hshort : base = 10 → word.length ≤ maxDecimalDigits) :
    integer? base word = some (ofDigits base word : Int) := by
  have hplain : ∀ c ∈ word, isDigit 16 c = true := fun c hc => isDigit_mono hbase (hword c hc)
  have hsame : word.map plainChar = word := by
    rw [List.map_congr_left fun c hc => plainChar_of_isDigit (hplain c hc), List.map_id']
  have hnatural := natural?_of_digits hbase hne hword hshort
  -- the first digit decides: it is no blank and no sign
  obtain ⟨c, cs, rfl⟩ := List.exists_cons_of_ne_nil hne
  have hc : isDigit 16 c = true := hplain c List.mem_cons_self
  unfold integer?
  rw [hsame, List.dropWhile_cons_of_neg (Bool.eq_false_iff.1 (isPlainBlank_of_isDigit hc))]
  split
  next hsign => exact absurd (List.cons.inj hsign).1 (ne_of_isDigit hc rfl)
  next hsign => exact absurd (List.cons.inj hsign).1 (ne_of_isDigit hc rfl)
  next =>
    rw [hnatural]
    rfl

/-! ### With blanks on both sides -/

/-- Blanks at the two ends are trimmed, and nothing else is. -/
theorem trim_append {front back : List Char} (hfront : ∀ c ∈ front, isBlank c = true)
    (hne : word ≠ []) (hword : ∀ c ∈ word, isBlank c = false)
    (hback : ∀ c ∈ back, isBlank c = true) : trim (front ++ (word ++ back)) = word := by
  have hstays : ∀ cs ds : List Char, cs ≠ [] → (∀ c ∈ cs, isBlank c = false) →
      (cs ++ ds).dropWhile isBlank = cs ++ ds := by
    intro cs ds hcs hblank
    obtain ⟨c, cs, rfl⟩ := List.exists_cons_of_ne_nil hcs
    exact List.dropWhile_cons_of_neg (Bool.eq_false_iff.1 (hblank c List.mem_cons_self))
  -- what is trimmed at the end is trimmed at the front of the reversed text
  have hreverse : word.reverse.dropWhile isBlank = word.reverse := by
    have hstay := hstays word.reverse [] (List.reverse_ne_nil_iff.2 hne) fun c hc =>
      hword c (List.mem_reverse.1 hc)
    rwa [List.append_nil] at hstay
  -- first the blanks in front are dropped, then those behind
  unfold trim
  rw [List.dropWhile_append_of_pos hfront, hstays word back hne hword, List.reverse_append,
    List.dropWhile_append_of_pos fun c hc => hback c (List.mem_reverse.1 hc), hreverse,
    List.reverse_reverse]

variable {s : String}

/-- Digits alone are a decimal number: they do not start with a mark. -/
theorem number?_of_decimal (hs : trim s.toList = word) (hne : word ≠ [])
    (hword : ∀ c ∈ word, isDigit 10 c = true) (hshort : word.length ≤ maxDecimalDigits) :
    number? s = some (ofDigits 10 word : Int) := by
  have hplain : ∀ c ∈ word, isDigit 16 c = true := fun c hc => isDigit_mono (by decide) (hword c hc)
  have hinteger := integer?_of_digits (by decide) hne hword fun _ => hshort
  unfold number?
  rw [hs]
  -- a text with a mark holds a character that is no decimal digit
  split
  next rest => cases hplain '$' List.mem_cons_self
  next rest => cases hplain 'x' (List.mem_cons_of_mem _ List.mem_cons_self)
  next rest => cases hplain 'X' (List.mem_cons_of_mem _ List.mem_cons_self)
  next => exact hinteger

/-- Digits behind a dollar sign are a hexadecimal number, of any length. -/
theorem number?_of_hexadecimal (hs : trim s.toList = '$' :: word) (hne : word ≠ [])
    (hword : ∀ c ∈ word, isDigit 16 c = true) : number? s = some (ofDigits 16 word : Int) := by
  have hinteger := integer?_of_digits le_rfl hne hword fun h => absurd h (by decide)
  unfold number?
  rw [hs]
  exact hinteger

end

end CrossAssembler.Text
