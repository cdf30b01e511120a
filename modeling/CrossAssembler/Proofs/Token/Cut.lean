import CrossAssembler.Token.Scan
import Mathlib.Data.List.TakeWhile
import Mathlib.Tactic.SplitIfs

/-!
# What a piece is

`Piece.next` takes the first piece off a text by looking at one character after another. This module
says **what it takes off**: `Cut text piece rest` has one rule for each kind of piece. The rules are
those of the language and do not say how a piece is found.

* **Every text has a first piece** (`exists_cut`): the rules leave no text out.
* **The rules leave no choice** (`Cut.next_eq`): what they allow is what `Piece.next` takes off. So a
  fact about pieces is proved by cases on the rules, and `Piece.next` is not opened again.

A run of characters of one class is given by where it stops (`Stops`), not by how it is taken.
-/

namespace CrossAssembler

/-! ### Classes of characters -/

/-- A run of characters of a class stops in front of a text: the text is empty, or its first character
is outside the class. -/
def Stops (p : Char → Bool) (rest : List Char) : Prop :=
  ∀ c ∈ rest.head?, p c = false

namespace Stops

variable {p : Char → Bool} {run rest : List Char}

theorem nil (p : Char → Bool) : Stops p [] := by
  intro c hc
  cases hc

theorem cons_iff {c : Char} : Stops p (c :: rest) ↔ p c = false := by
  refine ⟨fun h => h c rfl, fun h d hd => ?_⟩
  cases hd
  exact h

theorem dropWhile (p : Char → Bool) (cs : List Char) : Stops p (cs.dropWhile p) := by
  intro c hc
  have hhead := List.head?_dropWhile_not p cs
  rw [Option.mem_def.1 hc] at hhead
  exact hhead

/-- The run is what is taken. -/
theorem takeWhile_eq (hrest : Stops p rest) (hrun : ∀ c ∈ run, p c = true) :
    (run ++ rest).takeWhile p = run := by
  have hnone : rest.takeWhile p = [] := by
    cases rest with
    | nil => rfl
    | cons c rest => rw [List.takeWhile_cons, hrest c rfl, if_neg Bool.false_ne_true]
  rw [List.takeWhile_append_of_pos hrun, hnone, List.append_nil]

/-- What the run stops at is left. -/
theorem dropWhile_eq (hrest : Stops p rest) (hrun : ∀ c ∈ run, p c = true) :
    (run ++ rest).dropWhile p = rest := by
  rw [List.dropWhile_append_of_pos hrun]
  cases rest with
  | nil => rfl
  | cons c rest => rw [List.dropWhile_cons, hrest c rfl, if_neg Bool.false_ne_true]

/-- Every text is a run of a class, perhaps an empty one, and what stops it. -/
theorem exists_run (p : Char → Bool) (cs : List Char) :
    ∃ run rest, cs = run ++ rest ∧ (∀ c ∈ run, p c = true) ∧ Stops p rest :=
  ⟨cs.takeWhile p, cs.dropWhile p, List.takeWhile_append_dropWhile.symm,
    fun _ hc => List.mem_takeWhile_imp hc, dropWhile p cs⟩

/-- A longer text stops a run if the text in front does, or is empty and the one behind does. -/
theorem append (hrest : Stops p rest) {back : List Char} (hback : rest = [] → Stops p back) :
    Stops p (rest ++ back) := by
  cases rest with
  | nil => exact hback rfl
  | cons c rest => exact cons_iff.2 (hrest c rfl)

end Stops

/-- The end of the text or the end of a line. -/
def AtLineEnd (rest : List Char) : Prop :=
  Stops (· != '\n') rest

theorem AtLineEnd.eq_lineEnd {c : Char} {rest : List Char} (h : AtLineEnd (c :: rest)) :
    c = '\n' := by
  have hc : (c != '\n') = false := h c rfl
  rwa [bne_eq_false_iff_eq] at hc

namespace Piece

/-- The letters of the seven-bit set, by their codes. -/
theorem isAlpha_iff {c : Char} :
    c.isAlpha = true ↔ (65 ≤ c.toNat ∧ c.toNat ≤ 90) ∨ (97 ≤ c.toNat ∧ c.toNat ≤ 122) := by
  change (decide (65 ≤ c.toNat ∧ c.toNat ≤ 90) ||
    (decide (97 ≤ c.toNat) && decide (c.toNat ≤ 122))) = true ↔ _
  rw [Bool.or_eq_true, Bool.and_eq_true, decide_eq_true_eq, decide_eq_true_eq, decide_eq_true_eq]

/-- Digits are letters and digits of the seven-bit set, so a number looks like a word. -/
theorem isNameChar_of_isDigit {base : Nat} {c : Char} (h : Text.isDigit base c = true) :
    isNameChar c = true := by
  have halphanum : c.isAlphanum = true := by
    rw [Char.isAlphanum, Bool.or_eq_true, isAlpha_iff]
    unfold Text.isDigit Text.digitValue? at h
    simp only [Char.le_def, UInt32.le_iff_toNat_le] at h
    -- digit values are given to digits and to letters of either case
    split_ifs at h with hdigit hlower hupper
    · right
      rw [Char.isDigit, Bool.and_eq_true, decide_eq_true_eq, decide_eq_true_eq]
      exact hdigit
    · exact .inl (.inr hlower)
    · exact .inl (.inl hupper)
  rw [isNameChar, halphanum, Bool.true_or]

theorem isNameChar_of_isNameStart {c : Char} (h : isNameStart c = true) : isNameChar c = true := by
  simp only [isNameStart, isNameChar, Char.isAlphanum, Bool.or_eq_true] at h ⊢
  exact h.imp_left Or.inl

theorem toNat_of_isDigit {c : Char} (h : Text.isDigit 10 c = true) :
    48 ≤ c.toNat ∧ c.toNat ≤ 57 := by
  unfold Text.isDigit at h
  split at h
  next d hd =>
    have hlt := of_decide_eq_true h
    unfold Text.digitValue? at hd
    simp only [Char.le_def, UInt32.le_iff_toNat_le] at hd
    split_ifs at hd with hdigit hlower hupper
    · exact hdigit
    · -- a letter stands for ten or more
      have hvalue := Option.some.inj hd
      change 97 ≤ c.toNat ∧ _ at hlower
      omega
    · have hvalue := Option.some.inj hd
      change 65 ≤ c.toNat ∧ _ at hupper
      omega
  · cases h

/-- A decimal digit is no letter. -/
theorem not_isNameStart_of_isDigit {c : Char} (h : Text.isDigit 10 c = true) :
    isNameStart c = false := by
  have hnat := toNat_of_isDigit h
  rw [← Bool.not_eq_true]
  intro hstart
  rw [isNameStart, Bool.or_eq_true, isAlpha_iff, beq_iff_eq] at hstart
  rcases hstart with hletter | rfl
  · omega
  · revert hnat
    decide

/-- A character of a name is none of those that start something else. -/
theorem ne_of_isNameChar {c : Char} (h : isNameChar c = true) :
    isGap c = false ∧ c ≠ ';' ∧ c ≠ '\n' ∧ c ≠ '"' ∧ c ≠ '$' ∧ c ≠ '%' := by
  have hne : ∀ d, isNameChar d = false → c ≠ d := by
    rintro d hd rfl
    rw [hd] at h
    cases h
  refine ⟨?_, hne _ rfl, hne _ rfl, hne _ rfl, hne _ rfl, hne _ rfl⟩
  simp [isGap, hne ' ' rfl, hne '\t' rfl, hne '\r' rfl]

end Piece

/-! ### The rules for pieces -/

/-- A value, and how it is written between quotes: a quote and a backslash stand behind a backslash,
any other character may do so, and a line end is never part of a string. -/
inductive Quotes : List Char → List Char → Prop where
  | nil : Quotes [] []
  | plain {c : Char} {value written : List Char} (hline : c ≠ '\n') (hquote : c ≠ '"')
      (hescape : c ≠ '\\') (h : Quotes value written) : Quotes (c :: value) (c :: written)
  | escaped {c : Char} {value written : List Char} (hline : c ≠ '\n') (h : Quotes value written) :
      Quotes (c :: value) ('\\' :: c :: written)

/-- A word of digits. -/
def NumberBase.isNumber (base : NumberBase) (word : List Char) : Bool :=
  !word.isEmpty && word.all (Text.isDigit base.radix)

theorem NumberBase.isNumber_iff {base : NumberBase} {word : List Char} :
    base.isNumber word = true ↔ word ≠ [] ∧ ∀ c ∈ word, Text.isDigit base.radix c = true := by
  rw [isNumber, Bool.and_eq_true, List.all_eq_true, Bool.not_eq_true', List.isEmpty_eq_false_iff]

/-- The lexeme of a word that is read as a number: a word of digits is one, and any other word is
malformed. -/
def NumberBase.lexeme (base : NumberBase) (word : List Char) : Lexeme :=
  if base.isNumber word then
    .number (Text.ofDigits base.radix word)
  else .malformed s!"malformed {base.word} literal '{String.ofList (base.mark ++ word)}'"

open Piece in
/-- **What the first piece of a text is**: the text, the piece, and the text behind it. A rule whose run could
go on says that it does not, so that no two rules apply to one text. -/
inductive Cut : List Char → Piece → List Char → Prop where
  | gap {c : Char} {run rest : List Char} (hrun : ∀ d ∈ c :: run, isGap d = true)
      (hrest : Stops isGap rest) : Cut (c :: (run ++ rest)) (blank (c :: run)) rest
  | comment {body rest : List Char} (hbody : ∀ c ∈ body, c ≠ '\n') (hrest : AtLineEnd rest) :
      Cut (';' :: (body ++ rest)) (blank (';' :: body)) rest
  | lineEnd (rest : List Char) : Cut ('\n' :: rest) ⟨['\n'], some .newline⟩ rest
  | name {c : Char} {word rest : List Char} (hstart : isNameStart c = true)
      (hword : ∀ d ∈ c :: word, isNameChar d = true) (hrest : Stops isNameChar rest)
      (hshadow : (c :: word).map Char.toUpper = ['A', 'F'] → Stops (· == '\'') rest) :
      Cut (c :: (word ++ rest))
        ⟨c :: word, some (.name (String.ofList ((c :: word).map Char.toUpper)))⟩ rest
  /-- The shadow pair, with the quote that belongs to its name. -/
  | shadow {c : Char} {word rest : List Char} (hstart : isNameStart c = true)
      (hword : ∀ d ∈ c :: word, isNameChar d = true)
      (hshadow : (c :: word).map Char.toUpper = ['A', 'F']) :
      Cut (c :: (word ++ '\'' :: rest)) ⟨c :: (word ++ ['\'']), some (.name "AF'")⟩ rest
  | decimal {c : Char} {word rest : List Char} (hstart : Text.isDigit 10 c = true)
      (hword : ∀ d ∈ c :: word, isNameChar d = true) (hrest : Stops isNameChar rest) :
      Cut (c :: (word ++ rest)) ⟨c :: word, some (NumberBase.decimal.lexeme (c :: word))⟩ rest
  | marked {base : NumberBase} {c : Char} {word rest : List Char} (hmark : base.mark = [c])
      (hword : ∀ d ∈ word, isNameChar d = true) (hrest : Stops isNameChar rest) :
      Cut (c :: (word ++ rest)) ⟨c :: word, some (base.lexeme word)⟩ rest
  | string {value written rest : List Char} (h : Quotes value written) :
      Cut ('"' :: (written ++ '"' :: rest))
        ⟨'"' :: (written ++ ['"']), some (.string (String.ofList value))⟩ rest
  /-- A string that its line cuts off, perhaps right behind a backslash. -/
  | openString {value written tail rest : List Char} (h : Quotes value written)
      (htail : tail = [] ∨ tail = ['\\']) (hrest : AtLineEnd rest) :
      Cut ('"' :: (written ++ (tail ++ rest)))
        ⟨'"' :: (written ++ tail), some (.malformed "unterminated string literal")⟩ rest
  | single {c : Char} {rest : List Char} (hgap : isGap c = false) (hname : isNameStart c = false)
      (hdigit : Text.isDigit 10 c = false) (hmark : c ∉ [';', '\n', '$', '%', '"']) :
      Cut (c :: rest) ⟨[c], some ((single? c).getD (.unknown c.toString))⟩ rest

/-! ### Pieces are found by the rules -/

namespace Piece

/-- A number is a word with a mark in front of it. The scanner looks for the digits first and for the rest of
the word then; here the word is taken at once, and it is a number if all of it is digits. -/
theorem number_eq (base : NumberBase) (cs : List Char) :
    number base cs =
      (⟨base.mark ++ cs.takeWhile isNameChar, some (base.lexeme (cs.takeWhile isNameChar))⟩,
        cs.dropWhile isNameChar) := by
  have hcs := List.takeWhile_append_dropWhile (p := Text.isDigit base.radix) (l := cs)
  have hdigits : ∀ c ∈ cs.takeWhile (Text.isDigit base.radix), Text.isDigit base.radix c = true :=
    fun c hc => List.mem_takeWhile_imp hc
  have hstops := Stops.dropWhile (Text.isDigit base.radix) cs
  unfold number
  dsimp only
  generalize cs.takeWhile (Text.isDigit base.radix) = body at hcs hdigits ⊢
  generalize cs.dropWhile (Text.isDigit base.radix) = rest at hcs hstops ⊢
  subst hcs
  -- the digits are part of the word, and what is left of the word behind them is the tail
  have hbody : ∀ c ∈ body, isNameChar c = true := fun c hc => isNameChar_of_isDigit (hdigits c hc)
  rw [List.takeWhile_append_of_pos hbody, List.dropWhile_append_of_pos hbody, List.append_assoc]
  congr 3
  unfold NumberBase.lexeme
  cases htail : rest.takeWhile isNameChar with
  | nil =>
    rw [List.append_nil]
    cases body with
    | nil => rfl
    | cons c body =>
      have hnumber : base.isNumber (c :: body) = true :=
        NumberBase.isNumber_iff.2 ⟨List.cons_ne_nil _ _, hdigits⟩
      rw [if_pos hnumber]
      rfl
  | cons c tail =>
    -- the tail starts where the digits stop
    have hc : c ∈ rest.head? := by
      cases rest with
      | nil => cases htail
      | cons d rest =>
        rw [List.takeWhile_cons] at htail
        split at htail
        · cases htail
          rfl
        · cases htail
    have hnot : ¬ base.isNumber (body ++ c :: tail) = true := by
      intro hnumber
      obtain ⟨-, hall⟩ := NumberBase.isNumber_iff.1 hnumber
      have hdigit := hall c (List.mem_append_right _ List.mem_cons_self)
      rw [hstops c hc] at hdigit
      cases hdigit
    rw [if_neg hnot, if_pos (by simp)]

end Piece

theorem AtLineEnd.nil : AtLineEnd [] :=
  Stops.nil _

theorem AtLineEnd.lineEnd (rest : List Char) : AtLineEnd ('\n' :: rest) :=
  Stops.cons_iff.2 rfl

namespace Quotes

variable {value written : List Char}

/-- A string ends with the first quote that no backslash stands in front of. -/
theorem stringBody_closed (h : Quotes value written) (rest : List Char) :
    Piece.stringBody (written ++ '"' :: rest) = (written ++ ['"'], some value, rest) := by
  -- each character is passed as it is written, and the quote behind the last one ends the string
  induction h with
  | nil => rfl
  | plain hline hquote hescape h ih => simp [Piece.stringBody, hescape, ih]
  | escaped hline h ih => simp [Piece.stringBody, ih]

/-- Without such a quote it ends with its line. -/
theorem stringBody_open (h : Quotes value written) {tail rest : List Char}
    (htail : tail = [] ∨ tail = ['\\']) (hrest : AtLineEnd rest) :
    Piece.stringBody (written ++ (tail ++ rest)) = (written ++ tail, none, rest) := by
  induction h with
  | nil =>
    cases rest with
    | nil => rcases htail with rfl | rfl <;> rfl
    | cons c rest =>
      obtain rfl := hrest.eq_lineEnd
      rcases htail with rfl | rfl <;> rfl
  | plain hline hquote hescape h ih => simp [Piece.stringBody, hescape, ih]
  | escaped hline h ih => simp [Piece.stringBody, ih]

/-- Every text behind a quote is a closed string with something behind it, or an open one. -/
theorem exists_split (cs : List Char) :
    ∃ value written, Quotes value written ∧
      ((∃ rest, cs = written ++ '"' :: rest) ∨
        ∃ tail rest, (tail = [] ∨ tail = ['\\']) ∧ AtLineEnd rest ∧
          cs = written ++ (tail ++ rest)) := by
  -- the cases are those of the scanner: an end, a quote, a backslash with what follows it, or a plain one
  induction cs using Piece.stringBody.induct with
  | case1 => exact ⟨[], [], .nil, .inr ⟨[], [], .inl rfl, .nil, rfl⟩⟩
  | case2 rest => exact ⟨[], [], .nil, .inr ⟨[], _, .inl rfl, .lineEnd rest, rfl⟩⟩
  | case3 rest => exact ⟨[], [], .nil, .inl ⟨rest, rfl⟩⟩
  | case4 => exact ⟨[], [], .nil, .inr ⟨_, [], .inr rfl, .nil, rfl⟩⟩
  | case5 rest => exact ⟨[], [], .nil, .inr ⟨_, _, .inr rfl, .lineEnd rest, rfl⟩⟩
  | case6 c rest hline _ _ _ _ ih =>
    obtain ⟨value, written, h, ⟨after, rfl⟩ | ⟨tail, after, htail, hafter, rfl⟩⟩ := ih
    · exact ⟨_, _, .escaped hline h, .inl ⟨after, rfl⟩⟩
    · exact ⟨_, _, .escaped hline h, .inr ⟨tail, after, htail, hafter, rfl⟩⟩
  | case7 c rest hline hquote hlast _ hescape _ _ _ _ ih =>
    have hplain : c ≠ '\\' := by
      intro hc
      cases rest with
      | nil => exact hlast hc rfl
      | cons d rest => exact hescape d rest hc rfl
    obtain ⟨value, written, h, ⟨after, rfl⟩ | ⟨tail, after, htail, hafter, rfl⟩⟩ := ih
    · exact ⟨_, _, .plain hline hquote hplain h, .inl ⟨after, rfl⟩⟩
    · exact ⟨_, _, .plain hline hquote hplain h, .inr ⟨tail, after, htail, hafter, rfl⟩⟩

end Quotes

open Piece

/-- Every text that is not empty starts with a piece. -/
theorem exists_cut (c : Char) (cs : List Char) : ∃ p rest, Cut (c :: cs) p rest := by
  -- the first character tells the kind of the piece, in the order in which the scanner asks
  by_cases hgap : isGap c = true
  · obtain ⟨run, rest, rfl, hrun, hrest⟩ := Stops.exists_run isGap cs
    exact ⟨_, _, .gap (List.forall_mem_cons.2 ⟨hgap, hrun⟩) hrest⟩
  by_cases hname : isNameStart c = true
  · obtain ⟨word, rest, rfl, hword, hrest⟩ := Stops.exists_run isNameChar cs
    have hword : ∀ d ∈ c :: word, isNameChar d = true :=
      List.forall_mem_cons.2 ⟨isNameChar_of_isNameStart hname, hword⟩
    by_cases hshadow : (c :: word).map Char.toUpper = ['A', 'F'] ∧ ∃ more, rest = '\'' :: more
    · obtain ⟨hshadow, more, rfl⟩ := hshadow
      exact ⟨_, _, .shadow hname hword hshadow⟩
    · refine ⟨_, _, .name hname hword hrest fun hfolded d hd => ?_⟩
      rw [beq_eq_false_iff_ne]
      rintro rfl
      exact hshadow ⟨hfolded, List.head?_eq_some_iff.1 hd⟩
  by_cases hdigit : Text.isDigit 10 c = true
  · obtain ⟨word, rest, rfl, hword, hrest⟩ := Stops.exists_run isNameChar cs
    have hword : ∀ d ∈ c :: word, isNameChar d = true :=
      List.forall_mem_cons.2 ⟨isNameChar_of_isDigit hdigit, hword⟩
    exact ⟨_, _, .decimal hdigit hword hrest⟩
  by_cases hmark : c ∈ [';', '\n', '$', '%', '"']
  · simp only [List.mem_cons, List.not_mem_nil, or_false] at hmark
    rcases hmark with rfl | rfl | rfl | rfl | rfl
    · obtain ⟨body, rest, rfl, hbody, hrest⟩ := Stops.exists_run (· != '\n') cs
      exact ⟨_, _, .comment (fun d hd => bne_iff_ne.1 (hbody d hd)) hrest⟩
    · exact ⟨_, _, .lineEnd cs⟩
    · obtain ⟨word, rest, rfl, hword, hrest⟩ := Stops.exists_run isNameChar cs
      have hmark : NumberBase.hexadecimal.mark = ['$'] := rfl
      exact ⟨_, _, .marked hmark hword hrest⟩
    · obtain ⟨word, rest, rfl, hword, hrest⟩ := Stops.exists_run isNameChar cs
      have hmark : NumberBase.binary.mark = ['%'] := rfl
      exact ⟨_, _, .marked hmark hword hrest⟩
    · obtain ⟨value, written, h, ⟨rest, rfl⟩ | ⟨tail, rest, htail, hrest, rfl⟩⟩ :=
        Quotes.exists_split cs
      · exact ⟨_, _, .string h⟩
      · exact ⟨_, _, .openString h htail hrest⟩
  · rw [Bool.not_eq_true] at hgap hname hdigit
    exact ⟨_, _, .single hgap hname hdigit hmark⟩

theorem Piece.next_of_isNameStart {c : Char} (h : isNameStart c = true) (cs : List Char) :
    Piece.next c cs = Piece.name (c :: cs) := by
  obtain ⟨hgap, hsemicolon, hline, -⟩ := ne_of_isNameChar (isNameChar_of_isNameStart h)
  simp only [Piece.next, hgap, hsemicolon, hline, h, Bool.false_eq_true, if_false, if_true]

theorem Piece.next_of_isDigit {c : Char} (h : Text.isDigit 10 c = true) (cs : List Char) :
    Piece.next c cs = Piece.number .decimal (c :: cs) := by
  obtain ⟨hgap, hsemicolon, hline, -⟩ := ne_of_isNameChar (isNameChar_of_isDigit h)
  simp only [Piece.next, hgap, hsemicolon, hline, not_isNameStart_of_isDigit h, h,
    Bool.false_eq_true, if_false, if_true]

/-- **The rules leave no choice.** What they allow is the piece that is taken off. So whatever is to be
shown of the pieces of a text can be shown by cases on the rules, without a look at the scanner. -/
theorem Cut.next_eq {c : Char} {cs rest : List Char} {p : Piece} (h : Cut (c :: cs) p rest) :
    Piece.next c cs = (p, rest) := by
  -- each rule says which test of the first character succeeds, and where the run behind it stops
  generalize htext : c :: cs = text at h
  cases h with
  | gap hrun hrest =>
    cases htext
    obtain ⟨hc, hrun⟩ := List.forall_mem_cons.1 hrun
    rw [Piece.next, if_pos hc, hrest.takeWhile_eq hrun, hrest.dropWhile_eq hrun]
  | comment hbody hrest =>
    cases htext
    have hbody : ∀ d ∈ _, (d != '\n') = true := fun d hd => bne_iff_ne.2 (hbody d hd)
    change (blank (';' :: List.takeWhile _ _), List.dropWhile _ _) = _
    rw [Stops.takeWhile_eq hrest hbody, Stops.dropWhile_eq hrest hbody]
  | lineEnd =>
    cases htext
    rfl
  | name hstart hword hrest hshadow =>
    cases htext
    rw [Piece.next_of_isNameStart hstart, Piece.name, ← List.cons_append, hrest.takeWhile_eq hword,
      hrest.dropWhile_eq hword]
    split
    -- the word AF with a quote behind it would be the shadow pair
    next rest hfolded => exact absurd (hshadow hfolded '\'' rfl) (by decide)
    next => rfl
  | shadow hstart hword hshadow =>
    cases htext
    have hrest : Stops isNameChar ('\'' :: rest) := Stops.cons_iff.2 rfl
    rw [Piece.next_of_isNameStart hstart, Piece.name, ← List.cons_append, hrest.takeWhile_eq hword,
      hrest.dropWhile_eq hword, hshadow]
    rfl
  | decimal hstart hword hrest =>
    cases htext
    rw [Piece.next_of_isDigit hstart, number_eq, ← List.cons_append, hrest.takeWhile_eq hword,
      hrest.dropWhile_eq hword]
    rfl
  | @marked base _ _ _ hmark hword hrest =>
    cases htext
    have hnext : ∀ cs, Piece.next c cs = Piece.number base cs := by
      cases base with
      | decimal => cases hmark
      | hexadecimal =>
        cases hmark
        exact fun _ => rfl
      | binary =>
        cases hmark
        exact fun _ => rfl
    rw [hnext, number_eq, hrest.takeWhile_eq hword, hrest.dropWhile_eq hword, hmark]
    rfl
  | string h =>
    cases htext
    change Piece.string _ = _
    rw [Piece.string, h.stringBody_closed]
  | openString h htail hrest =>
    cases htext
    change Piece.string _ = _
    rw [Piece.string, h.stringBody_open htail hrest]
  | single hgap hname hdigit hmark =>
    cases htext
    simp only [List.mem_cons, List.not_mem_nil, or_false, not_or] at hmark
    simp only [Piece.next, hgap, hname, hdigit, hmark, Bool.false_eq_true, if_false]

/-- What is taken off is a piece by the rules. -/
theorem Cut.of_next (c : Char) (cs : List Char) :
    Cut (c :: cs) (Piece.next c cs).1 (Piece.next c cs).2 := by
  obtain ⟨p, rest, h⟩ := exists_cut c cs
  rw [h.next_eq]
  exact h

/-- The first piece by the rules is the first of the pieces. -/
theorem Cut.pieces_eq {text rest : List Char} {p : Piece} (h : Cut text p rest) :
    pieces text = p :: pieces rest := by
  cases text with
  | nil => cases h
  | cons c cs => rw [pieces_cons, h.next_eq]

end CrossAssembler
