import CrossAssembler.Text.EditDistance
import Mathlib.Order.Bounds.Basic
import Mathlib.Order.MinMax

/-!
# The edit distance is the least number of edits

An edit inserts, deletes or replaces one character. `editDistance` finds the least number of edits that
turn one text into another, and it does so in one row of numbers that is filled from left to right. Three
descriptions of this number lie between the row and the edits:

* **Edits** (`Edits`): edits one after another, at any places and in any order. This is what the number is
  about.
* **Alignments** (`Aligned`): the two texts written above each other, from left to right, with gaps where a
  character has no partner. An edit in front of an alignment costs one more mismatch (`Aligned.of_edit`), so
  edits in any order can be sorted into one alignment.
* **The recursion** (`distance`): the best alignment, found by looking at the first characters
  (`aligned_of_distance_le`, `Aligned.distance_le`).

The row looks at *last* characters and not at first ones, and where two characters agree it takes over
the entry above and to the left without comparing it with its neighbours. The first is sound because an
alignment can be read from right to left (`Aligned.reverse`), the second because a text with one character
more is at most one edit further away (`distance_cons_cons`). That the shorter text is the one the row is
laid over changes nothing, since an alignment can be turned over (`distance_comm`).
-/

namespace CrossAssembler.Text

/-! ### Edits -/

/-- One edit: a character is inserted, deleted or replaced, at the front of a text or behind characters that
stay. -/
inductive Edit : List Char → List Char → Prop where
  | insert (c : Char) (a : List Char) : Edit a (c :: a)
  | delete (c : Char) (a : List Char) : Edit (c :: a) a
  | replace (c d : Char) (a : List Char) : Edit (c :: a) (d :: a)
  | skip (c : Char) {a b : List Char} (h : Edit a b) : Edit (c :: a) (c :: b)

/-- Edits one after another, and their number. -/
inductive Edits : Nat → List Char → List Char → Prop where
  | none (a : List Char) : Edits 0 a a
  | more {n : Nat} {a b c : List Char} (h : Edit a b) (hrest : Edits n b c) : Edits (n + 1) a c

/-- Edits can be made behind a character that stays. -/
theorem Edits.skip {n : Nat} {a b : List Char} (c : Char) (h : Edits n a b) :
    Edits n (c :: a) (c :: b) := by
  induction h with
  | none a => exact .none (c :: a)
  | more h hrest ih => exact .more (.skip c h) ih

/-! ### Alignments -/

/-- Two texts written above each other, with at most that many places where they do not match: a character
over another one, over a gap, or under a gap. -/
inductive Aligned : Nat → List Char → List Char → Prop where
  | nil (n : Nat) : Aligned n [] []
  | keep {n : Nat} {a b : List Char} (c : Char) (h : Aligned n a b) : Aligned n (c :: a) (c :: b)
  | replace {n : Nat} {a b : List Char} (c d : Char) (h : Aligned n a b) :
      Aligned (n + 1) (c :: a) (d :: b)
  | delete {n : Nat} {a b : List Char} (c : Char) (h : Aligned n a b) : Aligned (n + 1) (c :: a) b
  | insert {n : Nat} {a b : List Char} (d : Char) (h : Aligned n a b) : Aligned (n + 1) a (d :: b)

namespace Aligned

variable {n m : Nat} {a b e a' b' : List Char}

theorem refl (n : Nat) (a : List Char) : Aligned n a a := by
  induction a with
  | nil => exact .nil n
  | cons c a ih => exact .keep c ih

theorem symm (h : Aligned n a b) : Aligned n b a := by
  induction h with
  | nil n => exact .nil n
  | keep c h ih => exact .keep c ih
  | replace c d h ih => exact .replace d c ih
  | delete c h ih => exact .insert c ih
  | insert d h ih => exact .delete d ih

/-- More mismatches may be allowed than there are. -/
theorem mono (h : Aligned n a b) (hle : n ≤ m) : Aligned m a b := by
  -- every step of the alignment counts as before, and the start has the rest to spare
  obtain ⟨k, rfl⟩ := Nat.exists_eq_add_of_le' hle
  clear hle
  induction h with
  | nil n => exact .nil (k + n)
  | keep c h ih => exact .keep c ih
  | replace c d h ih => exact .replace c d ih
  | delete c h ih => exact .delete c ih
  | insert d h ih => exact .insert d ih

/-- Alignments side by side. -/
theorem append (h : Aligned n a b) (h' : Aligned m a' b') : Aligned (m + n) (a ++ a') (b ++ b') := by
  induction h with
  | nil n => exact h'.mono (Nat.le_add_right m n)
  | keep c h ih => exact .keep c ih
  | replace c d h ih => exact .replace c d ih
  | delete c h ih => exact .delete c ih
  | insert d h ih => exact .insert d ih

/-- **An alignment can be read from right to left.** The recursion takes characters off at the front and the
row at the end, so this is what makes the two comparable. -/
theorem reverse (h : Aligned n a b) : Aligned n a.reverse b.reverse := by
  induction h with
  | nil n => exact .nil n
  -- the first column becomes the last: what is read already is put in front of it
  | keep c h ih =>
    have hlast := ih.append (refl 0 [c])
    rw [Nat.zero_add] at hlast
    rwa [List.reverse_cons, List.reverse_cons]
  | replace c d h ih =>
    have hlast := ih.append (.replace c d (.nil 0))
    rw [Nat.add_comm] at hlast
    rwa [List.reverse_cons, List.reverse_cons]
  | delete c h ih =>
    have hlast := ih.append (.delete c (.nil 0))
    rw [Nat.add_comm, List.append_nil] at hlast
    rwa [List.reverse_cons]
  | insert d h ih =>
    have hlast := ih.append (.insert d (.nil 0))
    rw [Nat.add_comm, List.append_nil] at hlast
    rwa [List.reverse_cons]

/-! ### Edits sorted into alignments

Each of the next three lemmas follows an alignment up to the place where the first character of the edited
text stands. What is inserted in front of that place stays. -/

/-- A first character is taken away: its partner, if it has one, is left with a gap. -/
theorem of_delete {c : Char} (h : Aligned n (c :: a) e) : Aligned (n + 1) a e := by
  -- the text has to be a variable for the induction to run over the alignment
  generalize htext : c :: a = text at h
  induction h with
  | nil n => cases htext
  | keep d h ih =>
    cases htext
    -- the partner was the same character, and now stands over a gap
    exact .insert c h
  | @replace k _ _ d d' h ih =>
    cases htext
    have hgap : Aligned (k + 1) a (d' :: _) := .insert d' h
    exact hgap.mono (Nat.le_succ (k + 1))
  | @delete k _ _ d h ih =>
    cases htext
    -- the character had no partner, so nothing is left to be paid for
    exact h.mono (Nat.le_add_right k 2)
  | insert d h ih => exact .insert d (ih htext)

/-- A first character is replaced: it does not match its partner any more. -/
theorem of_replace {c d : Char} (h : Aligned n (c :: a) e) : Aligned (n + 1) (d :: a) e := by
  generalize htext : c :: a = text at h
  induction h with
  | nil n => cases htext
  | keep c' h ih =>
    cases htext
    exact .replace d c h
  | @replace k _ _ c' d' h ih =>
    cases htext
    have hother : Aligned (k + 1) (d :: a) (d' :: _) := .replace d d' h
    exact hother.mono (Nat.le_succ (k + 1))
  | @delete k _ _ c' h ih =>
    cases htext
    have hgap : Aligned (k + 1) (d :: a) _ := .delete d h
    exact hgap.mono (Nat.le_succ (k + 1))
  | insert c' h ih => exact .insert c' (ih htext)

/-- A text is changed behind its first character, which keeps its partner. -/
theorem of_skip {c : Char} (htail : ∀ {n : Nat} {e : List Char}, Aligned n b e → Aligned (n + 1) a e)
    (h : Aligned n (c :: b) e) : Aligned (n + 1) (c :: a) e := by
  generalize htext : c :: b = text at h
  induction h with
  | nil n => cases htext
  | keep d h ih =>
    cases htext
    exact .keep c (htail h)
  | replace d d' h ih =>
    cases htext
    exact .replace c d' (htail h)
  | delete d h ih =>
    cases htext
    exact .delete c (htail h)
  | insert d h ih => exact .insert d (ih htext)

/-- **An edit in front of an alignment** costs one more mismatch. -/
theorem of_edit (hedit : Edit a b) (h : Aligned n b e) : Aligned (n + 1) a e := by
  induction hedit generalizing n e with
  -- the edits run from the first text to the second, so an insertion is undone in the alignment
  | insert c a => exact h.of_delete
  | delete c a => exact .delete c h
  | replace c d a => exact h.of_replace
  | skip c hedit ih => exact of_skip ih h

theorem of_edits (h : Edits n a b) : Aligned n a b := by
  induction h with
  | none a => exact refl 0 a
  | more hedit hrest ih => exact ih.of_edit hedit

/-- An alignment is worked off from left to right, with an edit for each mismatch. -/
theorem exists_edits (h : Aligned n a b) : ∃ m, m ≤ n ∧ Edits m a b := by
  induction h with
  | nil n => exact ⟨0, Nat.zero_le n, .none []⟩
  | keep c h ih =>
    obtain ⟨m, hle, hedits⟩ := ih
    exact ⟨m, hle, hedits.skip c⟩
  | replace c d h ih =>
    obtain ⟨m, hle, hedits⟩ := ih
    exact ⟨m + 1, Nat.succ_le_succ hle, .more (.replace c d _) (hedits.skip d)⟩
  | delete c h ih =>
    obtain ⟨m, hle, hedits⟩ := ih
    exact ⟨m + 1, Nat.succ_le_succ hle, .more (.delete c _) hedits⟩
  | insert d h ih =>
    obtain ⟨m, hle, hedits⟩ := ih
    exact ⟨m + 1, Nat.succ_le_succ hle, .more (.insert d _) (hedits.skip d)⟩

end Aligned

/-! ### The recursion -/

/-- The distance of two texts by recursion on their first characters: both are taken off, for nothing if they
agree and for one edit if not, or one of them is, for one edit. -/
def distance : List Char → List Char → Nat
  | [], b => b.length
  | a, [] => a.length
  | c :: a, d :: b =>
    min (distance a b + if c = d then 0 else 1)
      (min (distance a (d :: b) + 1) (distance (c :: a) b + 1))
termination_by a b => a.length + b.length

@[simp] theorem distance_nil_left (b : List Char) : distance [] b = b.length := by
  rw [distance]

@[simp] theorem distance_nil_right (a : List Char) : distance a [] = a.length := by
  cases a with
  | nil => rw [distance]
  | cons c a =>
    rw [distance]
    exact List.cons_ne_nil c a

theorem distance_cons_left_le (c : Char) (a b : List Char) : distance (c :: a) b ≤ distance a b + 1 := by
  cases b with
  | nil => simp
  | cons d b =>
    rw [distance]
    exact (Nat.min_le_right _ _).trans (Nat.min_le_left _ _)

theorem distance_cons_right_le (a : List Char) (d : Char) (b : List Char) :
    distance a (d :: b) ≤ distance a b + 1 := by
  cases a with
  | nil => simp
  | cons c a =>
    rw [distance]
    exact (Nat.min_le_right _ _).trans (Nat.min_le_right _ _)

/-- No alignment has fewer mismatches than the recursion finds. -/
theorem Aligned.distance_le {n : Nat} {a b : List Char} (h : Aligned n a b) : distance a b ≤ n := by
  induction h with
  | nil n => simp
  | @keep n a b c h ih =>
    calc distance (c :: a) (c :: b) ≤ distance a b + 0 := by
          rw [distance, if_pos rfl]
          exact Nat.min_le_left _ _
      _ ≤ n := ih
  | @replace n a b c d h ih =>
    have hcost : (if c = d then 0 else 1) ≤ 1 := by split <;> omega
    calc distance (c :: a) (d :: b) ≤ distance a b + if c = d then 0 else 1 := by
          rw [distance]
          exact Nat.min_le_left _ _
      _ ≤ n + 1 := Nat.add_le_add ih hcost
  | @delete n a b c h ih => exact (distance_cons_left_le c a b).trans (Nat.succ_le_succ ih)
  | @insert n a b d h ih => exact (distance_cons_right_le a d b).trans (Nat.succ_le_succ ih)

theorem aligned_of_length_le {n : Nat} {a : List Char} (h : a.length ≤ n) : Aligned n a [] := by
  induction a generalizing n with
  | nil => exact .nil n
  | cons c a ih =>
    obtain ⟨k, rfl⟩ := Nat.exists_eq_add_of_le' h
    exact .delete c (ih (Nat.le_add_left a.length k))

/-- The recursion finds an alignment. -/
theorem aligned_of_distance_le {n : Nat} {a b : List Char} (h : distance a b ≤ n) : Aligned n a b := by
  induction a, b using distance.induct generalizing n with
  | case1 b =>
    rw [distance_nil_left] at h
    exact (aligned_of_length_le h).symm
  | case2 a _ =>
    rw [distance_nil_right] at h
    exact aligned_of_length_le h
  | case3 c a d b ihboth ihleft ihright =>
    -- one of the three ways is as cheap as the minimum, and it says which column comes first
    rw [distance, min_le_iff, min_le_iff] at h
    rcases h with hboth | hleft | hright
    · by_cases hsame : c = d
      · rw [if_pos hsame] at hboth
        subst hsame
        exact .keep c (ihboth hboth)
      · rw [if_neg hsame] at hboth
        obtain ⟨k, rfl⟩ := Nat.exists_eq_add_of_le' ((Nat.le_add_left 1 _).trans hboth)
        exact .replace c d (ihboth (Nat.le_of_succ_le_succ hboth))
    · obtain ⟨k, rfl⟩ := Nat.exists_eq_add_of_le' ((Nat.le_add_left 1 _).trans hleft)
      exact .delete c (ihleft (Nat.le_of_succ_le_succ hleft))
    · obtain ⟨k, rfl⟩ := Nat.exists_eq_add_of_le' ((Nat.le_add_left 1 _).trans hright)
      exact .insert d (ihright (Nat.le_of_succ_le_succ hright))

theorem aligned_distance (a b : List Char) : Aligned (distance a b) a b :=
  aligned_of_distance_le (Nat.le_refl _)

/-- **The distance is the least number of edits.** An alignment gives edits of the same number, and edits
one after another give an alignment that costs no more. -/
theorem distance_isLeast (a b : List Char) : IsLeast {n | Edits n a b} (distance a b) := by
  have hlower : distance a b ∈ lowerBounds {n | Edits n a b} :=
    fun n hedits => (Aligned.of_edits hedits).distance_le
  refine ⟨?_, hlower⟩
  -- the edits of the best alignment cannot be fewer than the distance
  obtain ⟨m, hle, hedits⟩ := (aligned_distance a b).exists_edits
  rwa [Nat.le_antisymm hle (hlower hedits)] at hedits

theorem distance_reverse_le (a b : List Char) : distance a.reverse b.reverse ≤ distance a b :=
  (aligned_distance a b).reverse.distance_le

/-- The distance is the same in both directions, as an alignment can be turned over. -/
theorem distance_comm (a b : List Char) : distance a b = distance b a :=
  Nat.le_antisymm (aligned_distance b a).symm.distance_le (aligned_distance a b).symm.distance_le

/-- From right to left the distance is the same. -/
theorem distance_reverse (a b : List Char) : distance a.reverse b.reverse = distance a b := by
  refine Nat.le_antisymm (distance_reverse_le a b) ?_
  have hback := distance_reverse_le a.reverse b.reverse
  rwa [List.reverse_reverse, List.reverse_reverse] at hback

/-- **The rule of the row**: characters that agree are taken off without looking at other ways. Matching
them never costs more, because taking a character off changes a distance by one at most. -/
theorem distance_cons_cons (c d : Char) (a b : List Char) :
    distance (c :: a) (d :: b) =
      if c = d then distance a b
      else 1 + min (distance a b) (min (distance a (d :: b)) (distance (c :: a) b)) := by
  -- a character less is at most one edit further away
  have hleft : distance a b ≤ distance (c :: a) b + 1 := (aligned_distance (c :: a) b).of_delete.distance_le
  have hright : distance a b ≤ distance a (d :: b) + 1 :=
    (aligned_distance a (d :: b)).symm.of_delete.symm.distance_le
  rw [distance]
  split
  · omega
  · omega

/-! ### The row -/

/-- The distances from a text to longer and longer beginnings of another one. Both texts are given from right
to left, as the row looks at them: `b` is the beginning that has been passed, and the rest follows. -/
def ahead (a b : List Char) : List Char → List Nat
  | [] => []
  | d :: rest => distance a (d :: b) :: ahead a (d :: b) rest

/-- **One entry after another**: a row of distances leads to the row of a text with one more character. -/
theorem rowTail_ahead (c : Char) (a b rest : List Char) :
    rowTail c (distance a b) (distance (c :: a) b) rest (ahead a b rest) = ahead (c :: a) b rest := by
  -- the row is filled from left to right, and `b` is what lies to the left of the entry
  induction rest generalizing b with
  | nil => rfl
  | cons d rest ih =>
    rw [ahead, ahead, rowTail, ← distance_cons_cons]
    exact congrArg _ (ih (d :: b))

theorem nextRow_ahead (c : Char) (a rest : List Char) :
    nextRow rest (distance a [] :: ahead a [] rest) c =
      distance (c :: a) [] :: ahead (c :: a) [] rest := by
  have hfirst : distance (c :: a) [] = distance a [] + 1 := by simp
  rw [nextRow, ← hfirst, rowTail_ahead]

/-- The first row counts the characters of the beginnings. -/
theorem range_eq_ahead (b rest : List Char) :
    List.range' b.length (rest.length + 1) = distance [] b :: ahead [] b rest := by
  induction rest generalizing b with
  | nil => simp [ahead]
  | cons d rest ih =>
    rw [List.length_cons, List.range'_succ, ← List.length_cons (a := d), ih, ahead,
      distance_nil_left b]

theorem foldl_nextRow (a done rest : List Char) :
    a.foldl (nextRow rest) (distance done [] :: ahead done [] rest) =
      distance (a.reverse ++ done) [] :: ahead (a.reverse ++ done) [] rest := by
  -- one row for each character of the text, on top of the rows that are done
  induction a generalizing done with
  | nil => rfl
  | cons c a ih =>
    rw [List.foldl_cons, nextRow_ahead, ih, List.reverse_cons, List.append_assoc]
    rfl

/-- **The row of a text holds its distances** to all beginnings of the other one, the last of which is the
whole of it. -/
theorem distanceRow_eq (a b : List Char) :
    distanceRow a b = distance a.reverse [] :: ahead a.reverse [] b := by
  have hstart : List.range (b.length + 1) = distance [] [] :: ahead [] [] b := by
    rw [List.range_eq_range']
    exact range_eq_ahead [] b
  rw [distanceRow, hstart, foldl_nextRow, List.append_nil]

theorem getLast?_ahead (a b rest : List Char) :
    (distance a b :: ahead a b rest).getLast? = some (distance a (rest.reverse ++ b)) := by
  induction rest generalizing b with
  | nil => rfl
  | cons d rest ih =>
    rw [ahead, List.getLast?_cons_cons, ih, List.reverse_cons, List.append_assoc]
    rfl

theorem rowDistance_eq (a b : List Char) : rowDistance a b = distance a b := by
  rw [rowDistance, distanceRow_eq, getLast?_ahead, List.append_nil, Option.getD_some, distance_reverse]

/-- **The edit distance is the least number of edits** that turn one text into the other, and the number that
the recursion gives. -/
theorem editDistance_isLeast (a b : String) :
    IsLeast {n | Edits n a.toList b.toList} (editDistance a b) ∧
      editDistance a b = distance a.toList b.toList := by
  have hdistance : editDistance a b = distance a.toList b.toList := by
    -- which of the two texts the row is laid over makes no difference
    rw [editDistance, rowDistance_eq, rowDistance_eq, distance_comm b.toList, ite_self]
  refine ⟨?_, hdistance⟩
  rw [hdistance]
  exact distance_isLeast a.toList b.toList

example : editDistance "PRNT" "PRINT" = 1 := by decide

end CrossAssembler.Text
