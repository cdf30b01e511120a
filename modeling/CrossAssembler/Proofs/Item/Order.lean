import CrossAssembler.Proofs.Item.Genuine
import CrossAssembler.Proofs.Item.Report

/-!
# Items in the order of the text

Every item stands at a token, and an item that follows another one at a later token. So items are in the
order of the text, and behind a separator a later line starts.

* **Items** (`pairwise_items`): where lines are numbered from one on, every item stands in front of those
  that follow it, and a separator on an earlier line.
* **Rows** (`pairwise_rows`): no line of a text has items of two rows, so that an item tells its row by
  its line (`eq_row_of_line`).
-/

namespace CrossAssembler

/-! ### Items -/

/-- An item at the place of a token. Separators stand at line ends, and no other item does. So the kind
of the token tells a separator from all other items. -/
structure Item.StandsAt (i : Item) (t : Token) : Prop where
  location_eq : i.location = t.location
  newline_iff : t.lexeme = .newline ↔ i.kind = .separator

/-- An item that is no separator, at a token that is no line end. -/
theorem Item.standsAt_of_ne {i : Item} {t : Token} (hlocation : i.location = t.location)
    (hlexeme : t.lexeme ≠ .newline) (hkind : i.kind ≠ .separator) : i.StandsAt t :=
  ⟨hlocation, fun h => absurd h hlexeme, fun h => absurd h hkind⟩

theorem Phrase.Value.standsAt {us : List Token} {i : Item} (h : Phrase.Value us i) :
    ∃ u ∈ us, i.StandsAt u := by
  cases h with
  | number v l =>
    exact ⟨_, List.mem_cons_self, Item.standsAt_of_ne rfl (by rintro ⟨⟩) (by rintro ⟨⟩)⟩
  | name text l =>
    exact ⟨_, List.mem_cons_self,
      Item.standsAt_of_ne rfl (by rintro ⟨⟩) (ItemKind.ofName_ne (by decide) text)⟩
  | label text l colon =>
    exact ⟨_, List.mem_cons_self, Item.standsAt_of_ne rfl (by rintro ⟨⟩) (by rintro ⟨⟩)⟩

/-- A form between brackets stands at its opening bracket. -/
theorem Phrase.Inside.standsAt {start : Location} {us : List Token} {i : Item}
    (h : Phrase.Inside start us i) : i.StandsAt ⟨.openBracket, start⟩ := by
  cases h <;> exact Item.standsAt_of_ne rfl (by rintro ⟨⟩) (by rintro ⟨⟩)

/-- An item stands at one of the tokens of its phrase. -/
theorem Phrase.standsAt {us : List Token} {i : Item} (h : Phrase us i) : ∃ u ∈ us, i.StandsAt u := by
  cases h with
  | lineEnd l => exact ⟨_, List.mem_cons_self, rfl, fun _ => rfl, fun _ => rfl⟩
  | comma l =>
    exact ⟨_, List.mem_cons_self, Item.standsAt_of_ne rfl (by rintro ⟨⟩) (by rintro ⟨⟩)⟩
  | string text l =>
    exact ⟨_, List.mem_cons_self, Item.standsAt_of_ne rfl (by rintro ⟨⟩) (by rintro ⟨⟩)⟩
  | value h => exact h.standsAt
  | marked mark h =>
    obtain ⟨u, hu, hstands⟩ := h.standsAt
    exact ⟨u, List.mem_cons_of_mem _ hu, hstands⟩
  | bracket h close => exact ⟨_, List.mem_cons_self, h.standsAt⟩

/-- **Items stand at some of the tokens, in order.** -/
theorem exists_item_tokens (stop : Location) (blank : Bool) {ts : List Token}
    (hend : ∀ t ∈ ts, t.isEnd = false) :
    ∃ row : List (Item × Token), row.map Prod.fst = (entries stop blank ts).map Entry.toItem ∧
      (row.map Prod.snd).Sublist ts ∧ ∀ q ∈ row, q.1.StandsAt q.2 := by
  -- each reading gives one item, and what it leaves behind holds only later tokens
  fun_induction entries stop blank ts with
  | case1 => exact ⟨[], rfl, List.nil_sublist _, List.forall_mem_nil _⟩
  | case2 blank t ts hblank ih =>
    obtain ⟨row, hitems, hsublist, hrow⟩ := ih (List.forall_mem_cons.1 hend).2
    exact ⟨row, hitems, hsublist.cons t, hrow⟩
  | case3 blank t ts hblank ih =>
    have hsuffix := Reading.rest_suffix stop t (List.forall_mem_cons.1 hend).2
    have hlength := Reading.length_start_le stop t ts
    obtain ⟨row, hitems, hsublist, hrow⟩ := ih fun t ht => hend t (hsuffix.mem ht)
    generalize hread : Reading.start stop t ts = r at hsuffix hlength hitems hsublist
    obtain ⟨result, rest⟩ := r
    cases result with
    | error d =>
      -- a line end is always read
      have hnewline : t.lexeme ≠ .newline := by
        intro hnewline
        rw [Reading.start, hnewline] at hread
        cases hread
      -- what is left does not hold the token that the reading started with
      have hrest : rest <:+ ts := by
        rcases List.suffix_cons_iff.1 hsuffix with hall | hrest
        · dsimp only at hall hlength
          rw [hall, List.length_cons] at hlength
          omega
        · exact hrest
      refine ⟨(_, t) :: row, congrArg _ hitems, List.cons_sublist_cons.2 (hsublist.trans hrest.sublist), ?_⟩
      exact List.forall_mem_cons.2 ⟨Item.standsAt_of_ne rfl hnewline (by rintro ⟨⟩), hrow⟩
    | ok i =>
      obtain ⟨taken, rfl, hphrase⟩ := Reading.phrase_of_start hread
      obtain ⟨u, hu, hstands⟩ := hphrase.standsAt
      refine ⟨(i, u) :: row, congrArg _ hitems, (List.singleton_sublist.2 hu).append hsublist, ?_⟩
      exact List.forall_mem_cons.2 ⟨hstands, hrow⟩

/-- The items of a text stand at some of its tokens, in order. -/
theorem exists_item_tokens_of_text (start : Location) (cs : List Char) (file : String) :
    ∃ row : List (Item × Token), row.map Prod.fst = (parse file (locate start (pieces cs))).items ∧
      (row.map Prod.snd).Sublist (locate start (pieces cs)) ∧ ∀ q ∈ row, q.1.StandsAt q.2 := by
  have hend : ∀ t ∈ located start (pieces cs), t.isEnd = false := isEnd_of_mem_text
  obtain ⟨row, hitems, hsublist, hrow⟩ := exists_item_tokens (finishOf start (pieces cs)) true hend
  refine ⟨row, ?_, ?_, hrow⟩
  · rw [hitems, ← allEntries_locate file]
    rfl
  · rw [locate_eq]
    exact hsublist.trans (List.sublist_append_left _ _)

/-- An item in front of another one: further left on its line or on an earlier line, as a separator always
is. -/
structure Item.Precedes (i j : Item) : Prop where
  before : i.location.Before j.location
  line_lt : i.kind = .separator → i.location.line < j.location.line

/-- **Items are in the order of the text**, and all of them are of its file. -/
theorem pairwise_items {start : Location} (hstart : 0 < start.line) (cs : List Char) (file : String) :
    (parse file (locate start (pieces cs))).items.Pairwise Item.Precedes ∧
      ∀ i ∈ (parse file (locate start (pieces cs))).items, i.location.file = start.file := by
  obtain ⟨row, hitems, hsublist, hrow⟩ := exists_item_tokens_of_text start cs file
  rw [← hitems]
  constructor
  · have hpairwise := (pairwise_precedes (whole_of_mem_pieces cs) hstart).sublist hsublist
    rw [List.pairwise_map] at hpairwise ⊢
    refine hpairwise.imp_of_mem fun {q r} hq hr hprecedes => ?_
    have hq := hrow q hq
    have hr := hrow r hr
    refine ⟨?_, fun hseparator => ?_⟩
    · rw [hq.location_eq, hr.location_eq]
      exact hprecedes.before
    · rw [hq.location_eq, hr.location_eq]
      exact hprecedes.line_lt (hq.newline_iff.2 hseparator)
  · intro i hi
    obtain ⟨q, hq, rfl⟩ := List.mem_map.1 hi
    have hmem := hsublist.mem (List.mem_map_of_mem hq)
    rw [(hrow q hq).location_eq]
    exact file_of_mem_locate _ hmem

/-! ### Rows -/

namespace Line

/-- The items of the rows are some of the items, in order. -/
theorem flatten_rows_sublist (items : List Item) : (rows items).flatten.Sublist items := by
  fun_induction rows items with
  | case1 => exact List.Sublist.slnil
  | case2 i rest hseparator ih => exact ih.cons i
  | case3 i rest hseparator hrows ih => exact List.singleton_sublist.2 List.mem_cons_self
  | case4 i rest hseparator row more hrows ih =>
    rw [hrows] at ih
    exact List.cons_sublist_cons.2 ih

/-- Every item that is no separator is in a row. -/
theorem exists_row_of_mem {items : List Item} {i : Item} (hi : i ∈ items) (hkind : i.kind ≠ .separator) :
    ∃ row ∈ rows items, i ∈ row := by
  fun_induction rows items with
  | case1 => cases hi
  | case2 j rest hseparator ih =>
    rcases List.mem_cons.1 hi with rfl | hi
    · exact absurd hseparator hkind
    · obtain ⟨row, hrow, hmem⟩ := ih hi
      exact ⟨row, List.mem_cons_of_mem _ hrow, hmem⟩
  | case3 j rest hseparator hrows ih =>
    rcases List.mem_cons.1 hi with rfl | hi
    · exact ⟨_, List.mem_cons_self, List.mem_cons_self⟩
    · rw [hrows] at ih
      obtain ⟨row, hrow, -⟩ := ih hi
      cases hrow
  | case4 j rest hseparator row more hrows ih =>
    rcases List.mem_cons.1 hi with rfl | hi
    · exact ⟨_, List.mem_cons_self, List.mem_cons_self⟩
    · rw [hrows] at ih
      obtain ⟨row', hrow', hmem⟩ := ih hi
      rcases List.mem_cons.1 hrow' with rfl | hrow'
      · exact ⟨_, List.mem_cons_self, List.mem_cons_of_mem _ hmem⟩
      · exact ⟨row', List.mem_cons_of_mem _ hrow', hmem⟩

/-- Between the first row and an item of another one stands a separator. -/
theorem exists_separator {items row : List Item} {more : List (List Item)} (h : rows items = row :: more)
    {row' : List Item} (hrow' : row' ∈ more) {j : Item} (hj : j ∈ row') :
    ∃ s, s.kind = .separator ∧ [s, j].Sublist items := by
  fun_induction rows items generalizing row more with
  | case1 =>
    cases h
    cases hrow'
  | case2 i rest hseparator ih =>
    cases h
    have hmem := mem_of_mem_rows hrow' hj
    exact ⟨i, hseparator, List.cons_sublist_cons.2 (List.singleton_sublist.2 hmem)⟩
  | case3 i rest hseparator hrows ih =>
    cases h
    cases hrow'
  | case4 i rest hseparator first others hrows ih =>
    cases h
    obtain ⟨s, hs, hsublist⟩ := ih hrows hrow'
    exact ⟨s, hs, hsublist.cons i⟩

/-- **Items of different rows are on different lines.** A row is what stands between two separators, and
these end their lines. -/
theorem pairwise_rows {items : List Item} (h : items.Pairwise Item.Precedes) :
    (rows items).Pairwise fun row row' => ∀ i ∈ row, ∀ j ∈ row', i.location.line < j.location.line := by
  fun_induction rows items with
  | case1 => exact List.pairwise_singleton _ _
  | case2 i rest hseparator ih =>
    refine .cons (fun row' hrow' i hi => ?_) (ih (List.pairwise_cons.1 h).2)
    -- the row in front of a separator at the start is empty, so it has no items
    cases hi
  | case3 i rest hseparator hrows ih => exact List.pairwise_singleton _ _
  | case4 i rest hseparator row more hrows ih =>
    obtain ⟨hi, hrest⟩ := List.pairwise_cons.1 h
    rw [hrows] at ih
    obtain ⟨hrow, hmore⟩ := List.pairwise_cons.1 (ih hrest)
    refine .cons (fun row' hrow' => List.forall_mem_cons.2 ⟨fun j hj => ?_, hrow row' hrow'⟩) hmore
    -- the item stands in front of the separator, and the separator ends the line
    obtain ⟨s, hs, hsublist⟩ := exists_separator hrows hrow' hj
    have hbefore := (hi s (hsublist.mem List.mem_cons_self)).before.notAfter.line_le
    have hafter := (List.pairwise_iff_forall_sublist.1 hrest hsublist).line_lt hs
    exact Int.lt_of_le_of_lt hbefore hafter

/-- An item tells its row by its line. -/
theorem eq_row_of_line {items : List Item} (h : items.Pairwise Item.Precedes) {row row' : List Item}
    (hrow : row ∈ rows items) (hrow' : row' ∈ rows items) {i j : Item} (hi : i ∈ row) (hj : j ∈ row')
    (hline : i.location.line = j.location.line) : row = row' := by
  by_contra hne
  -- the order of two rows is not known, so their lines are only known to differ
  let Apart (row row' : List Item) : Prop := ∀ i ∈ row, ∀ j ∈ row', i.location.line ≠ j.location.line
  have hsymm : Std.Symm Apart := ⟨fun row row' hrows i hi j hj hline => hrows j hj i hi hline.symm⟩
  have hlines : (rows items).Pairwise Apart :=
    (pairwise_rows h).imp fun hlt i hi j hj => (hlt i hi j hj).ne
  exact hlines.forall hrow hrow' hne i hi j hj hline

end Line

end CrossAssembler
