import CrossAssembler.Proofs.Item.Phrase
import CrossAssembler.Proofs.Token.Order

/-!
# One report for each invalid item, in the order of the text

What cannot be read is reported once, and leaves one invalid item in its place. Behind a report the
reader goes on at a later token, but it may report at a token and leave that token for the next reading:
so it does at the end of a line. The reports come in the order of the text all the same, because a line
end that is left is read as a separator and never reported again.

* **Readings** (`Reading.points_start`): a failed reading is reported at a token behind which reading goes
  on, with no line end between the token it started with and the one it reports.
* **Rows of tokens** (`exists_pointsTo`): the tokens of all reports, in order, are some of the tokens of
  the text, so the places where they start grow.
* **Malformed parts** (`reports_eq_faults`, `invalidItems_eq_faults`): invalid items and reports are two
  views of one list.
-/

namespace CrossAssembler

/-! ### Readings -/

/-- Some tokens, with the end of the input behind them. -/
def toEnd (stop : Location) (ts : List Token) : List Token :=
  ts ++ [⟨.endOfInput, stop⟩]

theorem toEnd_suffix_iff {stop : Location} {ts us : List Token} :
    toEnd stop ts <:+ toEnd stop us ↔ ts <:+ us := by
  constructor
  · rintro ⟨front, h⟩
    have hcut : front ++ ts ++ [⟨.endOfInput, stop⟩] = us ++ [⟨.endOfInput, stop⟩] := by
      rw [List.append_assoc]
      exact h
    exact ⟨front, List.append_cancel_right hcut⟩
  · rintro ⟨front, rfl⟩
    exact ⟨front, (List.append_assoc _ _ _).symm⟩

namespace Reading

/-- **Where a failed reading is reported.** The tokens are cut at the token of the report. No line end
stands in front of it, and the reading leaves tokens behind it only, unless it is a line end: then it is
the first token that is left. -/
def Points (stop : Location) (row : List Token) (r : Reading) : Prop :=
  ∀ d, r.1 = .error d → ∃ passed u after,
    row = passed ++ u :: after ∧ (∀ t ∈ passed, t.lexeme ≠ .newline) ∧
    d.location = some u.location ∧
    (r.2 = [] ∨ toEnd stop r.2 <:+ after ∨ u.lexeme = .newline ∧ toEnd stop r.2 = u :: after)

variable {stop start place : Location} {row ts : List Token} {r : Reading}

theorem points_ok (i : Item) (row rest : List Token) : Points stop row (.ok i, rest) := by
  intro d hd
  cases hd

/-- A token in front, if it does not end the line. -/
theorem Points.cons (h : Points stop row r) {t : Token} (ht : t.lexeme ≠ .newline) :
    Points stop (t :: row) r := by
  intro d hd
  obtain ⟨passed, u, after, rfl, hpassed, hplace, hrest⟩ := h d hd
  exact ⟨t :: passed, u, after, rfl, List.forall_mem_cons.2 ⟨ht, hpassed⟩, hplace, hrest⟩

/-- A report at the first token, which is taken. -/
theorem points_head {u : Token} {problem : Problem} {rest : List Token} (h : rest <:+ ts) :
    Points stop (u :: toEnd stop ts) (.error (.placed u.location problem), rest) := by
  intro d hd
  cases hd
  exact ⟨[], u, toEnd stop ts, rfl, List.forall_mem_nil _, rfl, .inr (.inl (toEnd_suffix_iff.2 h))⟩

theorem skipBracket_suffix (ts : List Token) : skipBracket ts <:+ ts := by
  induction ts with
  | nil => exact List.suffix_refl []
  | cons t ts ih =>
    rw [skipBracket_cons]
    split
    · exact List.suffix_cons t ts
    · split
      · exact List.suffix_refl (t :: ts)
      · exact List.IsSuffix.trans ih (List.suffix_cons t ts)

/-- A report at the first token that is left. The rest of the bracket is skipped from there on, but a
line end stays. -/
theorem points_giveUp_current (stop : Location) (problem : Problem) (ts : List Token) :
    Points stop (toEnd stop ts) (giveUp (current stop ts).location problem ts) := by
  cases ts with
  | nil =>
    intro d hd
    cases hd
    exact ⟨[], ⟨.endOfInput, stop⟩, [], rfl, List.forall_mem_nil _, rfl, .inl rfl⟩
  | cons u ts =>
    by_cases hnewline : u.lexeme = .newline
    · have hskip : skipBracket (u :: ts) = u :: ts := by
        rw [skipBracket_cons, hnewline]
        rfl
      intro d hd
      cases hd
      refine ⟨[], u, toEnd stop ts, rfl, List.forall_mem_nil _, rfl, .inr (.inr ⟨hnewline, ?_⟩)⟩
      show toEnd stop (skipBracket (u :: ts)) = _
      rw [hskip]
      rfl
    · have hskip : skipBracket (u :: ts) <:+ ts := by
        rw [skipBracket_cons, if_neg hnewline]
        split
        · exact List.suffix_refl ts
        · exact skipBracket_suffix ts
      exact points_head hskip

theorem points_close (stop : Location) (item : Item) (ts : List Token) :
    Points stop (toEnd stop ts) (close stop item ts) := by
  unfold close
  split
  next place rest => exact points_ok item _ rest
  · exact points_giveUp_current stop _ ts

theorem points_displacement (stop start : Location) (register : IndexRegister) (negative : Bool)
    (ts : List Token) : Points stop (toEnd stop ts) (displacement stop start register negative ts) := by
  unfold displacement
  split
  next v place rest =>
    dsimp only
    generalize (if negative = true then -v else v) = d
    split
    · exact (points_close stop _ rest).cons (t := ⟨.number v, place⟩) (by rintro ⟨⟩)
    · exact points_head (u := ⟨.number v, place⟩) (skipBracket_suffix rest)
  · exact points_giveUp_current stop _ ts

theorem points_index (stop start : Location) (register : IndexRegister) (ts : List Token) :
    Points stop (toEnd stop ts) (index stop start register ts) := by
  unfold index
  split
  next sign rest =>
    exact (points_displacement stop start register false rest).cons (t := ⟨.plus, sign⟩)
      (by rintro ⟨⟩)
  next sign rest =>
    exact (points_displacement stop start register true rest).cons (t := ⟨.minus, sign⟩)
      (by rintro ⟨⟩)
  · exact points_close stop _ ts

/-- A name between brackets, which is the first token of the row. -/
theorem points_bracketedName (stop start place : Location) (name : String) (ts : List Token) :
    Points stop (⟨.name name, place⟩ :: toEnd stop ts)
      (bracketedName stop start place name ts) := by
  have hname : (⟨.name name, place⟩ : Token).lexeme ≠ .newline := by rintro ⟨⟩
  have hfails : ∀ problem, Points stop (⟨.name name, place⟩ :: toEnd stop ts)
      (giveUp place problem ts) :=
    fun problem => points_head (u := ⟨.name name, place⟩) (skipBracket_suffix ts)
  have hcloses : ∀ item, Points stop (⟨.name name, place⟩ :: toEnd stop ts) (close stop item ts) :=
    fun item => (points_close stop item ts).cons hname
  unfold bracketedName
  split
  · exact (points_index stop start _ ts).cons hname
  · split
    · exact hcloses _
    · exact hfails _
  · split
    · exact hcloses _
    · split
      · exact hcloses _
      · exact hfails _

theorem points_bracket (stop start : Location) {ts : List Token} (hend : ∀ t ∈ ts, t.isEnd = false) :
    Points stop (toEnd stop ts) (bracket stop start ts) := by
  cases ts with
  | nil =>
    intro d hd
    cases hd
    exact ⟨[], ⟨.endOfInput, stop⟩, [], rfl, List.forall_mem_nil _, rfl, .inl rfl⟩
  | cons t rest =>
    obtain ⟨lexeme, place⟩ := t
    cases lexeme with
    | newline =>
      -- the line end is reported, and left
      intro d hd
      cases hd
      exact ⟨[], ⟨.newline, place⟩, toEnd stop rest, rfl, List.forall_mem_nil _, rfl,
        .inr (.inr ⟨rfl, rfl⟩)⟩
    | endOfInput => cases hend _ List.mem_cons_self
    | number v =>
      show Points stop _ (if 0xFFFF < v then _ else _)
      split
      · exact points_head (u := ⟨.number v, place⟩) (skipBracket_suffix rest)
      · exact (points_close stop _ rest).cons (t := ⟨.number v, place⟩) (by rintro ⟨⟩)
    | name name => exact points_bracketedName stop start place name rest
    | closeBracket => exact points_head (u := ⟨.closeBracket, place⟩) (List.suffix_refl rest)
    | _ => exact points_head (u := ⟨_, place⟩) (skipBracket_suffix rest)

theorem points_name (text : String) (place : Location) (row ts : List Token) :
    Points stop row (name text place ts) := by
  unfold name
  split
  · exact points_ok _ row _
  · exact points_ok _ row _

/-- The mark of a value, which is the first token of the row, is what is reported. -/
theorem points_marked (stop start : Location) (ts : List Token) :
    Points stop (⟨.pound, start⟩ :: toEnd stop ts) (marked stop start ts) := by
  unfold marked
  split
  · exact points_ok _ _ _
  · exact points_name _ _ _ _
  · exact points_head (u := ⟨.pound, start⟩) (List.suffix_refl ts)

/-- **One reading.** Whatever token it starts with, a failed reading is reported on its line. -/
theorem points_start (stop : Location) (t : Token) {ts : List Token}
    (hend : ∀ t ∈ ts, t.isEnd = false) :
    Points stop (t :: toEnd stop ts) (Reading.start stop t ts) := by
  obtain ⟨lexeme, place⟩ := t
  cases lexeme with
  | newline | comma | number | string => exact points_ok _ _ _
  | name text => exact points_name text place _ ts
  | pound => exact points_marked stop place ts
  | openBracket => exact (points_bracket stop place hend).cons (by rintro ⟨⟩)
  | _ => exact points_head (u := ⟨_, place⟩) (List.suffix_refl ts)

/-- What a failed reading leaves are the last tokens of those it had. -/
theorem Points.rest_suffix {d : Diagnostic} (h : Points stop (toEnd stop ts) r) (hd : r.1 = .error d) :
    r.2 <:+ ts := by
  obtain ⟨passed, u, after, hrow, -, -, hrest⟩ := h d hd
  rcases hrest with hrest | hrest | ⟨-, hrest⟩
  · rw [hrest]
    exact List.nil_suffix
  · rw [← toEnd_suffix_iff, hrow]
    exact List.IsSuffix.trans hrest (List.IsSuffix.trans (List.suffix_cons u after)
      (List.suffix_append passed _))
  · rw [← toEnd_suffix_iff, hrow, hrest]
    exact List.suffix_append passed _

/-- **The tokens that a reading leaves** are the last ones of those it had. A reading never puts a token
back, and so each report is at a token of its own. -/
theorem rest_suffix (stop : Location) (t : Token) {ts : List Token}
    (hend : ∀ t ∈ ts, t.isEnd = false) : (Reading.start stop t ts).2 <:+ t :: ts := by
  have hpoints := points_start stop t hend
  generalize hread : Reading.start stop t ts = r at hpoints
  obtain ⟨result, rest⟩ := r
  cases result with
  | ok i =>
    obtain ⟨taken, rfl, -⟩ := phrase_of_start hread
    exact List.IsSuffix.trans (List.suffix_append taken rest) (List.suffix_cons t _)
  | error d => exact hpoints.rest_suffix rfl

end Reading

/-! ### Malformed parts -/

/-- The place and the report of a malformed entry. -/
def Entry.fault? : Entry → Option (Location × Diagnostic)
  | item _ => none
  | invalid place report => some (place, report)

/-- The items that stand for something malformed. -/
def Parsed.invalidItems (p : Parsed) : List Item :=
  p.items.filter fun i => i.kind == .invalid

/-- The malformed parts of a row of tokens: where each one starts, and its report. -/
def faults (file : String) (ts : List Token) : List (Location × Diagnostic) :=
  (allEntries file ts).filterMap Entry.fault?

/-- The reports are those of the malformed parts. -/
theorem reports_eq_faults (file : String) (ts : List Token) :
    (parse file ts).reports = (faults file ts).map Prod.snd := by
  rw [faults, List.map_filterMap]
  refine congrArg (fun f => (allEntries file ts).filterMap f) (funext fun e => ?_)
  cases e <;> rfl

/-- No reading gives an invalid item. -/
theorem kind_ne_invalid_of_mem_allEntries {file : String} {ts : List Token} {i : Item}
    (hi : .item i ∈ allEntries file ts) : i.kind ≠ .invalid := by
  refine forall_mem_entries (P := fun e => ∀ i, e = .item i → i.kind ≠ .invalid) ?_ _ _ _ _ hi i rfl
  intro place r hr j hj
  cases hresult : r.1 with
  | ok k =>
    rw [hresult] at hj
    cases hj
    exact (hr j hresult).2
  | error d =>
    rw [hresult] at hj
    cases hj

/-- The invalid items are those of the malformed parts. -/
theorem invalidItems_eq_faults (file : String) (ts : List Token) :
    (parse file ts).invalidItems =
      (faults file ts).map fun fault => { kind := .invalid, location := fault.1 } := by
  have hitems : ∀ i, .item i ∈ allEntries file ts → i.kind ≠ .invalid :=
    fun i hi => kind_ne_invalid_of_mem_allEntries hi
  unfold Parsed.invalidItems parse faults
  dsimp only
  -- entry by entry: an item is not invalid, and what is malformed gives one item and one report
  generalize allEntries file ts = es at hitems
  induction es with
  | nil => rfl
  | cons e es ih =>
    have hrest := ih fun i hi => hitems i (List.mem_cons_of_mem e hi)
    cases e with
    | item i =>
      have hkind : ¬ (i.kind == .invalid) = true := by
        rw [beq_iff_eq]
        exact hitems i List.mem_cons_self
      show (i :: es.map Entry.toItem).filter (fun i => i.kind == .invalid) = _
      rw [List.filter_cons, if_neg hkind]
      exact hrest
    | invalid place report => exact congrArg _ hrest

/-! ### Rows of tokens -/

/-- A malformed part that starts at a place and is reported at a token: further right on the line, or at
the place itself. -/
def PointsTo (fault : Location × Diagnostic) (u : Spot) : Prop :=
  fault.2.location = some u.token.location ∧ u.place.line = fault.1.line ∧ fault.1.NotAfter u.place

/-- Along a line, a token starts in front of all that follow it up to the end of the line. -/
theorem place_of_isChain {passed after : List Spot} {u : Spot}
    (hchain : (passed ++ u :: after).IsChain Spot.Adjoins)
    (hpassed : ∀ s ∈ passed, s.token.lexeme ≠ .newline) :
    ∀ s ∈ passed, s.place.Before u.place ∧ u.place.line = s.place.line := by
  -- a token that is no line end has its neighbour further right on its line
  induction passed with
  | nil => exact List.forall_mem_nil _
  | cons s passed ih =>
    rw [List.cons_append, List.isChain_cons] at hchain
    obtain ⟨hfirst, hchain⟩ := hchain
    obtain ⟨hs, hpassed⟩ := List.forall_mem_cons.1 hpassed
    have hrest := ih hchain hpassed
    refine List.forall_mem_cons.2 ⟨?_, hrest⟩
    cases passed with
    | nil =>
      have hnext := hfirst u rfl
      exact ⟨hnext.before, hnext.line_eq hs⟩
    | cons s' passed =>
      have hnext := hfirst s' rfl
      obtain ⟨hbefore, hline⟩ := hrest s' List.mem_cons_self
      exact ⟨hnext.before.trans hbefore, hline.trans (hnext.line_eq hs)⟩

/-- A report that points into a row lies on the line of its first token. -/
theorem Reading.Points.pointsTo {stop : Location} {s : Spot} {row : List Spot} {r : Reading}
    {d : Diagnostic} (h : Reading.Points stop ((s :: row).map Spot.token) r) (hd : r.1 = .error d)
    (hchain : (s :: row).IsChain Spot.Adjoins) :
    ∃ passed u after, s :: row = passed ++ u :: after ∧ PointsTo (s.place, d) u ∧
      (r.2 = [] ∨ toEnd stop r.2 <:+ after.map Spot.token ∨
        u.token.lexeme = .newline ∧ toEnd stop r.2 = (u :: after).map Spot.token) := by
  obtain ⟨passed, u, after, hrow, hpassed, hplace, hrest⟩ := h d hd
  obtain ⟨passed, _, hspots, rfl, htail⟩ := List.map_eq_append_iff.1 hrow
  obtain ⟨u, after, rfl, rfl, rfl⟩ := List.map_eq_cons_iff.1 htail
  refine ⟨passed, u, after, hspots, ⟨hplace, ?_⟩, hrest⟩
  rw [hspots] at hchain
  have hline := place_of_isChain hchain fun s hs => hpassed _ (List.mem_map_of_mem hs)
  cases passed with
  | nil =>
    obtain ⟨rfl, -⟩ := List.cons.inj hspots
    exact ⟨rfl, .refl _⟩
  | cons s' passed =>
    obtain ⟨rfl, -⟩ := List.cons.inj hspots
    obtain ⟨hbefore, hsame⟩ := hline s List.mem_cons_self
    exact ⟨hsame, hbefore.notAfter⟩

/-- A row from its first token on that is no line end. -/
def behindLineEnds (row : List Spot) : List Spot :=
  row.dropWhile fun s => s.token.lexeme == .newline

theorem behindLineEnds_cons {s : Spot} (h : s.token.lexeme = .newline) (row : List Spot) :
    behindLineEnds (s :: row) = behindLineEnds row :=
  List.dropWhile_cons_of_pos (beq_iff_eq.2 h)

theorem behindLineEnds_cons_of_ne {s : Spot} (h : s.token.lexeme ≠ .newline) (row : List Spot) :
    behindLineEnds (s :: row) = s :: row := by
  refine List.dropWhile_cons_of_neg ?_
  rw [beq_iff_eq]
  exact h

theorem behindLineEnds_sublist (row : List Spot) : (behindLineEnds row).Sublist row :=
  (List.dropWhile_suffix _).sublist

/-- **The tokens of the reports are some of the tokens of the text, in order.** The line ends that the
row starts with are none of them: so the reports behind a line end that has been reported are behind its
token too. -/
theorem exists_pointsTo {stop : Location} {blank : Bool} {ts : List Token} {row : List Spot}
    (hrow : row.map Spot.token = toEnd stop ts) (hend : ∀ t ∈ ts, t.isEnd = false)
    (hchain : row.IsChain Spot.Adjoins)
    (hstated : ∀ s ∈ row, s.token.lexeme ≠ .newline → s.token.location = s.place) :
    ∃ us, List.Forall₂ PointsTo ((entries stop blank ts).filterMap Entry.fault?) us ∧
      us.Sublist (behindLineEnds row) := by
  -- each reading leaves a shorter row; the tokens of the reports are kept in front of what is left, and a
  -- line end that was reported is dropped by `behindLineEnds`, so that it is not passed twice
  fun_induction entries stop blank ts generalizing row with
  | case1 => exact ⟨[], .nil, List.nil_sublist _⟩
  | case2 blank t ts hblank ih =>
    obtain ⟨hnewline, -⟩ := hblank
    obtain ⟨-, hts⟩ := List.forall_mem_cons.1 hend
    obtain ⟨s, row, rfl, rfl, hmap⟩ := List.map_eq_cons_iff.1 hrow
    rw [behindLineEnds_cons hnewline]
    exact ih hmap hts hchain.tail fun s hs => hstated s (List.mem_cons_of_mem _ hs)
  | case3 blank t ts hblank ih =>
    obtain ⟨-, hts⟩ := List.forall_mem_cons.1 hend
    obtain ⟨s, row, rfl, rfl, hmap⟩ := List.map_eq_cons_iff.1 hrow
    have hpoints := Reading.points_start stop s.token hts
    have hsuffix := Reading.rest_suffix stop s.token hts
    generalize hread : Reading.start stop s.token ts = r at ih hpoints hsuffix
    obtain ⟨result, rest⟩ := r
    -- what is left of the row is read in turn
    have hleft : ∀ row', row' <:+ s :: row → row'.map Spot.token = toEnd stop rest →
        ∃ us, List.Forall₂ PointsTo ((entries stop _ rest).filterMap Entry.fault?) us ∧
          us.Sublist (behindLineEnds row') :=
      fun row' hrow' hmap' => ih hmap' (fun t ht => hend t (hsuffix.mem ht)) (hchain.suffix hrow')
        fun u hu => hstated u (hrow'.mem hu)
    cases result with
    | ok i =>
      -- nothing is reported, and the tokens of a phrase are taken
      by_cases hnewline : s.token.lexeme = .newline
      · obtain ⟨taken, rfl, hphrase⟩ := Reading.phrase_of_start hread
        obtain rfl := hphrase.eq_nil_of_newline hnewline
        obtain ⟨us, hus, hsublist⟩ := hleft row (List.suffix_cons s row) hmap
        refine ⟨us, hus, ?_⟩
        rw [behindLineEnds_cons hnewline]
        exact hsublist
      · have hrest : toEnd stop rest <:+ (s :: row).map Spot.token := by
          rw [hrow]
          exact toEnd_suffix_iff.2 hsuffix
        obtain ⟨row', hrow', hmap'⟩ := List.suffix_map_iff.1 hrest
        obtain ⟨us, hus, hsublist⟩ := hleft row' hrow' hmap'.symm
        refine ⟨us, hus, ?_⟩
        rw [behindLineEnds_cons_of_ne hnewline]
        exact hsublist.trans ((behindLineEnds_sublist row').trans hrow'.sublist)
    | error d =>
      -- the reading did not start with a line end, which is never reported by itself
      have hnewline : s.token.lexeme ≠ .newline := by
        intro hnewline
        rw [Reading.start, hnewline] at hread
        cases hread
      change Reading.Points stop (toEnd stop (s.token :: ts)) _ at hpoints
      rw [← hrow] at hpoints
      obtain ⟨passed, u, after, hspots, hpoint, hrest⟩ := hpoints.pointsTo rfl hchain
      rw [← hstated s List.mem_cons_self hnewline] at hpoint
      rw [behindLineEnds_cons_of_ne hnewline, hspots]
      have hbehind : u :: after <:+ s :: row := by
        rw [hspots]
        exact List.suffix_append passed _
      suffices hnext : ∃ us, List.Forall₂ PointsTo ((entries stop _ rest).filterMap Entry.fault?) us ∧
          us.Sublist after by
        obtain ⟨us, hus, hafter⟩ := hnext
        refine ⟨u :: us, .cons hpoint hus, ?_⟩
        exact (List.cons_sublist_cons.2 hafter).trans (List.sublist_append_right passed _)
      rcases hrest with hnil | hsuffix' | ⟨hlast, hline⟩
      · dsimp only at hnil
        subst hnil
        rw [entries]
        exact ⟨[], .nil, List.nil_sublist after⟩
      · obtain ⟨row', hrow', hmap'⟩ := List.suffix_map_iff.1 hsuffix'
        have hafter : row' <:+ s :: row :=
          List.IsSuffix.trans hrow' (List.IsSuffix.trans (List.suffix_cons u after) hbehind)
        obtain ⟨us, hus, hsublist⟩ := hleft row' hafter hmap'.symm
        exact ⟨us, hus, hsublist.trans ((behindLineEnds_sublist row').trans hrow'.sublist)⟩
      · -- a line end that was reported is left, and passed over by what is read next
        obtain ⟨us, hus, hsublist⟩ := hleft (u :: after) hbehind hline.symm
        rw [behindLineEnds_cons hlast] at hsublist
        exact ⟨us, hus, hsublist.trans (behindLineEnds_sublist after)⟩

/-- A place on the line of an item, and not in front of it. A report on a malformed operand stands where
reading it went wrong, which can be behind where it starts. -/
def Item.ReportedAt (i : Item) (place : Location) : Prop :=
  place.line = i.location.line ∧ i.location.NotAfter place

/-- A report that states a place, or the line behind it instead of line zero. -/
def Diagnostic.StatesPlace (d : Diagnostic) (place : Location) : Prop :=
  ∃ l, d.location = some l ∧ l.StatedFor place

theorem reportedAt_of_pointsTo {faults : List (Location × Diagnostic)} {us : List Spot}
    (h : List.Forall₂ PointsTo faults us) :
    List.Forall₂ Item.ReportedAt (faults.map fun fault => { kind := .invalid, location := fault.1 })
      (us.map Spot.place) := by
  rw [List.forall₂_map_left_iff, List.forall₂_map_right_iff]
  exact h.imp fun _ _ hpoint => hpoint.2

theorem statesPlace_of_pointsTo {faults : List (Location × Diagnostic)} {us : List Spot}
    (h : List.Forall₂ PointsTo faults us) (hstated : ∀ u ∈ us, u.token.location.StatedFor u.place) :
    List.Forall₂ Diagnostic.StatesPlace (faults.map Prod.snd) (us.map Spot.place) := by
  induction h with
  | nil => exact .nil
  | cons hpoint _ ih =>
    obtain ⟨hfirst, hrest⟩ := List.forall_mem_cons.1 hstated
    exact .cons ⟨_, hpoint.1, hfirst⟩ (ih hrest)

theorem map_location_of_pointsTo {faults : List (Location × Diagnostic)} {us : List Spot}
    (h : List.Forall₂ PointsTo faults us) :
    (faults.map Prod.snd).map (·.location) = us.map fun u => some u.token.location := by
  induction h with
  | nil => rfl
  | cons hpoint _ ih => exact congrArg₂ List.cons hpoint.1 ih

/-! ### Texts -/

theorem eq_locate_of_tokenize {source name : String} {firstLine : Int} {tokens : List Token}
    (htokens : tokenize source name firstLine = .ok tokens) :
    tokens = locate ⟨name, firstLine, 1⟩ (pieces source.toList) := by
  rcases tokenize_cases source name firstLine with ⟨digits, -, herror⟩ | ⟨-, hok⟩
  · rw [herror] at htokens
    cases htokens
  · rw [hok] at htokens
    cases htokens
    rfl

/-- The tokens of all reports of a text, in order. -/
theorem exists_pointsTo_of_text (start : Location) (cs : List Char) (file : String) :
    ∃ us, List.Forall₂ PointsTo (faults file (locate start (pieces cs))) us ∧
      us.Sublist (spots start (pieces cs)) := by
  have hwhole := whole_of_mem_pieces cs
  have hrow := map_token_spots start (pieces cs)
  rw [locate_eq] at hrow
  rw [faults, allEntries_locate]
  obtain ⟨us, hus, hsublist⟩ := exists_pointsTo hrow isEnd_of_mem_text (isChain_spots hwhole start)
    fun s hs => (stated_of_mem_spots hwhole hs).2
  exact ⟨us, hus, hsublist.trans (behindLineEnds_sublist _)⟩

/-- **One report for each invalid item, in the order of the text.** There are as many reports as invalid
items. To each belongs a place on the line of its invalid item and not in front of it, and every one of
these places lies behind the one before. The reports state these places, except that line one is stated
for the end of line zero; so they do for every text if lines are numbered from one on. -/
theorem invalid_items_reported_in_order {source name : String} {firstLine : Int} {tokens : List Token}
    (htokens : tokenize source name firstLine = .ok tokens) (file : String) :
    (parse file tokens).reports.length = (parse file tokens).invalidItems.length ∧
      ∃ places : List Location,
        List.Forall₂ Item.ReportedAt (parse file tokens).invalidItems places ∧
        places.Pairwise Location.Before ∧
        List.Forall₂ Diagnostic.StatesPlace (parse file tokens).reports places ∧
        (NoEndOnLineZero firstLine source.toList →
          (parse file tokens).reports.map (·.location) = places.map some) := by
  obtain rfl := eq_locate_of_tokenize htokens
  rw [reports_eq_faults, invalidItems_eq_faults]
  refine ⟨by rw [List.length_map, List.length_map], ?_⟩
  have hwhole := whole_of_mem_pieces source.toList
  obtain ⟨us, hus, hsublist⟩ :=
    exists_pointsTo_of_text ⟨name, firstLine, 1⟩ source.toList file
  -- the tokens of the reports are some of the tokens, so their places grow as all places do
  have hpairwise := pairwise_of_isChain (isChain_spots hwhole _) hsublist
  have hstates := statesPlace_of_pointsTo hus fun u hu => (stated_of_mem_spots hwhole (hsublist.mem hu)).1
  refine ⟨us.map Spot.place, reportedAt_of_pointsTo hus, hpairwise, hstates, fun hzero => ?_⟩
  rw [map_location_of_pointsTo hus, List.map_map]
  refine List.map_congr_left fun u hu => congrArg some ?_
  rw [← pieces_flatten source.toList] at hzero
  exact location_of_mem_spots hzero (hsublist.mem hu)

/-- A bracket that is open at the end of its line is reported there, and what follows on the next
line. -/
theorem invalid_items_reported_in_order_open :
    tokenize "(\n)" "f" = .ok [⟨.openBracket, ⟨"f", 1, 1⟩⟩, ⟨.newline, ⟨"f", 1, 2⟩⟩,
        ⟨.closeBracket, ⟨"f", 2, 1⟩⟩, ⟨.endOfInput, ⟨"f", 2, 2⟩⟩] ∧
      NoEndOnLineZero 1 "(\n)".toList ∧
      ∃ tokens, tokenize "(\n)" "f" = .ok tokens ∧ ∃ places : List Location,
        List.Forall₂ Item.ReportedAt (parse "f" tokens).invalidItems places ∧
        places.Pairwise Location.Before ∧
        (parse "f" tokens).reports.map (·.location) = places.map some := by
  have htokens : tokenize "(\n)" "f" = .ok [⟨.openBracket, ⟨"f", 1, 1⟩⟩, ⟨.newline, ⟨"f", 1, 2⟩⟩,
      ⟨.closeBracket, ⟨"f", 2, 1⟩⟩, ⟨.endOfInput, ⟨"f", 2, 2⟩⟩] := by decide +kernel
  have hzero : NoEndOnLineZero 1 "(\n)".toList := .inl Int.one_pos
  obtain ⟨-, places, hreported, hpairwise, -, hplaces⟩ := invalid_items_reported_in_order htokens "f"
  exact ⟨htokens, hzero, _, htokens, places, hreported, hpairwise, hplaces hzero⟩

/-- **A line end on line zero is reported a line too late**: the first of two reports then lies below its
invalid item, and behind the second report. -/
theorem line_zero_reported_late :
    ∃ tokens, tokenize "(\n)" "f" 0 = .ok tokens ∧ ∃ places : List Location,
      (parse "f" tokens).reports.map (·.location) = places.map some ∧
      ¬ List.Forall₂ Item.ReportedAt (parse "f" tokens).invalidItems places ∧
      ¬ places.Pairwise Location.Before := by
  have htokens : tokenize "(\n)" "f" 0 = .ok [⟨.openBracket, ⟨"f", 0, 1⟩⟩, ⟨.newline, ⟨"f", 1, 2⟩⟩,
      ⟨.closeBracket, ⟨"f", 1, 1⟩⟩, ⟨.endOfInput, ⟨"f", 1, 2⟩⟩] := by decide +kernel
  have hfaults : faults "f" [⟨.openBracket, ⟨"f", 0, 1⟩⟩, ⟨.newline, ⟨"f", 1, 2⟩⟩,
      ⟨.closeBracket, ⟨"f", 1, 1⟩⟩, ⟨.endOfInput, ⟨"f", 1, 2⟩⟩] =
      [(⟨"f", 0, 1⟩, .placed ⟨"f", 1, 2⟩ (.noIndirection none)),
        (⟨"f", 1, 1⟩, .placed ⟨"f", 1, 1⟩ (.unhandledToken "')'"))] := by decide +kernel
  refine ⟨_, htokens, [⟨"f", 1, 2⟩, ⟨"f", 1, 1⟩], ?_⟩
  rw [reports_eq_faults, invalidItems_eq_faults, hfaults]
  refine ⟨rfl, fun hreported => ?_, fun hpairwise => ?_⟩
  · obtain ⟨⟨hline, -⟩, -⟩ := List.forall₂_cons.1 hreported
    exact absurd hline Int.one_ne_zero
  · obtain ⟨-, hplace⟩ := List.rel_of_pairwise_cons hpairwise List.mem_cons_self
    revert hplace
    decide

end CrossAssembler
