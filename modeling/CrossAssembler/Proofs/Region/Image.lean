import CrossAssembler.Assembly
import CrossAssembler.Proofs.Program.Phase
import CrossAssembler.Proofs.Region.Bundle
import Mathlib.Data.Int.Order.Basic
import Mathlib.Order.Bounds.Basic

/-!
# The memory image

`Region.flatten` sorts regions by their base and looks for an overlap only between neighbours. It is
compared here with the cells of the regions, which know nothing of neighbours.

* **Images** (`Shows`): an image from a base on shows some cells if it holds their bytes at their
  addresses and the fill everywhere else, and ends with the last of them. Gaps and regions in front
  of an image extend it (`Shows.gap`, `Shows.data`).
* **Laying out** (`Region.layOut_cases`): sorted regions are laid out exactly if the addresses of
  their cells are distinct, and otherwise the overlap is found.
* **Flattening** (`Region.flatten_cases`): the same for regions in any order.
* **Addresses** (`Walk.InSpace.along`): a walk over a parsed program that starts in the address
  space stays in it.
-/

namespace CrossAssembler

/-! ### Images -/

/-- The image from a base on shows some cells, and the fill where there is none. It ends with a
cell. -/
structure Shows (fill : UInt8) (cells : List (Int × UInt8)) (base : Int) (image : List UInt8) :
    Prop where
  bounds : ∀ c ∈ cells, base ≤ c.1 ∧ c.1 < base + image.length
  byte : ∀ c ∈ cells, ∀ k : Nat, c.1 = base + k → image[k]? = some c.2
  blank : ∀ k < image.length, (∀ c ∈ cells, c.1 ≠ base + k) → image[k]? = some fill
  last : image ≠ [] → ∃ c ∈ cells, c.1 + 1 = base + image.length

namespace Shows

variable {fill : UInt8} {cells : List (Int × UInt8)} {base : Int} {image : List UInt8}

theorem nil (fill : UInt8) (base : Int) : Shows fill [] base [] where
  bounds := nofun
  byte := nofun
  blank := nofun
  last h := absurd rfl h

/-- A gap in front of an image. -/
theorem gap {n : Nat} (h : Shows fill cells (base + n) image) (himage : image ≠ []) :
    Shows fill cells base (List.replicate n fill ++ image) where
  bounds c hc := by
    have hbounds := h.bounds c hc
    rw [List.length_append, List.length_replicate]
    omega
  byte c hc k hk := by
    have hbounds := h.bounds c hc
    have hbyte := h.byte c hc (k - n) (by omega)
    -- cells stand behind the gap
    rw [List.getElem?_append_right (by rw [List.length_replicate]; omega), List.length_replicate]
    exact hbyte
  blank k hk hfree := by
    by_cases hgap : k < n
    · rw [List.getElem?_append_left (by rwa [List.length_replicate]), List.getElem?_replicate,
        if_pos hgap]
    · rw [List.getElem?_append_right (by rw [List.length_replicate]; omega),
        List.length_replicate]
      rw [List.length_append, List.length_replicate] at hk
      refine h.blank (k - n) (by omega) fun c hc => ?_
      have := hfree c hc
      omega
  last _ := by
    obtain ⟨c, hc, hlast⟩ := h.last himage
    refine ⟨c, hc, ?_⟩
    rw [List.length_append, List.length_replicate]
    omega

/-- Bytes in front of an image. -/
theorem data {bytes : List UInt8} (h : Shows fill cells (base + bytes.length) image) :
    Shows fill (cellsFrom base bytes ++ cells) base (bytes ++ image) where
  bounds c hc := by
    rw [List.length_append]
    rcases List.mem_append.1 hc with hc | hc
    · have := bounds_of_mem_cellsFrom hc
      omega
    · have := h.bounds c hc
      omega
  byte c hc k hk := by
    rcases List.mem_append.1 hc with hc | hc
    · obtain ⟨i, hi, hci⟩ := mem_cellsFrom.1 hc
      have hik : i = k := by omega
      subst hik
      rw [List.getElem?_append_left (List.getElem?_eq_some_iff.1 hi).1, hi]
    · have hbounds := h.bounds c hc
      have hbyte := h.byte c hc (k - bytes.length) (by omega)
      rw [List.getElem?_append_right (by omega)]
      exact hbyte
  blank k hk hfree := by
    by_cases hinside : k < bytes.length
    · -- every address of the bytes is the address of a cell
      obtain ⟨b, hb⟩ : ∃ b, (base + k, b) ∈ cellsFrom base bytes :=
        exists_mem_cellsFrom (by omega) (by omega)
      exact absurd rfl (hfree _ (List.mem_append_left _ hb))
    · rw [List.getElem?_append_right (by omega)]
      rw [List.length_append] at hk
      refine h.blank (k - bytes.length) (by omega) fun c hc => ?_
      have := hfree c (List.mem_append_right _ hc)
      omega
  last hne := by
    rw [List.length_append]
    by_cases himage : image = []
    · -- the bytes are the end of the image, so the last of them is its last cell
      subst himage
      rw [List.append_nil] at hne
      have hpos : 0 < bytes.length := List.length_pos_iff.2 hne
      obtain ⟨b, hb⟩ : ∃ b, (base + bytes.length - 1, b) ∈ cellsFrom base bytes :=
        exists_mem_cellsFrom (by omega) (by omega)
      refine ⟨_, List.mem_append_left _ hb, ?_⟩
      simp
    · obtain ⟨c, hc, hlast⟩ := h.last himage
      exact ⟨c, List.mem_append_right _ hc, by omega⟩

/-- An image shows cells, whatever their order. -/
theorem congr {cells' : List (Int × UInt8)} (h : Shows fill cells base image)
    (hmem : ∀ c, c ∈ cells' ↔ c ∈ cells) : Shows fill cells' base image where
  bounds c hc := h.bounds c ((hmem c).1 hc)
  byte c hc := h.byte c ((hmem c).1 hc)
  blank k hk hfree := h.blank k hk fun c hc => hfree c ((hmem c).2 hc)
  last hne := by
    obtain ⟨c, hc, hlast⟩ := h.last hne
    exact ⟨c, (hmem c).2 hc, hlast⟩

end Shows

namespace Region

/-! ### Laying out sorted regions -/

/-- The addresses of the cells of some regions are distinct. -/
def Apart (regions : List Region) : Prop :=
  ((regions.flatMap cells).map Prod.fst).Nodup

theorem gap_eq {fill : Int} (hlow : 0 ≤ fill) (hhigh : fill ≤ 0xFF) (count : Nat) :
    gap fill count = .ok (List.replicate count (UInt8.ofNat fill.toNat)) := by
  unfold gap
  split
  next hcount =>
    rw [hcount]
    rfl
  · rw [if_pos ⟨hlow, hhigh⟩]

/-- The regions of a sorted row lie at or above the base of the first. -/
theorem base_le_of_mem_cells {r : Region} {rest : List Region}
    (hsorted : (r :: rest).Pairwise fun s t => s.base ≤ t.base) {c : Int × UInt8}
    (hc : c ∈ (r :: rest).flatMap cells) : r.base ≤ c.1 := by
  obtain ⟨s, hs, hc⟩ := List.mem_flatMap.1 hc
  have hbase := (bounds_of_mem_cellsFrom hc).1
  rcases List.mem_cons.1 hs with rfl | hs
  · exact hbase
  · exact Int.le_trans ((List.pairwise_cons.1 hsorted).1 s hs) hbase

/-- The first byte of a region stands at its base. -/
theorem exists_cell_base {r : Region} (hr : r.data ≠ []) : ∃ b, (r.base, b) ∈ r.cells := by
  have hpos : 0 < r.data.length := List.length_pos_iff.2 hr
  exact exists_mem_cellsFrom (le_refl r.base) (by omega)

/-- A region below a sorted row is apart from it if it ends where the row starts, or before. -/
theorem apart_cons_iff {below r : Region} {rest : List Region}
    (hsorted : (below :: r :: rest).Pairwise fun s t => s.base ≤ t.base) (hr : r.data ≠ []) :
    Apart (below :: r :: rest) ↔ below.finish ≤ r.base ∧ Apart (r :: rest) := by
  have htail := (List.pairwise_cons.1 hsorted).2
  have hbase : below.base ≤ r.base := (List.pairwise_cons.1 hsorted).1 r List.mem_cons_self
  unfold Apart
  rw [List.flatMap_cons, List.map_append, List.nodup_append]
  constructor
  · rintro ⟨-, hnodup, hdisjoint⟩
    refine ⟨?_, hnodup⟩
    -- otherwise the first byte of `r` stands on a byte of the region below
    by_contra hlt
    obtain ⟨b, hb⟩ : ∃ b, (r.base, b) ∈ cellsFrom below.base below.data :=
      exists_mem_cellsFrom hbase (by unfold finish at hlt; omega)
    obtain ⟨b', hb'⟩ := exists_cell_base hr
    have hmem : (r.base, b') ∈ (r :: rest).flatMap cells :=
      List.mem_flatMap.2 ⟨r, List.mem_cons_self, hb'⟩
    exact hdisjoint _ (List.mem_map_of_mem (f := Prod.fst) hb) _
      (List.mem_map_of_mem (f := Prod.fst) hmem) rfl
  · rintro ⟨hle, hnodup⟩
    refine ⟨nodup_cellsFrom _ _, hnodup, ?_⟩
    -- what is below ends before anything above starts
    intro a ha a' ha' heq
    obtain ⟨c, hc, rfl⟩ := List.mem_map.1 ha
    obtain ⟨c', hc', rfl⟩ := List.mem_map.1 ha'
    have hbelow := (bounds_of_mem_cellsFrom hc).2
    have habove := base_le_of_mem_cells htail hc'
    unfold finish at hle
    omega

/-- **Sorted regions are laid out exactly if they are apart.** What is laid out shows their
cells. -/
theorem layOut_cases {fill : Int} (hlow : 0 ≤ fill) (hhigh : fill ≤ 0xFF) {below : Region}
    {rest : List Region} (hsorted : (below :: rest).Pairwise fun s t => s.base ≤ t.base)
    (hdata : ∀ r ∈ rest, r.data ≠ []) :
    (Apart (below :: rest) ∧ ∃ above, layOut fill below rest = .ok above ∧
        Shows (UInt8.ofNat fill.toNat) (rest.flatMap cells) below.finish above) ∨
      ¬ Apart (below :: rest) ∧
        ∃ base first last, layOut fill below rest = .error (.overlap base first last) := by
  -- the region below moves along: each step compares it with its neighbour only, and the order of the bases
  -- keeps it away from all the others
  induction rest generalizing below with
  | nil =>
    refine .inl ⟨?_, [], rfl, Shows.nil _ _⟩
    unfold Apart
    rw [List.flatMap_cons, List.flatMap_nil, List.append_nil]
    exact nodup_cellsFrom _ _
  | cons r rest ih =>
    have hr := hdata r List.mem_cons_self
    rw [apart_cons_iff hsorted hr, layOut]
    by_cases hoverlap : r.base < below.finish
    · -- an overlap with the neighbour is one of the whole row
      rw [if_pos hoverlap]
      exact .inr ⟨fun h => by omega, _, _, _, rfl⟩
    · rw [if_neg hoverlap, gap_eq hlow hhigh]
      have hle : below.finish ≤ r.base := by omega
      rcases ih (List.pairwise_cons.1 hsorted).2 fun s hs => hdata s (List.mem_cons_of_mem _ hs)
        with ⟨hapart, above, habove, hshows⟩ | ⟨hapart, base, first, last, hlast⟩
      · refine .inl ⟨⟨hle, hapart⟩,
          List.replicate (r.base - below.finish).toNat (UInt8.ofNat fill.toNat) ++ r.data ++ above,
          ?_, ?_⟩
        · rw [habove]
          rfl
        · -- from below: the gap, then the bytes of `r`, then what is above
          have hbase : below.finish + ((r.base - below.finish).toNat : Int) = r.base := by omega
          rw [List.append_assoc]
          refine Shows.gap ?_ fun h => hr (List.append_eq_nil_iff.1 h).1
          rw [hbase]
          exact Shows.data hshows
      · refine .inr ⟨fun h => hapart h.2, base, first, last, ?_⟩
        rw [hlast]
        rfl

/-! ### Flattening regions -/

theorem ordered_perm (regions : List Region) : (ordered regions).Perm regions :=
  List.mergeSort_perm _ _

theorem pairwise_ordered (regions : List Region) :
    (ordered regions).Pairwise fun s t => s.base ≤ t.base := by
  have h : (ordered regions).Pairwise fun s t => decide (s.base ≤ t.base) = true :=
    List.pairwise_mergeSort (fun a b c => by simpa using fun hab hbc => le_trans hab hbc)
      (fun a b => by simpa using le_total a.base b.base) regions
  exact h.imp fun hbase => of_decide_eq_true hbase

theorem apart_ordered (regions : List Region) : Apart (ordered regions) ↔ Apart regions :=
  ((ordered_perm regions).flatMap_right cells |>.map Prod.fst).nodup_iff

/-- **Regions are flattened exactly if they are apart.** The image starts at the lowest base and
shows the cells of all regions. -/
theorem flatten_cases {fill : Int} (hlow : 0 ≤ fill) (hhigh : fill ≤ 0xFF) {regions : List Region}
    (hregions : regions ≠ []) (hdata : ∀ r ∈ regions, r.data ≠ []) :
    (Apart regions ∧ ∃ base image, flatten regions fill = .ok (base, image) ∧
        (regions.map Region.base).min? = some base ∧ image ≠ [] ∧
        Shows (UInt8.ofNat fill.toNat) (regions.flatMap cells) base image) ∨
      ¬ Apart regions ∧
        ∃ base first last, flatten regions fill = .error (.overlap base first last) := by
  have hperm := ordered_perm regions
  have hsorted := pairwise_ordered regions
  rw [← apart_ordered, flatten]
  -- sorting keeps the regions, so what holds of the sorted row holds of the given one
  cases hordered : ordered regions with
  | nil =>
    rw [hordered] at hperm
    exact absurd hperm.nil_eq.symm hregions
  | cons r rest =>
    rw [hordered] at hperm hsorted
    have hmem : ∀ s ∈ r :: rest, s.data ≠ [] := fun s hs => hdata s (hperm.mem_iff.1 hs)
    rcases layOut_cases hlow hhigh hsorted fun s hs => hmem s (List.mem_cons_of_mem _ hs)
      with ⟨hapart, above, habove, hshows⟩ | ⟨hapart, base, first, last, hlast⟩
    · refine .inl ⟨hapart, r.base, r.data ++ above, ?_, ?_, ?_, ?_⟩
      · dsimp only
        rw [habove]
        rfl
      · -- the first of the sorted regions is a lowest one
        rw [List.min?_eq_some_iff]
        constructor
        · exact List.mem_map_of_mem (hperm.mem_iff.1 List.mem_cons_self)
        · intro base hbase
          obtain ⟨s, hs, rfl⟩ := List.mem_map.1 hbase
          rcases List.mem_cons.1 (hperm.mem_iff.2 hs) with rfl | hs
          · exact le_refl _
          · exact (List.pairwise_cons.1 hsorted).1 s hs
      · exact fun h => hmem r List.mem_cons_self (List.append_eq_nil_iff.1 h).1
      · refine (Shows.data hshows).congr fun c => ?_
        exact (hperm.flatMap_right cells).mem_iff.symm
    · refine .inr ⟨hapart, base, first, last, ?_⟩
      dsimp only
      rw [hlast]
      rfl

end Region

/-! ### Addresses of emissions -/

/-- An origin in a parsed program lies in the address space. -/
theorem Statement.moveTo_bounds {pass : Pass} {m : Machine} {items : List Item}
    (hitems : ∀ i ∈ items, i.Genuine) {line address : Int}
    (h : effect pass m items = .ok (.moveTo line address)) : 0 ≤ address ∧ address ≤ 0xFFFF := by
  rcases effect_cases items with ⟨head, rest, hinstruction⟩ | hplain
  · rw [hinstruction.effect_eq] at h
    -- an instruction emits or reports, but never moves the counter
    rcases outcome_cases h with ⟨data, -, he⟩ | ⟨d, -, he⟩
    · cases he
    · cases he
  · rw [hplain] at h
    obtain ⟨head, operand, rfl, -, -, hkind, hfits, rfl⟩ := plainEffect_eq_moveTo (Except.ok.inj h)
    exact (hitems operand (List.mem_cons_of_mem _ List.mem_cons_self)).number_fits hkind hfits

namespace Walk

/-- The counter and all emissions lie in the address space, and no emission is discarded. This is what
every stop of a walk keeps. -/
structure InSpace (w : Walk) : Prop where
  counter : 0 ≤ w.machine.address ∧ w.machine.address ≤ 0xFFFF
  emissions : ∀ e ∈ w.emissions.toList, 0 ≤ e.address ∧ e.address ≤ 0xFFFF
  standing : ∀ e ∈ w.emissions.toList, e.standing = .accepted

/-- A stop of a parsed program does not leave the address space. -/
theorem InSpace.act {pass : Pass} {w w' : Walk} (hw : w.InSpace) {s : Stop} (hs : s.Genuine)
    (hact : w.act pass s = .ok w') : w'.InSpace := by
  -- only an origin sets the counter, and only an instruction adds an emission
  cases s with
  | label item =>
    cases hact
    refine ⟨?_, ?_, ?_⟩
    · rw [bind_machine]
      cases pass <;> exact hw.counter
    · rw [bind_emissions]
      exact hw.emissions
    · rw [bind_emissions]
      exact hw.standing
  | statement items =>
    obtain ⟨e, he, rfl⟩ := act_statement_iff.1 hact
    cases hs with
    | statement hitems =>
      cases e with
      | emit location data =>
        -- the counter wraps behind the bytes, which start at the counter
        have hsplit : ∀ e ∈ (w.apply pass (.emit location data)).emissions.toList,
            e ∈ w.emissions.toList ∨
              e.address = w.machine.address ∧ e.standing = .accepted := by
          intro e he
          change e ∈ (w.emissions.push _).toList at he
          rw [Array.toList_push, List.mem_append, List.mem_singleton] at he
          rcases he with he | rfl
          · exact .inl he
          · exact .inr ⟨rfl, rfl⟩
        refine ⟨?_, fun e he => ?_, fun e he => ?_⟩
        · change 0 ≤ (w.machine.address + data.length) % addressSpace ∧
            (w.machine.address + data.length) % addressSpace ≤ 0xFFFF
          unfold addressSpace
          omega
        · rcases hsplit e he with he | ⟨he, -⟩
          · exact hw.emissions e he
          · rw [he]
            exact hw.counter
        · rcases hsplit e he with he | ⟨-, he⟩
          · exact hw.standing e he
          · exact he
      | moveTo line address =>
        have hemissions : (w.apply pass (.moveTo line address)).emissions = w.emissions := by
          cases pass <;> rfl
        refine ⟨Statement.moveTo_bounds hitems he, ?_, ?_⟩
        · rw [hemissions]
          exact hw.emissions
        · rw [hemissions]
          exact hw.standing
      | report d =>
        refine ⟨?_, ?_, ?_⟩
        · rw [apply_machine]
          exact hw.counter
        · rw [apply, report_emissions]
          exact hw.emissions
        · rw [apply, report_emissions]
          exact hw.standing
      | nothing => exact hw
      | choose cpu => exact ⟨hw.counter, hw.emissions, hw.standing⟩

/-- **A walk over a parsed program stays in the address space**: emitting wraps the counter, and an origin
outside the space is refused. -/
theorem InSpace.along {pass : Pass} {w w' : Walk} (hw : w.InSpace) {stops : List Stop}
    (hstops : ∀ s ∈ stops, s.Genuine) (halong : w.along pass stops = .ok w') : w'.InSpace :=
  along_induction halong hw fun s hs _ _ hu hact => hu.act (hstops s hs) hact

end Walk

/-! ### The image of an assembly -/

/-- The stages of a run that gives an assembly. -/
theorem assemble_stages {settings : Settings} {source file : String} {a : Assembly}
    (h : assemble settings source file = .ok a) :
    ∃ tokens,
      tokenize source (if file = "" then settings.file else file) = .ok tokens ∧
      ∃ p : Passes { address := settings.origin, cpu := settings.cpu }
          (parse (if file = "" then settings.file else file) tokens).items,
        a.emissions = p.listing.emissions ∧ a.regions = Region.bundle p.listing.emissions ∧
        a.problems = byLine
          ((parse (if file = "" then settings.file else file) tokens).reports ++ p.listing.reports) ∧
        a.symbols = p.listing.machine.symbols ∧ a.fill = settings.fill := by
  unfold assemble at h
  dsimp only at h
  rw [bind_eq_ok_iff] at h
  obtain ⟨tokens, htokens, h⟩ := h
  obtain ⟨p⟩ := Passes.exists_passes
    (m := { address := settings.origin, cpu := settings.cpu }) rfl
    (if file = "" then settings.file else file) tokens
  rw [p.assemble_eq] at h
  cases h
  exact ⟨tokens, htokens, p, rfl, rfl, rfl, rfl, rfl⟩

/-- The same, whatever the name of the source is. -/
theorem assemble_eq_ok {settings : Settings} {source file : String} {a : Assembly}
    (h : assemble settings source file = .ok a) :
    ∃ name tokens,
      tokenize source name = .ok tokens ∧
      ∃ p : Passes { address := settings.origin, cpu := settings.cpu } (parse name tokens).items,
        a.emissions = p.listing.emissions ∧ a.regions = Region.bundle p.listing.emissions ∧
        a.problems = byLine ((parse name tokens).reports ++ p.listing.reports) ∧
        a.symbols = p.listing.machine.symbols ∧ a.fill = settings.fill := by
  obtain ⟨tokens, htokens, hstages⟩ := assemble_stages h
  exact ⟨_, tokens, htokens, hstages⟩

/-- The addresses that the bytes of some emissions occupy. -/
def occupied (emissions : List Emission) : Set Int :=
  { x | ∃ j i b, Occupies emissions j i x b }

/-- The image from a base on holds, from the lowest occupied address to the highest, the byte that
occupies an address, or the fill if none does. -/
structure IsImage (emissions : List Emission) (fill : UInt8) (base : Int) (image : List UInt8) :
    Prop where
  lowest : IsLeast (occupied emissions) base
  highest : ∃ top, IsGreatest (occupied emissions) top ∧ (image.length : Int) = top - base + 1
  byte : ∀ k < image.length, ∀ j i b, Occupies emissions j i (base + k) b → image[k]? = some b
  blank : ∀ k < image.length, base + (k : Int) ∉ occupied emissions → image[k]? = some fill

/-- An image that starts with a cell and shows the cells of some emissions. -/
theorem Shows.isImage {emissions : List Emission} {fill : UInt8} {base : Int}
    {image : List UInt8} (hshows : Shows fill (emissions.flatMap Emission.cells) base image)
    (hbase : base ∈ occupied emissions) (himage : image ≠ []) :
    IsImage emissions fill base image where
  lowest := by
    refine ⟨hbase, ?_⟩
    rintro x ⟨j, i, b, h⟩
    exact (hshows.bounds _ (mem_cells_iff.2 ⟨j, i, h⟩)).1
  highest := by
    obtain ⟨⟨top, b⟩, hc, hlast⟩ := hshows.last himage
    obtain ⟨j, i, h⟩ := mem_cells_iff.1 hc
    refine ⟨top, ⟨⟨j, i, b, h⟩, ?_⟩, by dsimp only at hlast; omega⟩
    rintro x ⟨j, i, b, h⟩
    have hbounds := (hshows.bounds _ (mem_cells_iff.2 ⟨j, i, h⟩)).2
    dsimp only at hbounds hlast
    omega
  byte k _ j i b h := hshows.byte _ (mem_cells_iff.2 ⟨j, i, h⟩) k rfl
  blank k hk hfree := by
    refine hshows.blank k hk fun c hc heq => hfree ?_
    obtain ⟨j, i, h⟩ := mem_cells_iff.1 hc
    rw [← heq]
    exact ⟨j, i, c.2, h⟩

/-- All that an assembly emits stands, in the address space if it starts there, and is bundled into its
regions. -/
theorem Assembly.emissions_spec {settings : Settings} {source file : String} {a : Assembly}
    (hlow : 0 ≤ settings.origin) (hhigh : settings.origin ≤ 0xFFFF)
    (hrun : assemble settings source file = .ok a) :
    a.regions = Region.bundle a.emissions ∧ Region.outputs a.emissions = a.emissions ∧
      ∀ e ∈ Region.outputs a.emissions, 0 ≤ e.address ∧ e.address ≤ 0xFFFF := by
  obtain ⟨name, tokens, -, p, hemissions, hregions, -⟩ := assemble_eq_ok hrun
  have hspace : p.final.InSpace :=
    Walk.InSpace.along (w := { machine := _ }) ⟨⟨hlow, hhigh⟩, nofun, nofun⟩
      (fun s hs => Stop.genuine_of_mem_ofItems hs) p.final_along
  -- nothing is discarded in a final walk, so all emissions are put out
  have houtputs : Region.outputs p.listing.emissions = p.listing.emissions := by
    refine List.filter_eq_self.2 fun e he => ?_
    rw [hspace.standing e he]
    rfl
  rw [hemissions, hregions]
  refine ⟨rfl, houtputs, ?_⟩
  rw [houtputs]
  exact hspace.emissions

/-- The regions of an assembly that starts in the address space have bytes, and all of them there. -/
theorem Assembly.placed_regions {settings : Settings} {source file : String} {a : Assembly}
    (hlow : 0 ≤ settings.origin) (hhigh : settings.origin ≤ 0xFFFF)
    (hrun : assemble settings source file = .ok a) : ∀ r ∈ a.regions, r.Placed := by
  obtain ⟨hregions, -, hplaced⟩ := emissions_spec hlow hhigh hrun
  rw [hregions]
  exact Region.placed_bundle hplaced

/-- The regions of an assembly that starts in the address space hold the cells of its emissions,
and every region has bytes. -/
theorem Assembly.regions_spec {settings : Settings} {source file : String} {a : Assembly}
    (hlow : 0 ≤ settings.origin) (hhigh : settings.origin ≤ 0xFFFF)
    (hrun : assemble settings source file = .ok a) :
    a.regions.flatMap Region.cells = a.emissions.flatMap Emission.cells ∧
      ∀ r ∈ a.regions, r.data ≠ [] := by
  obtain ⟨hregions, houtputs, hplaced⟩ := emissions_spec hlow hhigh hrun
  refine ⟨?_, fun r hr => (placed_regions hlow hhigh hrun r hr).data_ne_nil⟩
  rw [hregions, Region.cells_bundle hplaced, houtputs]

/-- The base of a region is occupied. -/
theorem base_mem_occupied {emissions : List Emission} {regions : List Region}
    (hcells : regions.flatMap Region.cells = emissions.flatMap Emission.cells)
    {r : Region} (hr : r ∈ regions) (hdata : r.data ≠ []) : r.base ∈ occupied emissions := by
  obtain ⟨b, hb⟩ := Region.exists_cell_base hdata
  have hc : (r.base, b) ∈ emissions.flatMap Emission.cells := by
    rw [← hcells]
    exact List.mem_flatMap.2 ⟨r, hr, hb⟩
  obtain ⟨j, i, h⟩ := mem_cells_iff.1 hc
  exact ⟨j, i, b, h⟩

/-- Regions with bytes are there exactly if an address is occupied. -/
theorem occupied_nonempty_iff {emissions : List Emission} {regions : List Region}
    (hcells : regions.flatMap Region.cells = emissions.flatMap Emission.cells)
    (hdata : ∀ r ∈ regions, r.data ≠ []) : (occupied emissions).Nonempty ↔ regions ≠ [] := by
  constructor
  · rintro ⟨x, j, i, b, h⟩ rfl
    have hc := mem_cells_iff.2 ⟨j, i, h⟩
    rw [← hcells] at hc
    cases hc
  · intro hne
    obtain ⟨r, hr⟩ := List.exists_mem_of_ne_nil _ hne
    exact ⟨r.base, base_mem_occupied hcells hr (hdata r hr)⟩

/-- **The memory image of a source.** A run without problems that starts in the address space, with
a fill that is a byte, has an image exactly if no two of its bytes occupy the same address; otherwise
the overlap is the fault. The image starts at the lowest occupied address and ends at the highest;
a run that emits nothing has the empty image at zero. -/
theorem Assembly.code_isImage {settings : Settings} {source file : String} {a : Assembly}
    (horigin : 0 ≤ settings.origin ∧ settings.origin ≤ 0xFFFF)
    (hfill : 0 ≤ settings.fill ∧ settings.fill ≤ 0xFF)
    (hrun : assemble settings source file = .ok a) (hok : a.ok = true) :
    ((∃ base first last, a.code = .error (.overlap base first last)) ↔ Collide a.emissions) ∧
      (¬ Collide a.emissions → (occupied a.emissions).Nonempty →
        ∃ image, a.code = .ok image ∧
          IsImage a.emissions (UInt8.ofNat settings.fill.toNat) a.origin image) ∧
      (¬ (occupied a.emissions).Nonempty → a.origin = 0 ∧ a.code = .ok []) := by
  obtain ⟨hcells, hdata⟩ := Assembly.regions_spec horigin.1 horigin.2 hrun
  obtain ⟨-, -, -, -, -, -, -, -, hfilled⟩ := assemble_eq_ok hrun
  -- cells connect both sides: regions are apart if their cells are, and these are the emissions' cells
  have hcode : a.code = (Region.flatten a.regions settings.fill).map Prod.snd := by
    rw [Assembly.code, if_pos hok, hfilled]
  have happart : Region.Apart a.regions ↔ ¬ Collide a.emissions := by
    rw [Region.Apart, hcells, nodup_cells_iff]
  rw [occupied_nonempty_iff hcells hdata, hcode]
  by_cases hregions : a.regions = []
  · -- without regions nothing is occupied, and nothing can collide
    have hfree : ¬ Collide a.emissions := by
      rw [← happart, hregions]
      exact List.nodup_nil
    have hflatten : Region.flatten a.regions settings.fill = .ok (0, []) := by
      rw [hregions, Region.flatten, Region.ordered, List.mergeSort_nil]
    rw [hflatten]
    refine ⟨⟨?_, fun h => absurd h hfree⟩, fun _ h => absurd hregions h, fun _ => ⟨?_, rfl⟩⟩
    · rintro ⟨base, first, last, h⟩
      cases h
    · rw [Assembly.origin, hregions]
      rfl
  · rcases Region.flatten_cases hfill.1 hfill.2 hregions hdata
      with ⟨hapart, base, image, hflatten, hmin, hne, hshows⟩ | ⟨hapart, base, first, last, hflatten⟩
    · have hfree := happart.1 hapart
      have hbase : a.origin = base := by
        rw [Assembly.origin, hmin]
        rfl
      rw [hflatten]
      refine ⟨⟨?_, fun h => absurd h hfree⟩, fun _ _ => ⟨image, rfl, ?_⟩,
        fun h => absurd hregions h⟩
      · rintro ⟨base, first, last, h⟩
        cases h
      · rw [hcells] at hshows
        rw [hbase]
        obtain ⟨r, hr, rfl⟩ := List.mem_map.1 (List.min?_eq_some_iff.1 hmin).1
        exact hshows.isImage (base_mem_occupied hcells hr (hdata r hr)) hne
    · have hcollide : Collide a.emissions := by
        by_contra hfree
        exact hapart (happart.2 hfree)
      rw [hflatten]
      exact ⟨⟨fun _ => hcollide, fun _ => ⟨base, first, last, rfl⟩⟩,
        fun h => absurd hcollide h, fun h => absurd hregions h⟩

/-- Two regions with a gap between them: the gap holds the fill. -/
theorem Assembly.code_isImage_gap :
    ∃ a, assemble { fill := 0xEE } "ORG 2\nNOP\nORG 5\nRET" = .ok a ∧ a.ok = true ∧
      ¬ Collide a.emissions ∧ a.code = .ok [0x00, 0xEE, 0xEE, 0xC9] ∧
      IsImage a.emissions 0xEE 2 [0x00, 0xEE, 0xEE, 0xC9] := by
  have hvalue : (assemble { fill := 0xEE } "ORG 2\nNOP\nORG 5\nRET").toOption.map
      (fun a => (a.ok, a.origin, a.regions, a.fill)) =
        some (true, 2, [⟨2, [0x00]⟩, ⟨5, [0xC9]⟩], 0xEE) := by
    decide +kernel
  obtain ⟨a, hrun, hvalue⟩ := exists_ok_of_toOption hvalue
  simp only [Prod.mk.injEq] at hvalue
  obtain ⟨hok, horigin, hregions, hfill⟩ := hvalue
  have hordered : Region.ordered [⟨2, [0x00]⟩, ⟨5, [0xC9]⟩] = [⟨2, [0x00]⟩, ⟨5, [0xC9]⟩] := by
    simp [Region.ordered, List.mergeSort]
  have hcode : a.code = .ok [0x00, 0xEE, 0xEE, 0xC9] := by
    rw [Assembly.code, if_pos hok, hregions, hfill, Region.flatten, hordered]
    rfl
  obtain ⟨hoverlap, himage, hempty⟩ :=
    Assembly.code_isImage ⟨by decide, by decide⟩ ⟨by decide, by decide⟩ hrun hok
  have hfree : ¬ Collide a.emissions := by
    intro hcollide
    obtain ⟨base, first, last, h⟩ := hoverlap.2 hcollide
    rw [h] at hcode
    cases hcode
  have hoccupied : (occupied a.emissions).Nonempty := by
    by_contra hnone
    rw [(hempty hnone).2] at hcode
    cases hcode
  obtain ⟨image, hok', hisImage⟩ := himage hfree hoccupied
  rw [hok'] at hcode
  cases hcode
  rw [horigin] at hisImage
  exact ⟨a, hrun, hok, hfree, hok', hisImage⟩

end CrossAssembler
