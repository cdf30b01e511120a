import CrossAssembler.Proofs.Region.Image

/-!
# Layouts of regions

`Region.flatten` sorts regions by their base and compares neighbours only. Seen from outside it knows
no order: two regions that share an address are found wherever they stand, and otherwise every byte of
the image is told by the address it stands for.

* **Overlaps** (`Region.apart_iff_not_overlap`): the addresses of all cells are distinct exactly if no
  two regions, told apart by their positions, share one.
* **Layouts** (`Region.IsLayout`, `Region.isLayout_of_shows`): what the image of some regions holds, from
  the lowest base to the highest end. There is one layout of the same regions, whatever their order
  (`Region.IsLayout.unique`).
* **Flattening** (`Region.flatten_exact`): regions that overlap are refused, and any others are laid
  out, in every order alike.
-/

namespace CrossAssembler

namespace Region

/-! ### Overlaps -/

/-- Byte `b` of a region stands at an address. -/
def HasByte (r : Region) (x : Int) (b : UInt8) : Prop :=
  ∃ k : Nat, r.data[k]? = some b ∧ x = r.base + k

/-- A byte of a region stands at an address. -/
def Covers (r : Region) (x : Int) : Prop :=
  ∃ b, r.HasByte x b

/-- Two regions at different positions share an address. The positions are those of the list, so that a
region with bytes that is listed twice overlaps with itself. -/
def Overlap (regions : List Region) : Prop :=
  ∃ (i j : Nat) (r s : Region) (x : Int), i ≠ j ∧ regions[i]? = some r ∧ regions[j]? = some s ∧
    r.Covers x ∧ s.Covers x

theorem mem_cells {r : Region} {x : Int} {b : UInt8} : (x, b) ∈ r.cells ↔ r.HasByte x b :=
  mem_cellsFrom

/-- A region covers the addresses from its base to its end. -/
theorem covers_iff {r : Region} {x : Int} : r.Covers x ↔ r.base ≤ x ∧ x < r.finish := by
  constructor
  · rintro ⟨b, hb⟩
    exact bounds_of_mem_cellsFrom (mem_cells.2 hb)
  · rintro ⟨hlow, hhigh⟩
    obtain ⟨b, hb⟩ := exists_mem_cellsFrom hlow hhigh
    exact ⟨b, mem_cells.1 hb⟩

theorem mem_map_fst_cells {r : Region} {x : Int} : x ∈ r.cells.map Prod.fst ↔ r.Covers x := by
  rw [List.mem_map]
  constructor
  · rintro ⟨⟨x, b⟩, hb, rfl⟩
    exact ⟨b, mem_cells.1 hb⟩
  · rintro ⟨b, hb⟩
    exact ⟨(x, b), mem_cells.2 hb, rfl⟩

/-- **Cells are distinct exactly if no regions overlap.** Within one region they always are, so only bytes of
two regions can meet. -/
theorem apart_iff_not_overlap (regions : List Region) : Apart regions ↔ ¬Overlap regions := by
  rw [Apart, List.map_flatMap, List.nodup_flatMap, List.pairwise_iff_getElem]
  constructor
  · rintro ⟨-, hpairs⟩ ⟨i, j, r, s, x, hne, hi, hj, hr, hs⟩
    obtain ⟨hilt, rfl⟩ := List.getElem?_eq_some_iff.1 hi
    obtain ⟨hjlt, rfl⟩ := List.getElem?_eq_some_iff.1 hj
    -- distinctness speaks of the earlier region first, an overlap of any two positions
    rcases Nat.lt_or_gt_of_ne hne with hlt | hgt
    · exact hpairs i j hilt hjlt hlt (mem_map_fst_cells.2 hr) (mem_map_fst_cells.2 hs)
    · exact hpairs j i hjlt hilt hgt (mem_map_fst_cells.2 hs) (mem_map_fst_cells.2 hr)
  · intro hfree
    refine ⟨fun r _ => nodup_cellsFrom r.base r.data, ?_⟩
    intro i j hi hj hlt x hx hx'
    -- two regions that share an address would be an overlap
    exact hfree ⟨i, j, _, _, x, Nat.ne_of_lt hlt, List.getElem?_eq_getElem hi,
      List.getElem?_eq_getElem hj, mem_map_fst_cells.1 hx, mem_map_fst_cells.1 hx'⟩

/-- Whether regions overlap does not depend on their order. -/
theorem overlap_congr {regions regions' : List Region} (hperm : regions'.Perm regions) :
    Overlap regions' ↔ Overlap regions := by
  have hapart : Apart regions' ↔ Apart regions :=
    (hperm.flatMap_right cells |>.map Prod.fst).nodup_iff
  rwa [apart_iff_not_overlap, apart_iff_not_overlap, not_iff_not] at hapart

/-! ### Layouts -/

/-- **The layout of some regions**: an image from the lowest base to the highest end. At every offset
it holds the byte of the one region that covers the address there, or the fill if none does. -/
structure IsLayout (fill : UInt8) (regions : List Region) (base : Int) (image : List UInt8) :
    Prop where
  lowest : IsLeast { x | ∃ r ∈ regions, r.base = x } base
  highest : IsGreatest { x | ∃ r ∈ regions, r.finish = x } (base + image.length)
  byte : ∀ (k i : Nat) (r : Region) (b : UInt8), regions[i]? = some r → r.HasByte (base + k) b →
    image[k]? = some b ∧
      ∀ (j : Nat) (s : Region), regions[j]? = some s → s.Covers (base + k) → j = i
  blank : ∀ k < image.length, (∀ r ∈ regions, ¬r.Covers (base + k)) → image[k]? = some fill

namespace IsLayout

variable {fill : UInt8} {regions regions' : List Region} {base base' : Int}
  {image image' : List UInt8}

/-- The byte at an offset that a region covers. -/
theorem getElem?_of_mem (h : IsLayout fill regions base image) {r : Region} (hr : r ∈ regions)
    {k : Nat} {b : UInt8} (hb : r.HasByte (base + k) b) : image[k]? = some b := by
  obtain ⟨i, hi⟩ := List.mem_iff_getElem?.1 hr
  exact (h.byte k i r b hi hb).1

/-- **There is one layout** of the same regions, whatever their order. So the image is known from its
specification, without a word on how it is computed. -/
theorem unique (h : IsLayout fill regions base image) (h' : IsLayout fill regions' base' image')
    (hmem : ∀ r, r ∈ regions ↔ r ∈ regions') : base = base' ∧ image = image' := by
  -- base and end are told by the set of regions, not by the row
  have hsame : ∀ f : Region → Int,
      { x | ∃ r ∈ regions, f r = x } = { x | ∃ r ∈ regions', f r = x } := by
    intro f
    ext x
    simp only [Set.mem_ofPred_eq, hmem]
  have hbase : base = base' := (hsame Region.base ▸ h.lowest).unique h'.lowest
  subst hbase
  have hlength : image.length = image'.length := by
    have hend : base + (image.length : Int) = base + image'.length :=
      (hsame Region.finish ▸ h.highest).unique h'.highest
    omega
  refine ⟨rfl, List.ext_getElem? fun k => ?_⟩
  -- inside the image a byte is told by the region there, or it is the fill
  by_cases hk : k < image.length
  · by_cases hcovered : ∃ r ∈ regions, r.Covers (base + k)
    · obtain ⟨r, hr, b, hb⟩ := hcovered
      rw [h.getElem?_of_mem hr hb, h'.getElem?_of_mem ((hmem r).1 hr) hb]
    · have hfree : ∀ r ∈ regions, ¬r.Covers (base + k) := fun r hr hc => hcovered ⟨r, hr, hc⟩
      have hfree' : ∀ r ∈ regions', ¬r.Covers (base + k) := fun r hr => hfree r ((hmem r).2 hr)
      rw [h.blank k hk hfree, h'.blank k (hlength ▸ hk) hfree']
  · rw [List.getElem?_eq_none (by omega), List.getElem?_eq_none (by omega)]

end IsLayout

/-- The last byte of a region stands in front of its end. -/
theorem covers_last {r : Region} (hr : r.data ≠ []) : r.Covers (r.finish - 1) := by
  have hpos : 0 < r.data.length := List.length_pos_iff.2 hr
  rw [covers_iff]
  unfold finish
  omega

/-- An image that starts at the lowest base and shows the cells of regions that do not overlap is their
layout. -/
theorem isLayout_of_shows {fill : UInt8} {regions : List Region} {base : Int} {image : List UInt8}
    (hdata : ∀ r ∈ regions, r.data ≠ []) (hfree : ¬Overlap regions)
    (hmin : (regions.map Region.base).min? = some base) (himage : image ≠ [])
    (hshows : Shows fill (regions.flatMap cells) base image) : IsLayout fill regions base image := by
  have hcell : ∀ {r : Region} {x : Int} {b : UInt8}, r ∈ regions → r.HasByte x b →
      (x, b) ∈ regions.flatMap cells := by
    intro r x b hr hb
    exact List.mem_flatMap.2 ⟨r, hr, mem_cells.2 hb⟩
  refine ⟨?_, ?_, ?_, ?_⟩
  · obtain ⟨hbase, hle⟩ := List.min?_eq_some_iff.1 hmin
    refine ⟨List.mem_map.1 hbase, ?_⟩
    rintro x ⟨r, hr, rfl⟩
    exact hle _ (List.mem_map_of_mem hr)
  · -- every region ends with a cell, and so does the image
    have hend : ∀ r ∈ regions, r.finish ≤ base + image.length := by
      intro r hr
      obtain ⟨b, hb⟩ := covers_last (hdata r hr)
      have := (hshows.bounds _ (hcell hr hb)).2
      dsimp only at this
      omega
    obtain ⟨⟨x, b⟩, hc, hlast⟩ := hshows.last himage
    obtain ⟨r, hr, hb⟩ := List.mem_flatMap.1 hc
    have hlt := (covers_iff.1 ⟨b, mem_cells.1 hb⟩).2
    have hle := hend r hr
    dsimp only at hlast
    refine ⟨⟨r, hr, by omega⟩, ?_⟩
    rintro y ⟨s, hs, rfl⟩
    exact hend s hs
  · intro k i r b hi hb
    refine ⟨hshows.byte _ (hcell (List.mem_of_getElem? hi) hb) k rfl, fun j s hj hs => ?_⟩
    -- a second region at this address would be an overlap
    by_contra hne
    exact hfree ⟨j, i, s, r, base + k, hne, hj, hi, hs, b, hb⟩
  · intro k hk hnone
    refine hshows.blank k hk fun c hc heq => ?_
    obtain ⟨r, hr, hb⟩ := List.mem_flatMap.1 hc
    refine hnone r hr ⟨c.2, ?_⟩
    rw [← heq]
    exact mem_cells.1 hb

/-! ### Flattening -/

/-- A computation that an overlap has stopped. -/
def StoppedByOverlap {α : Type} (x : Except Fault α) : Prop :=
  ∃ base first last, x = .error (.overlap base first last)

/-- Regions that overlap are refused, and any others have an image, which is their layout. -/
theorem flatten_layout_cases {fill : Int} (hfill : 0 ≤ fill ∧ fill ≤ 0xFF) {regions : List Region}
    (hregions : regions ≠ []) (hdata : ∀ r ∈ regions, r.data ≠ []) :
    (¬Overlap regions ∧ ∃ base image, flatten regions fill = .ok (base, image) ∧
        IsLayout (UInt8.ofNat fill.toNat) regions base image) ∨
      Overlap regions ∧ StoppedByOverlap (flatten regions fill) := by
  rcases flatten_cases hfill.1 hfill.2 hregions hdata
    with ⟨hapart, base, image, hflatten, hmin, himage, hshows⟩ | ⟨hapart, hstopped⟩
  · have hfree := (apart_iff_not_overlap regions).1 hapart
    exact .inl ⟨hfree, base, image, hflatten, isLayout_of_shows hdata hfree hmin himage hshows⟩
  · rw [apart_iff_not_overlap, not_not] at hapart
    exact .inr ⟨hapart, hstopped⟩

/-- **Flattening is exact and knows no order.** Regions with bytes, at any addresses, are refused
exactly if two of them, at different positions, share an address. Otherwise they are flattened to
their layout, filled with the fill. The same regions in another order give the same image, or are
refused alike. -/
theorem flatten_exact {fill : Int} (hfill : 0 ≤ fill ∧ fill ≤ 0xFF) {regions : List Region}
    (hregions : regions ≠ []) (hdata : ∀ r ∈ regions, r.data ≠ []) :
    (StoppedByOverlap (flatten regions fill) ↔ Overlap regions) ∧
    (¬Overlap regions → ∃ base image, flatten regions fill = .ok (base, image) ∧
      IsLayout (UInt8.ofNat fill.toNat) regions base image) ∧
    ∀ regions' : List Region, regions'.Perm regions →
      (∃ base image, flatten regions fill = .ok (base, image) ∧
        flatten regions' fill = .ok (base, image)) ∨
      StoppedByOverlap (flatten regions fill) ∧ StoppedByOverlap (flatten regions' fill) := by
  -- another order has bytes in every region too, so the two cases hold of it as well
  have hothers : ∀ regions' : List Region, regions'.Perm regions →
      (¬Overlap regions' ∧ ∃ base image, flatten regions' fill = .ok (base, image) ∧
          IsLayout (UInt8.ofNat fill.toNat) regions' base image) ∨
        Overlap regions' ∧ StoppedByOverlap (flatten regions' fill) := by
    intro regions' hperm
    refine flatten_layout_cases hfill ?_ fun r hr => hdata r (hperm.mem_iff.1 hr)
    rintro rfl
    exact hregions hperm.nil_eq.symm
  -- an overlap is one in every order, so the cases of the two orders agree
  rcases flatten_layout_cases hfill hregions hdata
    with ⟨hfree, base, image, hflatten, hlayout⟩ | ⟨hoverlap, hstopped⟩
  · refine ⟨⟨?_, fun h => absurd h hfree⟩, fun _ => ⟨base, image, hflatten, hlayout⟩, ?_⟩
    · rintro ⟨low, first, last, hstopped⟩
      rw [hflatten] at hstopped
      cases hstopped
    · intro regions' hperm
      rcases hothers regions' hperm with ⟨-, base', image', hflatten', hlayout'⟩ | ⟨hoverlap, -⟩
      · -- both images are the layout of the same regions
        obtain ⟨rfl, rfl⟩ := hlayout.unique hlayout' fun r => hperm.mem_iff.symm
        exact .inl ⟨base, image, hflatten, hflatten'⟩
      · exact absurd ((overlap_congr hperm).1 hoverlap) hfree
  · refine ⟨⟨fun _ => hoverlap, fun _ => hstopped⟩, fun h => absurd hoverlap h, ?_⟩
    intro regions' hperm
    rcases hothers regions' hperm with ⟨hfree, -⟩ | ⟨-, hstopped'⟩
    · exact absurd ((overlap_congr hperm).2 hoverlap) hfree
    · exact .inr ⟨hstopped, hstopped'⟩

/-- Two regions with a gap between them, the higher one first; and a region that reaches over its
neighbour into a third one. -/
theorem flatten_exact_gap :
    flatten [⟨5, [0xC9]⟩, ⟨2, [0x00]⟩] 0xEE = .ok (2, [0x00, 0xEE, 0xEE, 0xC9]) ∧
    IsLayout 0xEE [⟨5, [0xC9]⟩, ⟨2, [0x00]⟩] 2 [0x00, 0xEE, 0xEE, 0xC9] ∧
    flatten [⟨2, [0x00]⟩, ⟨5, [0xC9]⟩] 0xEE = .ok (2, [0x00, 0xEE, 0xEE, 0xC9]) ∧
    StoppedByOverlap (flatten [⟨3, [0x76]⟩, ⟨-1, [1, 2, 3, 4, 5]⟩, ⟨0, [0x00]⟩] 0xEE) := by
  have hvalue : flatten [⟨5, [0xC9]⟩, ⟨2, [0x00]⟩] 0xEE = .ok (2, [0x00, 0xEE, 0xEE, 0xC9]) := by
    have hordered : ordered [⟨5, [0xC9]⟩, ⟨2, [0x00]⟩] = [⟨2, [0x00]⟩, ⟨5, [0xC9]⟩] := by
      simp [ordered, List.mergeSort]
    rw [flatten, hordered]
    rfl
  have hfill : (0 : Int) ≤ 0xEE ∧ (0xEE : Int) ≤ 0xFF := by decide
  have hdata : ∀ r ∈ [(⟨5, [0xC9]⟩ : Region), ⟨2, [0x00]⟩], r.data ≠ [] := by decide
  obtain ⟨hstops, hlayout, hperm⟩ := flatten_exact hfill (List.cons_ne_nil _ _) hdata
  have hfree : ¬Overlap [⟨5, [0xC9]⟩, ⟨2, [0x00]⟩] := by
    rw [← hstops, hvalue]
    rintro ⟨base, first, last, hstopped⟩
    cases hstopped
  refine ⟨hvalue, ?_, ?_, ?_⟩
  · obtain ⟨base, image, hflatten, hisLayout⟩ := hlayout hfree
    rw [hvalue] at hflatten
    cases hflatten
    exact hisLayout
  · rcases hperm [⟨2, [0x00]⟩, ⟨5, [0xC9]⟩] (List.Perm.swap _ _ _) with
      ⟨base, image, hflatten, hflatten'⟩ | ⟨hstopped, -⟩
    · rw [hvalue] at hflatten
      cases hflatten
      exact hflatten'
    · exact absurd (hstops.1 hstopped) hfree
  · have hlong : ∀ r ∈ [(⟨3, [0x76]⟩ : Region), ⟨-1, [1, 2, 3, 4, 5]⟩, ⟨0, [0x00]⟩],
        r.data ≠ [] := by decide
    refine (flatten_exact hfill (List.cons_ne_nil _ _) hlong).1.2 ?_
    exact ⟨0, 1, _, _, 3, by decide, rfl, rfl, covers_iff.2 (by decide), covers_iff.2 (by decide)⟩

end Region

end CrossAssembler
