import CrossAssembler.Region
import Mathlib.Data.List.Nodup

/-!
# Cells of emissions and regions

A *cell* is an address with the byte that stands there. An emission that runs past the end of the
address space goes on at address zero, so its cells are those of its bytes counted on from its
address, taken modulo the size of the space. Regions never run past the end: their cells are counted
plainly.

* **Blocks** (`Region.cells_blocks`): cutting an emission into blocks keeps its cells, in order.
* **Bundling** (`Region.cells_bundle`): joining blocks keeps their cells, so the regions of a bundle
  hold the cells of its emissions, in order of statements; and every region has bytes and lies in the
  address space (`Region.placed_bundle`).
* **Bytes** (`Region.data_bundle`): so do the bytes, also of emissions outside the address space.
* **Occupation** (`nodup_cells_iff`): the cells of some emissions have distinct addresses exactly if
  no two bytes, told apart by their emission and their position in it, occupy the same address.
-/

namespace CrossAssembler

/-! ### Cells -/

/-- Bytes with their addresses, counted on from an address. -/
def cellsFrom (base : Int) : List UInt8 → List (Int × UInt8)
  | [] => []
  | b :: bs => (base, b) :: cellsFrom (base + 1) bs

@[simp] theorem cellsFrom_nil (base : Int) : cellsFrom base [] = [] := rfl

theorem cellsFrom_append (base : Int) (front back : List UInt8) :
    cellsFrom base (front ++ back) =
      cellsFrom base front ++ cellsFrom (base + front.length) back := by
  -- one byte in front moves the base of the others by one
  induction front generalizing base with
  | nil => simp
  | cons b front ih =>
    rw [List.cons_append, cellsFrom, cellsFrom, ih, List.cons_append, List.length_cons]
    have hbase : base + 1 + (front.length : Int) = base + ((front.length + 1 : Nat) : Int) := by
      omega
    rw [hbase]

theorem getElem?_cellsFrom (base : Int) (data : List UInt8) (i : Nat) :
    (cellsFrom base data)[i]? = data[i]?.map fun b => (base + i, b) := by
  induction data generalizing base i with
  | nil => simp
  | cons b data ih =>
    cases i with
    | zero => simp [cellsFrom]
    | succ i =>
      have hbase : base + 1 + (i : Int) = base + ((i + 1 : Nat) : Int) := by
        omega
      rw [cellsFrom, List.getElem?_cons_succ, List.getElem?_cons_succ, ih, hbase]

/-- A cell is a byte at its distance from the base. -/
theorem mem_cellsFrom {base : Int} {data : List UInt8} {c : Int × UInt8} :
    c ∈ cellsFrom base data ↔ ∃ i : Nat, data[i]? = some c.2 ∧ c.1 = base + i := by
  rw [List.mem_iff_getElem?]
  constructor
  · rintro ⟨i, hi⟩
    rw [getElem?_cellsFrom, Option.map_eq_some_iff] at hi
    obtain ⟨b, hb, rfl⟩ := hi
    exact ⟨i, hb, rfl⟩
  · rintro ⟨i, hi, hc⟩
    refine ⟨i, ?_⟩
    rw [getElem?_cellsFrom, hi, Option.map_some, ← hc]

theorem bounds_of_mem_cellsFrom {base : Int} {data : List UInt8} {c : Int × UInt8}
    (hc : c ∈ cellsFrom base data) : base ≤ c.1 ∧ c.1 < base + data.length := by
  obtain ⟨i, hi, hc⟩ := mem_cellsFrom.1 hc
  have hlt : i < data.length := (List.getElem?_eq_some_iff.1 hi).1
  omega

/-- Every address of the range is the address of a cell. -/
theorem exists_mem_cellsFrom {base a : Int} {data : List UInt8} (hbase : base ≤ a)
    (ha : a < base + data.length) : ∃ b, (a, b) ∈ cellsFrom base data := by
  have hlt : (a - base).toNat < data.length := by omega
  refine ⟨data[(a - base).toNat], mem_cellsFrom.2 ⟨(a - base).toNat, ?_, ?_⟩⟩
  · exact List.getElem?_eq_getElem hlt
  · dsimp only
    omega

/-- The addresses of consecutive bytes are distinct. -/
theorem nodup_cellsFrom (base : Int) (data : List UInt8) :
    ((cellsFrom base data).map Prod.fst).Nodup := by
  induction data generalizing base with
  | nil => exact List.nodup_nil
  | cons b data ih =>
    rw [cellsFrom, List.map_cons, List.nodup_cons]
    refine ⟨fun hmem => ?_, ih (base + 1)⟩
    -- the bytes behind stand strictly above the first one
    obtain ⟨c, hc, hbase⟩ := List.mem_map.1 hmem
    have := (bounds_of_mem_cellsFrom hc).1
    omega

/-- A cell brought into the address space. -/
def wrapped (c : Int × UInt8) : Int × UInt8 :=
  (c.1 % addressSpace, c.2)

theorem map_wrapped_eq_self {base : Int} {data : List UInt8} (hbase : 0 ≤ base)
    (hfinish : base + data.length ≤ addressSpace) :
    (cellsFrom base data).map wrapped = cellsFrom base data := by
  refine (List.map_congr_left fun c hc => ?_).trans (List.map_id _)
  have hbounds := bounds_of_mem_cellsFrom hc
  -- bytes inside the space are not moved by wrapping
  have hmod : c.1 % addressSpace = c.1 := Int.emod_eq_of_lt (by omega) (by omega)
  exact Prod.ext hmod rfl

/-- Cells one turn round the address space further on are the same. -/
theorem map_wrapped_turn (base : Int) (data : List UInt8) :
    (cellsFrom (base + addressSpace) data).map wrapped = (cellsFrom base data).map wrapped := by
  induction data generalizing base with
  | nil => rfl
  | cons b data ih =>
    have hbase : base + addressSpace + 1 = base + 1 + addressSpace := by omega
    rw [cellsFrom, cellsFrom, List.map_cons, List.map_cons, hbase, ih]
    congr 1
    exact Prod.ext (Int.add_emod_right ..) rfl

/-- The cells of an emission. -/
def Emission.cells (e : Emission) : List (Int × UInt8) :=
  (cellsFrom e.address e.data).map wrapped

namespace Region

/-- The cells of a region. -/
def cells (r : Region) : List (Int × UInt8) :=
  cellsFrom r.base r.data

/-- A region with bytes, all of them in the address space. -/
structure Placed (r : Region) : Prop where
  data_ne_nil : r.data ≠ []
  base_nonneg : 0 ≤ r.base
  finish_le : r.finish ≤ addressSpace

/-! ### Blocks -/

theorem length_take_le (n : Nat) (data : List UInt8) : (data.take n).length ≤ n := by
  rw [List.length_take]
  exact Nat.min_le_left _ _

/-- Bytes laid round the address space from zero on keep their cells. -/
theorem cells_wrapAround (data : List UInt8) :
    (wrapAround data).flatMap cells = (cellsFrom 0 data).map wrapped := by
  fun_induction wrapAround data with
  | case1 => rfl
  | case2 b bs ih =>
    -- the first turn lies in the space, so its cells need no wrapping
    have hfront : (cellsFrom 0 ((b :: bs).take 0x10000)).map wrapped =
        cellsFrom 0 ((b :: bs).take 0x10000) := by
      refine map_wrapped_eq_self (Int.le_refl 0) ?_
      have := length_take_le 0x10000 (b :: bs)
      unfold addressSpace
      omega
    have hcut : cellsFrom 0 (b :: bs) = cellsFrom 0 ((b :: bs).take 0x10000) ++
        cellsFrom (0 + ((b :: bs).take 0x10000).length) ((b :: bs).drop 0x10000) := by
      rw [← cellsFrom_append, List.take_append_drop]
    rw [List.flatMap_cons, ih, hcut, List.map_append, hfront]
    congr 1
    -- a second turn begins only if the first one is full
    by_cases hfull : 0x10000 ≤ (b :: bs).length
    · rw [List.length_take, Nat.min_eq_left hfull]
      exact (map_wrapped_turn 0 _).symm
    · rw [List.drop_eq_nil_of_le (by omega)]
      rfl

theorem placed_wrapAround (data : List UInt8) : ∀ r ∈ wrapAround data, r.Placed := by
  fun_induction wrapAround data with
  | case1 => exact nofun
  | case2 b bs ih =>
    intro r hr
    rcases List.mem_cons.1 hr with rfl | hr
    · refine ⟨nofun, Int.le_refl 0, ?_⟩
      have := length_take_le 0x10000 (b :: bs)
      unfold finish addressSpace
      dsimp only
      omega
    · exact ih r hr

/-- The room in front of the end of the address space. -/
theorem cutAt_room {address : Int} (haddress : address ≤ 0xFFFF) (length : Nat) :
    (cutAt (addressSpace - address) length : Int) = addressSpace - address := by
  unfold cutAt addressSpace
  rw [if_pos (by omega)]
  omega

/-- **Cutting an emission into blocks keeps its cells.** The first block ends with the address space, and what
is left over is laid round the space from address zero. -/
theorem cells_blocks {address : Int} (hlow : 0 ≤ address) (hhigh : address ≤ 0xFFFF)
    (data : List UInt8) :
    (blocks address data).flatMap cells = (cellsFrom address data).map wrapped := by
  cases data with
  | nil => rfl
  | cons b bs =>
    have hroom := cutAt_room hhigh (b :: bs).length
    change (Region.mk address ((b :: bs).take _) :: wrapAround ((b :: bs).drop _)).flatMap cells = _
    -- the room up to the end of the space is all that matters of the cut
    generalize cutAt (addressSpace - address) (b :: bs).length = room at hroom ⊢
    have hfront : (cellsFrom address ((b :: bs).take room)).map wrapped =
        cellsFrom address ((b :: bs).take room) := by
      refine map_wrapped_eq_self hlow ?_
      have := length_take_le room (b :: bs)
      omega
    have hcut : cellsFrom address (b :: bs) = cellsFrom address ((b :: bs).take room) ++
        cellsFrom (address + ((b :: bs).take room).length) ((b :: bs).drop room) := by
      rw [← cellsFrom_append, List.take_append_drop]
    rw [List.flatMap_cons, cells_wrapAround, hcut, List.map_append, hfront]
    congr 1
    -- what is cut off begins one turn behind address zero
    by_cases hfull : room ≤ (b :: bs).length
    · have hbase : address + (((b :: bs).take room).length : Int) = 0 + addressSpace := by
        rw [List.length_take, Nat.min_eq_left hfull, hroom]
        omega
      rw [hbase, map_wrapped_turn]
    · rw [List.drop_eq_nil_of_le (by omega)]
      rfl

theorem placed_blocks {address : Int} (hlow : 0 ≤ address) (hhigh : address ≤ 0xFFFF)
    (data : List UInt8) : ∀ r ∈ blocks address data, r.Placed := by
  cases data with
  | nil => exact nofun
  | cons b bs =>
    have hroom := cutAt_room hhigh (b :: bs).length
    change ∀ r ∈ Region.mk address ((b :: bs).take _) :: wrapAround ((b :: bs).drop _), r.Placed
    generalize cutAt (addressSpace - address) (b :: bs).length = room at hroom ⊢
    intro r hr
    rcases List.mem_cons.1 hr with rfl | hr
    · have hpos : 0 < room := by
        unfold addressSpace at hroom
        omega
      refine ⟨?_, hlow, ?_⟩
      · dsimp only
        rw [Ne, List.take_eq_nil_iff]
        rintro (h | h)
        · omega
        · cases h
      · have := length_take_le room (b :: bs)
        unfold finish
        dsimp only
        omega
    · exact placed_wrapAround _ r hr

/-! ### Bundling -/

theorem cells_prepend (block : Region) (regions : List Region) :
    (prepend block regions).flatMap cells = block.cells ++ regions.flatMap cells := by
  cases regions with
  | nil => rfl
  | cons r rest =>
    rw [prepend]
    split
    -- a block that touches the next region: the bytes of both are counted through
    next hjoin =>
      rw [List.flatMap_cons, List.flatMap_cons, ← List.append_assoc]
      congr 1
      unfold cells
      rw [cellsFrom_append, ← hjoin]
      rfl
    · rfl

theorem Placed.prepend {block : Region} (hblock : block.Placed) {regions : List Region}
    (hregions : ∀ r ∈ regions, r.Placed) : ∀ r ∈ prepend block regions, r.Placed := by
  cases regions with
  | nil =>
    intro r hr
    rw [List.mem_singleton.1 hr]
    exact hblock
  | cons first rest =>
    rw [Region.prepend]
    split
    next hjoin =>
      intro r hr
      rcases List.mem_cons.1 hr with rfl | hr
      · -- the joined region ends where the second one does
        have hfirst := hregions first List.mem_cons_self
        refine ⟨fun h => hblock.data_ne_nil (List.append_eq_nil_iff.1 h).1, hblock.base_nonneg, ?_⟩
        have hfinish : block.base + block.data.length = first.base := hjoin
        have hend := hfirst.finish_le
        unfold finish at hend ⊢
        dsimp only
        rw [List.length_append]
        push_cast
        omega
      · exact hregions r (List.mem_cons_of_mem _ hr)
    · intro r hr
      rcases List.mem_cons.1 hr with rfl | hr
      · exact hblock
      · exact hregions r hr

theorem cells_foldr_prepend (blocks : List Region) :
    (blocks.foldr prepend []).flatMap cells = blocks.flatMap cells := by
  induction blocks with
  | nil => rfl
  | cons block blocks ih => rw [List.foldr_cons, cells_prepend, ih, List.flatMap_cons]

theorem placed_foldr_prepend {blocks : List Region} (hblocks : ∀ r ∈ blocks, r.Placed) :
    ∀ r ∈ blocks.foldr prepend [], r.Placed := by
  induction blocks with
  | nil => exact nofun
  | cons block blocks ih =>
    rw [List.foldr_cons]
    exact (hblocks block List.mem_cons_self).prepend
      (ih fun r hr => hblocks r (List.mem_cons_of_mem _ hr))

/-- **Bundling keeps every cell**, in order of statements. An emission that starts outside the address space
would be cut elsewhere, so all of them have to start inside. -/
theorem cells_bundle {emissions : List Emission}
    (hplaced : ∀ e ∈ outputs emissions, 0 ≤ e.address ∧ e.address ≤ 0xFFFF) :
    (bundle emissions).flatMap cells = (outputs emissions).flatMap Emission.cells := by
  rw [bundle, cells_foldr_prepend, allBlocks, List.flatMap_assoc]
  refine List.flatMap_congr fun e he => ?_
  obtain ⟨hlow, hhigh⟩ := hplaced e he
  exact cells_blocks hlow hhigh e.data

theorem placed_bundle {emissions : List Emission}
    (hplaced : ∀ e ∈ outputs emissions, 0 ≤ e.address ∧ e.address ≤ 0xFFFF) :
    ∀ r ∈ bundle emissions, r.Placed := by
  refine placed_foldr_prepend fun r hr => ?_
  obtain ⟨e, he, hr⟩ := List.mem_flatMap.1 hr
  obtain ⟨hlow, hhigh⟩ := hplaced e he
  exact placed_blocks hlow hhigh e.data r hr

/-! ### Bytes

Wherever the emissions stand, in the address space or outside, no byte is lost and none is added. -/

theorem data_wrapAround (bytes : List UInt8) : (wrapAround bytes).flatMap data = bytes := by
  fun_induction wrapAround bytes with
  | case1 => rfl
  | case2 b bs ih => rw [List.flatMap_cons, ih, List.take_append_drop]

theorem data_blocks (address : Int) (bytes : List UInt8) :
    (blocks address bytes).flatMap data = bytes := by
  cases bytes with
  | nil => rfl
  | cons b bs =>
    change (b :: bs).take _ ++ (wrapAround ((b :: bs).drop _)).flatMap data = _
    rw [data_wrapAround, List.take_append_drop]

theorem data_prepend (block : Region) (regions : List Region) :
    (prepend block regions).flatMap data = block.data ++ regions.flatMap data := by
  cases regions with
  | nil => rfl
  | cons r rest =>
    rw [prepend]
    split
    · exact List.append_assoc _ _ _
    · rfl

/-- **Bundling keeps every byte**, in order of statements. What is left out are the emissions that do not
count as output, and no byte of the others. -/
theorem data_bundle (emissions : List Emission) :
    (bundle emissions).flatMap data = (outputs emissions).flatMap Emission.data := by
  have hfold : ∀ blocks : List Region,
      (blocks.foldr prepend []).flatMap data = blocks.flatMap data := by
    intro blocks
    induction blocks with
    | nil => rfl
    | cons block blocks ih => rw [List.foldr_cons, data_prepend, ih, List.flatMap_cons]
  rw [bundle, hfold, allBlocks, List.flatMap_assoc]
  exact List.flatMap_congr fun e _ => data_blocks e.address e.data

end Region

/-! ### Occupation -/

/-- Byte `i` of emission `j` is `b` and occupies address `a`. -/
def Occupies (emissions : List Emission) (j i : Nat) (a : Int) (b : UInt8) : Prop :=
  ∃ e, emissions[j]? = some e ∧ e.data[i]? = some b ∧ (e.address + i) % addressSpace = a

/-- Two bytes, of different emissions or at different positions of one, occupy the same address. -/
def Collide (emissions : List Emission) : Prop :=
  ∃ j i j' i' a b b', (j, i) ≠ (j', i') ∧ Occupies emissions j i a b ∧
    Occupies emissions j' i' a b'

theorem Emission.getElem?_cells (e : Emission) (i : Nat) :
    e.cells[i]? = e.data[i]?.map fun b => ((e.address + i) % addressSpace, b) := by
  rw [cells, List.getElem?_map, getElem?_cellsFrom, Option.map_map]
  rfl

/-- The cells of some emissions are what their bytes occupy. -/
theorem mem_cells_iff {emissions : List Emission} {a : Int} {b : UInt8} :
    (a, b) ∈ emissions.flatMap Emission.cells ↔ ∃ j i, Occupies emissions j i a b := by
  constructor
  · intro h
    obtain ⟨e, he, hc⟩ := List.mem_flatMap.1 h
    obtain ⟨j, hj⟩ := List.mem_iff_getElem?.1 he
    obtain ⟨i, hi⟩ := List.mem_iff_getElem?.1 hc
    rw [Emission.getElem?_cells, Option.map_eq_some_iff] at hi
    obtain ⟨b', hb, hcell⟩ := hi
    cases hcell
    exact ⟨j, i, e, hj, hb, rfl⟩
  · rintro ⟨j, i, e, he, hb, ha⟩
    refine List.mem_flatMap.2 ⟨e, List.mem_of_getElem? he, List.mem_iff_getElem?.2 ⟨i, ?_⟩⟩
    rw [Emission.getElem?_cells, hb, Option.map_some, ha]

/-- The addresses of the cells of an emission. -/
def Emission.addresses (e : Emission) : List Int :=
  e.cells.map Prod.fst

theorem Emission.getElem?_addresses (e : Emission) (i : Nat) :
    e.addresses[i]? = e.data[i]?.map fun _ => (e.address + i) % addressSpace := by
  rw [addresses, List.getElem?_map, getElem?_cells, Option.map_map]
  rfl

theorem map_fst_cells (emissions : List Emission) :
    (emissions.flatMap Emission.cells).map Prod.fst = emissions.flatMap Emission.addresses :=
  List.map_flatMap

/-- **Cells are distinct exactly if no bytes collide.** An emission longer than the address space collides
with itself, so positions in one emission count as well. -/
theorem nodup_cells_iff (emissions : List Emission) :
    ((emissions.flatMap Emission.cells).map Prod.fst).Nodup ↔ ¬ Collide emissions := by
  -- positions of cells and bytes that occupy an address are two views of one thing
  have hoccupies : ∀ {j i : Nat} {a : Int} {e : Emission}, emissions[j]? = some e →
      e.addresses[i]? = some a → ∃ b, Occupies emissions j i a b := by
    intro j i a e he ha
    rw [Emission.getElem?_addresses, Option.map_eq_some_iff] at ha
    obtain ⟨b, hb, ha⟩ := ha
    exact ⟨b, e, he, hb, ha⟩
  have haddress : ∀ {j i : Nat} {a : Int} {b : UInt8}, Occupies emissions j i a b →
      ∃ e, emissions[j]? = some e ∧ e.addresses[i]? = some a := by
    rintro j i a b ⟨e, he, hb, ha⟩
    refine ⟨e, he, ?_⟩
    rw [Emission.getElem?_addresses, hb, Option.map_some, ha]
  rw [map_fst_cells, List.nodup_flatMap, List.pairwise_iff_getElem]
  constructor
  · rintro ⟨hone, htwo⟩ ⟨j, i, j', i', a, b, b', hne, hfirst, hsecond⟩
    obtain ⟨e, he, ha⟩ := haddress hfirst
    obtain ⟨e', he', ha'⟩ := haddress hsecond
    obtain ⟨hj, rfl⟩ := List.getElem?_eq_some_iff.1 he
    obtain ⟨hj', rfl⟩ := List.getElem?_eq_some_iff.1 he'
    have hmem := List.mem_of_getElem? ha
    have hmem' := List.mem_of_getElem? ha'
    -- either the emissions are apart, or they are one and the positions in it are
    rcases Nat.lt_trichotomy j j' with hlt | rfl | hlt
    · exact htwo j j' hj hj' hlt hmem hmem'
    · have hnodup := hone _ (List.getElem_mem hj)
      have hi : i = i' := (List.getElem?_inj (List.getElem?_eq_some_iff.1 ha).1 hnodup).1
        (ha.trans ha'.symm)
      exact hne (by rw [hi])
    · exact htwo j' j hj' hj hlt hmem' hmem
  · -- two equal addresses would be a collision, in one emission or between two
    intro hfree
    constructor
    · intro e he
      obtain ⟨j, hj⟩ := List.mem_iff_getElem?.1 he
      rw [List.nodup_iff_getElem?_ne_getElem?]
      intro i i' hlt hlength heq
      have ha := List.getElem?_eq_getElem hlength
      obtain ⟨b, hb⟩ := hoccupies hj (heq.trans ha)
      obtain ⟨b', hb'⟩ := hoccupies hj ha
      refine hfree ⟨j, i, j, i', _, b, b', ?_, hb, hb'⟩
      intro h
      cases h
      exact Nat.lt_irrefl _ hlt
    · intro j j' hj hj' hlt a ha ha'
      obtain ⟨i, hi⟩ := List.mem_iff_getElem?.1 ha
      obtain ⟨i', hi'⟩ := List.mem_iff_getElem?.1 ha'
      obtain ⟨b, hb⟩ := hoccupies (List.getElem?_eq_getElem hj) hi
      obtain ⟨b', hb'⟩ := hoccupies (List.getElem?_eq_getElem hj') hi'
      refine hfree ⟨j, i, j', i', a, b, b', ?_, hb, hb'⟩
      intro h
      cases h
      exact Nat.lt_irrefl _ hlt

end CrossAssembler
