import CrossAssembler.Proofs.Region.Bundle
import Mathlib.Data.List.Chain

/-!
# Maximal regions

`Region.bundle` cuts emissions into blocks at the end of the address space and joins a block to the
region behind it if the two touch. The cells of the blocks say what has become of each byte. Here they
are followed to the single byte, and the joining is shown to go as far as it can.

* **Positions** (`getElem?_flatMap_bytesBefore`, `exists_bytesBefore`): a byte of a row of regions or
  emissions is told by the number of bytes in front of it, so a byte can be found again after
  regrouping.
* **Gaps** (`Region.isChain_foldr_prepend`): no region starts where the region before it ends.
* **Fewest regions** (`Region.foldr_prepend_eq_ofCells`, `Region.length_bundle_le`): the regions depend
  on the cells alone and not on the blocks that the cells come in, so no other way to cut the same
  cells into regions needs fewer.
* **Bundling** (`Region.bundle_groups`): all of it together.
-/

namespace CrossAssembler

/-! ### Positions of bytes -/

section Positions

variable {α β : Type} {f : α → List β} {rows : List α}

/-- The number of elements in front of row `j`. -/
def bytesBefore (f : α → List β) (rows : List α) (j : Nat) : Nat :=
  ((rows.take j).flatMap f).length

/-- An element of a row is found behind the elements of the rows in front. -/
theorem getElem?_flatMap_bytesBefore {j : Nat} {row : α} (hj : rows[j]? = some row) {i : Nat} {x : β}
    (hi : (f row)[i]? = some x) : (rows.flatMap f)[bytesBefore f rows j + i]? = some x := by
  obtain ⟨hlt, rfl⟩ := List.getElem?_eq_some_iff.1 hj
  have hi' : i < (f rows[j]).length := (List.getElem?_eq_some_iff.1 hi).1
  have hsplit : rows = rows.take j ++ rows[j] :: rows.drop (j + 1) := by
    rw [← List.drop_eq_getElem_cons hlt, List.take_append_drop]
  have hflat : rows.flatMap f =
      (rows.take j).flatMap f ++ (f rows[j] ++ (rows.drop (j + 1)).flatMap f) := by
    conv_lhs => rw [hsplit]
    rw [List.flatMap_append, List.flatMap_cons]
  rw [hflat, bytesBefore, List.getElem?_append_right (Nat.le_add_right _ _), Nat.add_sub_cancel_left,
    List.getElem?_append_left hi', hi]

/-- Every element of all rows is found in one of them. -/
theorem exists_bytesBefore {n : Nat} {x : β} (h : (rows.flatMap f)[n]? = some x) :
    ∃ j row i, rows[j]? = some row ∧ (f row)[i]? = some x ∧ bytesBefore f rows j + i = n := by
  -- position `n` lies in the first row, or that many elements further on in the others
  induction rows generalizing n with
  | nil => cases h
  | cons row rows ih =>
    rw [List.flatMap_cons] at h
    by_cases hn : n < (f row).length
    · rw [List.getElem?_append_left hn] at h
      exact ⟨0, row, n, rfl, h, Nat.zero_add n⟩
    · -- an element behind the first row lies in one of the others
      rw [List.getElem?_append_right (by omega)] at h
      obtain ⟨j, row', i, hj, hi, hbefore⟩ := ih h
      refine ⟨j + 1, row', i, hj, hi, ?_⟩
      have hfront : bytesBefore f (row :: rows) (j + 1) =
          (f row).length + bytesBefore f rows j := by
        unfold bytesBefore
        rw [List.take_succ_cons, List.flatMap_cons, List.length_append]
      omega

end Positions

/-- Cells are counted as the bytes are. -/
theorem bytesBefore_congr {α β γ : Type} {f : α → List β} {g : α → List γ}
    (h : ∀ a, (f a).length = (g a).length) (rows : List α) (j : Nat) :
    bytesBefore f rows j = bytesBefore g rows j := by
  unfold bytesBefore
  induction rows.take j with
  | nil => rfl
  | cons row rows ih =>
    rw [List.flatMap_cons, List.flatMap_cons, List.length_append, List.length_append, h, ih]

theorem length_cellsFrom (base : Int) (data : List UInt8) :
    (cellsFrom base data).length = data.length := by
  induction data generalizing base with
  | nil => rfl
  | cons b data ih => rw [cellsFrom, List.length_cons, List.length_cons, ih]

namespace Region

/-- **A byte of an emission lies in its region at its address**, behind as many bytes as before. -/
theorem exists_region_of_byte {emissions : List Emission}
    (hplaced : ∀ e ∈ outputs emissions, 0 ≤ e.address ∧ e.address ≤ 0xFFFF) {j i : Nat}
    {e : Emission} {b : UInt8} (hj : (outputs emissions)[j]? = some e)
    (hi : e.data[i]? = some b) :
    ∃ (q : Nat) (r : Region) (k : Nat), (bundle emissions)[q]? = some r ∧ r.data[k]? = some b ∧
      bytesBefore data (bundle emissions) q + k =
        bytesBefore Emission.data (outputs emissions) j + i ∧
      r.base + k = (e.address + i) % addressSpace := by
  -- the cells of emissions and regions are one row, in which the cell keeps its position
  have hcell : e.cells[i]? = some ((e.address + i) % addressSpace, b) := by
    rw [Emission.getElem?_cells, hi, Option.map_some]
  have hcells := getElem?_flatMap_bytesBefore hj hcell
  rw [← cells_bundle hplaced] at hcells
  obtain ⟨q, r, k, hq, hk, hbefore⟩ := exists_bytesBefore hcells
  rw [cells, getElem?_cellsFrom, Option.map_eq_some_iff] at hk
  obtain ⟨b', hb, hcell⟩ := hk
  obtain ⟨haddress, rfl⟩ := Prod.mk.inj hcell
  refine ⟨q, r, k, hq, hb, ?_, haddress⟩
  -- every byte is one cell, so counting bytes is counting cells
  have hregions : bytesBefore cells (bundle emissions) q = bytesBefore data (bundle emissions) q :=
    bytesBefore_congr (fun r : Region => length_cellsFrom r.base r.data) _ _
  have hemissions : bytesBefore Emission.cells (outputs emissions) j =
      bytesBefore Emission.data (outputs emissions) j := by
    refine bytesBefore_congr (fun e => ?_) _ _
    rw [Emission.cells, List.length_map, length_cellsFrom]
  omega

/-! ### Gaps between regions -/

/-- The second region does not start where the first one ends. -/
def Parted (r s : Region) : Prop :=
  s.base ≠ r.finish

/-- A block in front of parted regions leaves them parted: it is joined where it touches. -/
theorem isChain_prepend (block : Region) {regions : List Region} (h : regions.IsChain Parted) :
    (prepend block regions).IsChain Parted := by
  cases regions with
  | nil => exact List.isChain_singleton block
  | cons r rest =>
    rw [prepend]
    split
    next hjoin =>
      -- the joined region ends where the old one did
      have hfinish : (Region.mk block.base (block.data ++ r.data)).finish = r.finish := by
        unfold finish at hjoin ⊢
        dsimp only
        rw [List.length_append]
        push_cast
        omega
      rw [List.isChain_cons] at h ⊢
      refine ⟨fun s hs => ?_, h.2⟩
      unfold Parted
      rw [hfinish]
      exact h.1 s hs
    next hapart => exact List.isChain_cons_cons.2 ⟨fun heq => hapart heq.symm, h⟩

theorem isChain_foldr_prepend (blocks : List Region) :
    (blocks.foldr prepend []).IsChain Parted := by
  -- blocks are joined from the last to the first, each with the region behind it
  induction blocks with
  | nil => exact List.isChain_nil
  | cons block blocks ih => exact isChain_prepend block ih

/-! ### Fewest regions -/

/-- Joining bytes in two steps is joining them in one. -/
theorem prepend_append (base : Int) (front back : List UInt8) (regions : List Region) :
    prepend ⟨base, front ++ back⟩ regions =
      prepend ⟨base, front⟩ (prepend ⟨base + front.length, back⟩ regions) := by
  have hfinish : (Region.mk base (front ++ back)).finish =
      (Region.mk (base + front.length) back).finish := by
    unfold finish
    dsimp only
    rw [List.length_append]
    push_cast
    omega
  -- the front always touches the back, so only the back can be joined or not
  have hjoin : (Region.mk base front).finish = base + front.length := rfl
  cases regions with
  | nil => rw [prepend, prepend, prepend, if_pos hjoin]
  | cons r rest =>
    rw [prepend, prepend, hfinish]
    split
    · rw [prepend, if_pos hjoin, List.append_assoc]
    · rw [prepend, if_pos hjoin]

/-- The regions of some cells, each cell joined where it touches. This is the bundle taken byte by byte,
in which the borders between emissions can no longer be seen. -/
def ofCells (cells : List (Int × UInt8)) : List Region :=
  cells.foldr (fun c => prepend ⟨c.1, [c.2]⟩) []

/-- A block is joined as its cells are, one after another. -/
theorem prepend_eq_foldr {block : Region} (hblock : block.data ≠ []) (regions : List Region) :
    prepend block regions = block.cells.foldr (fun c => prepend ⟨c.1, [c.2]⟩) regions := by
  obtain ⟨base, data⟩ := block
  induction data generalizing base with
  | nil => exact absurd rfl hblock
  | cons b data ih =>
    cases data with
    | nil => rfl
    | cons b' data =>
      -- one byte is split off, and the others are a block of their own
      have hstep : prepend ⟨base, b :: b' :: data⟩ regions =
          prepend ⟨base, [b]⟩ (prepend ⟨base + 1, b' :: data⟩ regions) :=
        prepend_append base [b] (b' :: data) regions
      have hrest := ih (base + 1) (List.cons_ne_nil b' data)
      rw [hstep, hrest]
      rfl

/-- **Regions depend on cells alone**, not on the blocks that the cells come in. -/
theorem foldr_prepend_eq_ofCells {blocks : List Region} (hblocks : ∀ r ∈ blocks, r.data ≠ []) :
    blocks.foldr prepend [] = ofCells (blocks.flatMap cells) := by
  induction blocks with
  | nil => rfl
  | cons block blocks ih =>
    obtain ⟨hblock, hrest⟩ := List.forall_mem_cons.1 hblocks
    rw [List.foldr_cons, ih hrest, prepend_eq_foldr hblock, List.flatMap_cons, ofCells, ofCells,
      List.foldr_append]

theorem length_prepend_le (block : Region) (regions : List Region) :
    (prepend block regions).length ≤ regions.length + 1 := by
  cases regions with
  | nil => exact Nat.le_refl 1
  | cons r rest =>
    rw [prepend]
    split
    · exact Nat.le_succ _
    · exact Nat.le_refl _

theorem length_foldr_prepend_le (blocks : List Region) :
    (blocks.foldr prepend []).length ≤ blocks.length := by
  induction blocks with
  | nil => exact Nat.le_refl 0
  | cons block blocks ih => exact Nat.le_trans (length_prepend_le _ _) (Nat.succ_le_succ ih)

/-- **A bundle has the fewest regions**: any other regions with the same cells are at least as many. -/
theorem length_bundle_le {emissions : List Emission}
    (hplaced : ∀ e ∈ outputs emissions, 0 ≤ e.address ∧ e.address ≤ 0xFFFF) {regions : List Region}
    (hregions : ∀ r ∈ regions, r.data ≠ [])
    (hcells : regions.flatMap cells = (bundle emissions).flatMap cells) :
    (bundle emissions).length ≤ regions.length := by
  have hblocks : ∀ r ∈ allBlocks emissions, r.data ≠ [] := by
    intro r hr
    obtain ⟨e, he, hr⟩ := List.mem_flatMap.1 hr
    obtain ⟨hlow, hhigh⟩ := hplaced e he
    exact (placed_blocks hlow hhigh e.data r hr).data_ne_nil
  -- joining the other regions once more gives the bundle, and joining never adds one
  have hsame : bundle emissions = regions.foldr prepend [] :=
    calc bundle emissions
        = ofCells ((allBlocks emissions).flatMap cells) := foldr_prepend_eq_ofCells hblocks
      _ = ofCells ((bundle emissions).flatMap cells) := by rw [bundle, cells_foldr_prepend]
      _ = ofCells (regions.flatMap cells) := by rw [hcells]
      _ = regions.foldr prepend [] := (foldr_prepend_eq_ofCells hregions).symm
  rw [hsame]
  exact length_foldr_prepend_le regions

/-! ### Bundling -/

/-- **Regions that group emissions**: every region has bytes and lies in the address space; byte `i` of
an emission lies at its address, counted round the address space, in the region that holds as many
bytes in front of it; no region starts where the one before it ends, and there is no grouping of the
same cells into fewer regions. -/
structure Groups (emissions : List Emission) (regions : List Region) : Prop where
  placed : ∀ r ∈ regions, r.data ≠ [] ∧ 0 ≤ r.base ∧ r.finish ≤ 0x10000
  byte : ∀ (j : Nat) (e : Emission) (i : Nat) (b : UInt8), emissions[j]? = some e →
    e.data[i]? = some b → ∃ (q : Nat) (r : Region) (k : Nat),
      regions[q]? = some r ∧ r.data[k]? = some b ∧
      bytesBefore data regions q + k = bytesBefore Emission.data emissions j + i ∧
      r.base + k = (e.address + i) % 0x10000
  parted : regions.IsChain Parted
  fewest : ∀ regions' : List Region, (∀ r ∈ regions', r.data ≠ []) →
    regions'.flatMap cells = regions.flatMap cells → regions.length ≤ regions'.length

/-- **Bundling loses and moves no byte.** The regions of any emissions hold the bytes of those that
are not discarded, in order, wherever the emissions stand and however long they are. If these start in
the address space, the regions group them. -/
theorem bundle_groups (emissions : List Emission) :
    (bundle emissions).flatMap data = (outputs emissions).flatMap Emission.data ∧
      ((∀ e ∈ outputs emissions, 0 ≤ e.address ∧ e.address ≤ 0xFFFF) →
        Groups (outputs emissions) (bundle emissions)) := by
  refine ⟨data_bundle emissions, fun hplaced => ⟨fun r hr => ?_, ?_, ?_, ?_⟩⟩
  · obtain ⟨hdata, hbase, hfinish⟩ := placed_bundle hplaced r hr
    exact ⟨hdata, hbase, hfinish⟩
  · intro j e i b hj hi
    exact exists_region_of_byte hplaced hj hi
  · exact isChain_foldr_prepend _
  · intro regions hregions hcells
    exact length_bundle_le hplaced hregions hcells

/-- Three bytes at $FFFE, of which the last goes on at 0, and one byte that follows it there; what is
discarded between them parts nothing. -/
theorem bundle_groups_top :
    bundle [{ address := 0xFFFE, data := [0x21, 0x34, 0x12] },
        { address := 1, data := [0xFF], standing := .discarded }, { address := 1, data := [0x00] }] =
      [⟨0xFFFE, [0x21, 0x34]⟩, ⟨0, [0x12, 0x00]⟩] ∧
    Groups [{ address := 0xFFFE, data := [0x21, 0x34, 0x12] }, { address := 1, data := [0x00] }]
      [⟨0xFFFE, [0x21, 0x34]⟩, ⟨0, [0x12, 0x00]⟩] := by
  have hbundle : bundle [{ address := 0xFFFE, data := [0x21, 0x34, 0x12] },
        { address := 1, data := [0xFF], standing := .discarded }, { address := 1, data := [0x00] }] =
      [⟨0xFFFE, [0x21, 0x34]⟩, ⟨0, [0x12, 0x00]⟩] := by
    simp [bundle, allBlocks, outputs, blocks, cutAt, addressSpace, wrapAround, prepend, finish]
  have hgroups := (bundle_groups [{ address := 0xFFFE, data := [0x21, 0x34, 0x12] },
    { address := 1, data := [0xFF], standing := .discarded }, { address := 1, data := [0x00] }]).2
    (by decide)
  rw [hbundle] at hgroups
  exact ⟨hbundle, hgroups⟩

end Region

end CrossAssembler
