import CrossAssembler.Fault
import CrossAssembler.Program.Walk

/-!
# Regions of output

Emitted bytes that follow each other in memory form a region. `bundle` groups emissions, in order of
statements, into regions of greatest length; an emission that runs past the end of the address space
goes on at address zero. `flatten` lays regions out in one image, lowest address first, and fills
the gaps between them.
-/

namespace CrossAssembler

/-- A block of bytes at consecutive addresses. -/
structure Region where
  /-- The address of the first byte. -/
  base : Int
  data : List UInt8
  deriving DecidableEq, Repr

namespace Region

/-- The address just past the last byte. -/
def finish (r : Region) : Int :=
  r.base + r.data.length

/-! ### Grouping emissions -/

/-- Position `n` in a row of the given length; a negative one counts from the end. -/
def cutAt (n : Int) (length : Nat) : Nat :=
  if 0 ≤ n then n.toNat else length - n.natAbs

/-- Bytes laid from address zero on, as often round the address space as they need. -/
def wrapAround : List UInt8 → List Region
  | [] => []
  | b :: bs =>
    ⟨0, (b :: bs).take 0x10000⟩ :: wrapAround ((b :: bs).drop 0x10000)
termination_by bs => bs.length
decreasing_by
  simp only [List.length_drop, List.length_cons]
  omega

/-- The blocks that bytes at an address fall into: those in front of the end of the address space
stay together, the others go on at address zero. Nothing comes of no bytes. -/
def blocks (address : Int) (data : List UInt8) : List Region :=
  if data.isEmpty then []
  else
    let room := cutAt (addressSpace - address) data.length
    ⟨address, data.take room⟩ :: wrapAround (data.drop room)

/-- A block in front of some regions: it is joined to the first of them if that one starts where
the block ends. -/
def prepend (block : Region) : List Region → List Region
  | [] => [block]
  | r :: rest =>
    if block.finish = r.base then ⟨block.base, block.data ++ r.data⟩ :: rest
    else block :: r :: rest

/-- The emissions that count as output: those that are not discarded. -/
def outputs (emissions : List Emission) : List Emission :=
  emissions.filter fun e => e.standing != .discarded

/-- The blocks of all output. -/
def allBlocks (emissions : List Emission) : List Region :=
  (outputs emissions).flatMap fun e => blocks e.address e.data

/-- Emissions grouped into regions, in order of statements. -/
def bundle (emissions : List Emission) : List Region :=
  (allBlocks emissions).foldr prepend []

/-! ### Laying regions out -/

/-- Regions by rising base; regions with the same base keep their order. -/
def ordered (regions : List Region) : List Region :=
  regions.mergeSort fun r s => r.base ≤ s.base

/-- A gap of some bytes. Only a gap that is there needs a fill that is a byte. -/
def gap (fill : Int) (count : Nat) : Except Fault (List UInt8) :=
  if count = 0 then .ok []
  else if 0 ≤ fill ∧ fill ≤ 0xFF then .ok (List.replicate count (UInt8.ofNat fill.toNat))
  else .error .fillOutOfRange

/-- The bytes behind a region: a gap and the next region, to the last one. -/
def layOut (fill : Int) (below : Region) : List Region → Except Fault (List UInt8)
  | [] => .ok []
  | r :: rest => do
    if r.base < below.finish then
      throw (.overlap r.base below.base (below.finish - 1))
    let filling ← gap fill (r.base - below.finish).toNat
    let above ← layOut fill r rest
    return filling ++ r.data ++ above

/-- The image of some regions and its base. -/
def flatten (regions : List Region) (fill : Int := 0xFF) : Except Fault (Int × List UInt8) :=
  match ordered regions with
  | [] => .ok (0, [])
  | r :: rest => do
    let above ← layOut fill r rest
    return (r.base, r.data ++ above)

end Region

end CrossAssembler
