import SectorChain.Block
import SectorChain.FreeMap

/-!
# File headers

A file is a header in a sector of its own and a chain of blocks. The header gives the length of
the file, the number of its blocks and the first of them; block `i` of the chain holds the bytes
from `i * data` on, where `data` is what one block holds.

Results:
* `ofWords?_words`: a header reads back from its own words.
-/

namespace SectorChain

/-- `FileHeader`: the header of a file. Length and number of blocks fit into 31 bits. -/
@[ext] structure Header where
  length : Nat
  blocks : Nat
  first : Link
  length_lt : length < 0x80000000
  blocks_lt : blocks < 0x80000000
  deriving DecidableEq

namespace Header

/-- `new`: the header of a file without a byte. -/
def empty : Header := ⟨0, 0, .endOfChain, by decide, by decide⟩

/-! ## Stored headers -/

/-- The bytes of a stored header. -/
def encode (h : Header) : Bytes :=
  Bytes.ofWord (UInt32.ofNat h.length) ++ Bytes.ofWord (UInt32.ofNat h.blocks) ++ h.first.encode

/-- The words of a stored header: length, number of blocks, first block. -/
def decode (bytes : Bytes) : Except RecordError (UInt32 × UInt32 × Link) := do
  let (length, rest) ← Record.takeWord bytes
  let (blocks, rest) ← Record.takeWord rest
  let (first, _) ← Link.take rest
  return (length, blocks, first)

/-- The header with these words; none if length or number of blocks is negative as a signed
number. -/
def ofWords? (length blocks : UInt32) (first : Link) : Option Header :=
  if h : length.toNat < 0x80000000 ∧ blocks.toNat < 0x80000000 then
    some ⟨length.toNat, blocks.toNat, first, h.1, h.2⟩
  else none

theorem ofWords?_words (h : Header) :
    ofWords? (UInt32.ofNat h.length) (UInt32.ofNat h.blocks) h.first = some h := by
  have hl : h.length % 2 ^ 32 = h.length := Nat.mod_eq_of_lt (Nat.lt_trans h.length_lt (by decide))
  have hb : h.blocks % 2 ^ 32 = h.blocks := Nat.mod_eq_of_lt (Nat.lt_trans h.blocks_lt (by decide))
  simp only [ofWords?, UInt32.toNat_ofNat', hl, hb, h.length_lt, h.blocks_lt, and_self, dite_true]

/-- `fetch_from`: read the header in a sector. -/
def fetch (sector : Nat) : DriveM Header := do
  let bytes ← Drive.readSector sector
  let (length, blocks, first) ← Drive.decoded (decode bytes)
  match ofWords? length blocks first with
  | some h => return h
  | none => Drive.corrupt (.notHeader sector)

/-- `write_back`: write the header to a sector, with zeros behind it. -/
def store (h : Header) (sector : Nat) : DriveM Unit := do
  Drive.writeSector sector (Bytes.fit (← Drive.sectorSize) h.encode)

/-! ## Walking the chain -/

/-- The sectors from `current` on, which must be as many as are left of the `blocks` of the
chain. -/
def walk (blocks : Nat) : (left : Nat) → (current : Option Nat) → DriveM (List Nat)
  | 0, none => return []
  | 0, some _ => Drive.corrupt (.chainTooLong blocks)
  | left + 1, none => Drive.corrupt (.chainTooShort (blocks - (left + 1)) blocks)
  | left + 1, some sector => do
    let block ← Block.fetch sector
    return sector :: (← walk blocks left block.next)

/-- `chain`: the sectors of the chain, in its order. -/
def chain (h : Header) : DriveM (List Nat) := walk h.blocks h.blocks h.first.target

/-- The block `hops` further down the chain, where `block` is number `index` of `blocks`. -/
def follow (blocks : Nat) : (hops index : Nat) → (block : Block) → DriveM Block
  | 0, _, block => return block
  | hops + 1, index, block =>
    match block.next with
    | none => Drive.corrupt (.chainTooShort (index + 1) blocks)
    | some next => do follow blocks hops (index + 1) (← Block.fetch next)

/-- `block_at`: the block that holds the byte at `offset`. Every block up to it is read once. -/
def blockAt (h : Header) (offset : Nat) : DriveM Block := do
  let index := offset / (← Drive.dataSize)
  if h.blocks ≤ index then
    Drive.corrupt (.pastChain offset h.blocks)
  else match h.first.target with
    | none => Drive.corrupt (.noFirstBlock h.length)
    | some first => do follow h.blocks index 0 (← Block.fetch first)

/-- `byte_to_sector_and_next_sector`: the sector of the block that holds the byte at `offset`, and
the sector of the next one. -/
def sectorAt (h : Header) (offset : Nat) : DriveM (Nat × Option Nat) := do
  let block ← h.blockAt offset
  return (block.sector, block.next)

/-! ## Space -/

/-- The loop of `allocate`: claim `count` sectors and chain them behind `prev`, each new block
written before the next sector is claimed. The search for a free sector goes on behind `prev`,
before which none is free, and so finds what `find_and_set` finds (`grow_eq_growFirst`). A new block
holds `data` zeros, as `prev` does. Sectors stay claimed in the map when a write fails. -/
def grow (data : Nat) : (count : Nat) → (prev : Option Block) → FreeMap →
    DriveM (FreeMap × Except VolumeError Unit)
  | 0, _, m => return (m, .ok ())
  | count + 1, prev, m =>
    match m.freeFrom? (prev.elim 0 (·.sector + 1)) with
    | none => return (m, .error (.corrupt .noneToClaim))
    | some sector => do
      let m := m.mark sector
      let block : Block :=
        match prev with
        | some prev => { prev with sector, next := none }
        | none => { sector, next := none, data := Bytes.zeros data }
      let written ← Drive.attempt do
        if let some prev := prev then ({ prev with next := some sector } : Block).store
        block.store
      match written with
      | .ok () => grow data count (some block) m
      | .error e => return (m, .error e)

/-- `allocate`: a new file of `size` zero bytes, which is a chain of the first free sectors, in
their order. Without room for all of it nothing is claimed or written. The answer has the map as it
is then, also when a write fails. -/
def allocate (m : FreeMap) (size : Nat) : DriveM (FreeMap × Except VolumeError Header) := do
  let data ← Drive.dataSize
  let blocks := Layout.blocksFor size data
  if h : size < 0x80000000 ∧ blocks < 0x80000000 then
    if m.numFree < blocks then
      return (m, .error .outOfSpace)
    else
      let first := if blocks = 0 then none else m.leastFree?
      let (m, grown) ← grow data blocks none m
      match grown with
      | .ok () =>
        Drive.note (.allocated size blocks first)
        return (m, .ok ⟨size, blocks, .ofOption first, h.1, h.2⟩)
      | .error e => return (m, .error e)
  else return (m, .error .outOfSpace)

/-- `deallocate`: free all blocks of the file in a map. All of them must be in use before the first
of them is freed. -/
def deallocate (h : Header) : UpdateM FreeMap Unit := do
  let chain ← h.chain
  let m ← UpdateM.lent
  match chain.find? (!m.isUsed ·) with
  | some sector => (Drive.corrupt (.freeBlock sector) : DriveM Unit)
  | none =>
    Drive.note (.released chain)
    UpdateM.put (chain.foldl FreeMap.clear m)

/-- A map of one's own with all blocks of the file free. -/
def release (h : Header) (m : FreeMap) : DriveM FreeMap := return (← h.deallocate.on m).2

theorem release_eq (h : Header) (m : FreeMap) : h.release m = do
    let chain ← h.chain
    match chain.find? (!m.isUsed ·) with
    | some sector => Drive.corrupt (.freeBlock sector)
    | none =>
      Drive.note (.released chain)
      return chain.foldl FreeMap.clear m := by
  simp only [release, deallocate, UpdateM.on_bind, UpdateM.on_lift, UpdateM.on_lent, bind_assoc,
    pure_bind]
  refine bind_congr fun chain => ?_
  cases chain.find? (!m.isUsed ·) with
  | some sector => rfl
  | none => simp

/-! ## Reports -/

/-- A line for each block of the chain: its data as far as `left` bytes of the file reach. -/
def contentLines : (left : Nat) → (chain : List Nat) → DriveM (List String)
  | _, [] => return []
  | left, sector :: rest => do
    let block ← Block.fetch sector
    let line := Bytes.escaped Bytes.isPlain (block.data.take left)
    return line :: (← contentLines (left - block.data.length) rest)

/-- `describe`: the header, its chain and the content of the file, for people. -/
def describe (h : Header) : DriveM String := do
  let chain ← h.chain
  let content ← contentLines h.length chain
  let lines := [s!"FileHeader contents.  File size: {h.length}.  File blocks:",
    " ".intercalate (chain.map toString), "File contents:"] ++ content
  return String.join (lines.map (· ++ "\n"))

end Header

end SectorChain
