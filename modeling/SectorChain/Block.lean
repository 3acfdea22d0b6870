import SectorChain.Drive
import SectorChain.Link

/-!
# Blocks

A block fills one sector: the link to its own sector, the link to the next block of the chain,
and data. The first link is a check: a block found in another sector than its own is refused.
-/

namespace SectorChain

/-- `Block`: one block of a chain. -/
structure Block where
  sector : Nat
  next : Option Nat
  data : Bytes
  deriving DecidableEq, Repr

namespace Block

/-- The bytes of the sector that holds the block. -/
def encode (b : Block) : Bytes :=
  (Link.ofSector b.sector).encode ++ (Link.ofOption b.next).encode ++ b.data

/-- The block in the bytes of a sector: the link to its own sector, and the rest. -/
def decode (bytes : Bytes) : Except RecordError (Link × Link × Bytes) := do
  let (own, rest) ← Link.take bytes
  let (next, data) ← Link.take rest
  return (own, next, data)

/-- `fetch_from`: read the block of a sector. -/
def fetch (sector : Nat) : DriveM Block := do
  let bytes ← Drive.readSector sector
  let (own, next, data) ← Drive.decoded (decode bytes)
  if own.target = some sector then
    return { sector, next := next.target, data }
  else Drive.corrupt (.misplaced sector own.value)

/-- `write_back`: write the block to its sector. -/
def store (b : Block) : DriveM Unit := do
  Drive.note (.blockWrite b.sector b.next)
  Drive.writeSector b.sector b.encode

/-- The encoded block reads back as its links and its data. -/
theorem decode_encode (b : Block) :
    decode b.encode = .ok (Link.ofSector b.sector, Link.ofOption b.next, b.data) := by
  unfold decode encode
  rw [List.append_assoc, Link.take_encode]
  show (do
    let (next, data) ← Link.take ((Link.ofOption b.next).encode ++ b.data)
    return (Link.ofSector b.sector, next, data)) = _
  rw [Link.take_encode]
  rfl

end Block

end SectorChain
