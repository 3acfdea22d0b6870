import SectorChain.Header

/-!
# Open files

A handle is an open file: its header, read once when the file was opened, the sector of the
header, and the position of the next sequential access. Reads and writes stop at the end of the
file, whose length never changes.
-/

namespace SectorChain

/-- `OpenFile`: an open file. -/
structure Handle where
  header : Header
  sector : Nat
  position : Nat := 0
  deriving DecidableEq

namespace Handle

open UpdateM (lent put within)

/-- `open`: open the file whose header is in `sector`. -/
def fetch (sector : Nat) : DriveM Handle := return { header := ← Header.fetch sector, sector }

/-- `length`: the length of the file. -/
def length (f : Handle) : Nat := f.header.length

/-- `seek`: the next access starts at `position`, which may lie past the end. -/
def seek (f : Handle) (position : Nat) : Handle := { f with position }

/-- The bytes from the position to the end. -/
def remaining (f : Handle) : Nat := f.length - f.position

/-- `clamp_request`: how many of `count` bytes from `pos` on are in a file of `length` bytes; none
if it is 0. -/
def clamp? (count pos length : Nat) : Option Nat :=
  if count = 0 ∨ length ≤ pos then none else some (min count (length - pos))

/-- How many blocks hold `count` bytes from `pos` on, where `count` is not 0. -/
def span (count pos data : Nat) : Nat := (pos + count - 1) / data - pos / data + 1

/-- The data of `count` blocks from number `i` on. -/
def readBlocks (f : Handle) (data : Nat) : (count i : Nat) → DriveM Bytes
  | 0, _ => return []
  | count + 1, i => do
    let block ← f.header.blockAt (i * data)
    return block.data ++ (← readBlocks f data count (i + 1))

/-- Up to `count` bytes from `pos` on. -/
def readAt (f : Handle) (count pos : Nat) : DriveM Bytes := do
  match clamp? count pos f.length with
  | none => return []
  | some n =>
    Drive.note (.reading n pos f.length)
    let data ← Drive.dataSize
    let bytes ← f.readBlocks data (span n pos data) (pos / data)
    return (bytes.drop (pos % data)).take n

/-- `read_at`: fill the front of a buffer with as many bytes from `pos` on as it has room for, and
answer their number. The bytes are gathered from all blocks before the first of them goes to the
buffer. -/
def fill (f : Handle) (pos : Nat) : UpdateM Bytes Nat := do
  let buffer ← lent
  let bytes ← f.readAt buffer.length pos
  put (Bytes.splice buffer 0 bytes)
  return bytes.length

/-- Read into a buffer of one's own: the number of bytes that were read, and the buffer then. -/
def readInto (f : Handle) (buffer : Bytes) (pos : Nat) : DriveM (Nat × Bytes) :=
  (f.fill pos).on buffer

theorem readInto_eq (f : Handle) (buffer : Bytes) (pos : Nat) : f.readInto buffer pos = do
    let bytes ← f.readAt buffer.length pos
    return (bytes.length, Bytes.splice buffer 0 bytes) := by
  simp [readInto, fill]

/-- Write the bytes from `pos` on, which fall into `count` blocks. What a block holds before and
behind them stays. -/
def writeBlocks (f : Handle) (data : Nat) : (count : Nat) → Bytes → (pos : Nat) → DriveM Unit
  | 0, _, _ => return ()
  | count + 1, bytes, pos => do
    let block ← f.header.blockAt (pos / data * data)
    let room := data - pos % data
    let written := Bytes.splice block.data (pos % data) (bytes.take room)
    ({ block with data := written } : Block).store
    writeBlocks f data count (bytes.drop room) (pos + room)

/-- `write_at`: write as many of the bytes from `pos` on as the file has room for, and answer their
number. -/
def writeAt (f : Handle) (bytes : Bytes) (pos : Nat) : DriveM Nat := do
  match clamp? bytes.length pos f.length with
  | none => return 0
  | some n =>
    Drive.note (.writing n pos f.length)
    let data ← Drive.dataSize
    f.writeBlocks data (span n pos data) (bytes.take n) pos
    return n

/-- `read`: fill a buffer at the position, which moves behind what was read. -/
def readOn : UpdateM (Handle × Bytes) Nat := do
  let (f, _) ← lent
  let n ← within Prod.snd (fun (f, _) buffer => (f, buffer)) (f.fill f.position)
  let (f, buffer) ← lent
  put (f.seek (f.position + n), buffer)
  return n

/-- `write`: write at the position, which moves behind what was written. -/
def writeOn (bytes : Bytes) : UpdateM Handle Nat := do
  let f ← lent
  let n ← f.writeAt bytes f.position
  put (f.seek (f.position + n))
  return n

/-- Read up to `count` bytes with a handle of one's own: the bytes, and the handle then. -/
def read (f : Handle) (count : Nat) : DriveM (Bytes × Handle) := do
  let (n, f, buffer) ← readOn.on (f, Bytes.zeros count)
  return (buffer.take n, f)

/-- Write with a handle of one's own: the number of bytes that were written, and the handle then. -/
def write (f : Handle) (bytes : Bytes) : DriveM (Nat × Handle) := (writeOn bytes).on f

theorem readOn_on (f : Handle) (buffer : Bytes) : readOn.on (f, buffer) = do
    let (n, buffer) ← f.readInto buffer f.position
    return (n, f.seek (f.position + n), buffer) := by
  simp [readOn, readInto]

theorem read_eq (f : Handle) (count : Nat) : f.read count = do
    let bytes ← f.readAt count f.position
    return (bytes, f.seek (f.position + bytes.length)) := by
  simp [read, readOn_on, readInto_eq, Bytes.splice]

theorem write_eq (f : Handle) (bytes : Bytes) : f.write bytes = do
    let n ← f.writeAt bytes f.position
    return (n, f.seek (f.position + n)) := by
  simp [write, writeOn]

end Handle

/-! ## Stored free maps -/

namespace FreeMap

/-- `fetch_from`: the free map of `size` sectors in an open file. -/
def fetch (f : Handle) (size : Nat) : DriveM FreeMap := do
  let bytes ← f.readAt (Layout.freeMapSize size) 0
  let m := FreeMap.ofBytes size bytes
  Drive.note (.freeMapLoaded bytes.length m.numFree)
  return m

/-- `write_back`: write the free map to an open file, as much of it as the file has room for. -/
def store (m : FreeMap) (f : Handle) : DriveM Unit :=
  discard (f.writeAt (m.firstBytes (min m.stored f.length)) 0)

end FreeMap

end SectorChain
