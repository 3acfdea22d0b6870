import SectorChain.Error
import SectorChain.Image
import SectorChain.Memory

/-!
# Devices

A device (`BlockDevice`) is a row of sectors of one size that are read and written whole. It keeps
them one after the other in memory (`MemDisk`), or in an image file (`FileDisk`) that others may
have cut short or made longer, or nowhere at all: a sink reads as zeros and forgets what is written.

An access to an image file seeks first, so it moves the cursor of the file. `readSector` and
`writeSector` are given the cursor and answer it with everything else. What they answer apart from
it does not depend on it: this is what `read` and `put` are.

Results:
* `readSector_fst`, `writeSector_fst`: the cursor before an access does not matter.
-/

namespace SectorChain

/-- Where the sectors of a device are kept. -/
inductive Medium where
  /-- In one row of bytes, sector by sector. -/
  | memory (data : Memory)
  /-- In a file, sector by sector from its start on. -/
  | image (img : Image)
  /-- Nowhere. `blank` is one sector of zeros, made when it is first read. -/
  | sink (blank : Thunk Bytes)

/-- A row of `sectors` sectors of `sectorSize` bytes. -/
structure Device where
  sectors : Nat
  sectorSize : Nat
  medium : Medium

namespace Device

/-- A device in memory, all zeros (`MemDisk`, `new`). -/
def blank (sectors sectorSize : Nat) : Device :=
  ⟨sectors, sectorSize, .memory (.blank (sectors * sectorSize))⟩

/-- A device that reads as zeros everywhere and forgets what is written. -/
def sink (sectors sectorSize : Nat) : Device :=
  ⟨sectors, sectorSize, .sink (Thunk.mk fun _ => Bytes.zeros sectorSize)⟩

/-- The geometry of the device, for people. -/
def describe (d : Device) : String := s!"BlockDevice({d.sectors} x {d.sectorSize} bytes)"

/-- A request must name a sector of the device and bring a buffer of one whole sector
(`check_request`). The sector is looked at first. -/
def check (d : Device) (sector : Nat) (length : Nat) : Except IoError Unit :=
  if sector < d.sectors then
    if length = d.sectorSize then .ok () else .error (.partialSector length d.sectorSize)
  else .error (.outOfRange sector d.sectors)

/-- A request to write must pass the check; a sink takes everything. -/
def checkWrite (d : Device) (sector : Nat) (new : Bytes) : Except IoError Unit :=
  match d.medium with
  | .sink _ => .ok ()
  | _ => d.check sector new.length

/-- The offset at which a sector begins. -/
def start (d : Device) (sector : Nat) : Nat := sector * d.sectorSize

/-- `read_sector`: the sector, read into a buffer of `length` bytes. In memory it is copied from a
slice of the row; in a file it is what follows a seek. -/
def readSector (d : Device) (sector length cursor : Nat) : Except IoError Bytes × Nat :=
  match d.medium with
  | .memory data =>
    match d.check sector length with
    | .error e => (.error e, cursor)
    | .ok () => (.ok (data.slice (d.start sector) d.sectorSize), cursor)
  | .image img =>
    match d.check sector length with
    | .error e => (.error e, cursor)
    | .ok () =>
      match ((⟨img, cursor⟩ : ImageFile).seek (d.start sector)).readExact length with
      | (some bytes, file) => (.ok bytes, file.cursor)
      | (none, file) => (.error .imageTooShort, file.cursor)
  | .sink blank => (.ok (if length = d.sectorSize then blank.get else Bytes.zeros length), cursor)

/-- `write_sector`: the device with `new` in the sector. In memory it is copied into a slice of the
row; in a file it is written behind a seek. -/
def writeSector (d : Device) (sector : Nat) (new : Bytes) (cursor : Nat) :
    Except IoError Device × Nat :=
  match d.checkWrite sector new with
  | .error e => (.error e, cursor)
  | .ok () =>
    match d.medium with
    | .memory data =>
      (.ok { d with medium := .memory (data.patch (d.start sector) new) }, cursor)
    | .image img =>
      let file := ((⟨img, cursor⟩ : ImageFile).seek (d.start sector)).writeAll new
      (.ok { d with medium := .image file.image }, file.cursor)
    | .sink _ => (.ok d, cursor)

/-! ## Accesses without the cursor -/

/-- What a read answers. -/
def read (d : Device) (sector length : Nat) : Except IoError Bytes :=
  (d.readSector sector length 0).1

/-- The device with `new` in the sector, of which it is the right length. An image that ends before
the sector grows. -/
def put (d : Device) (sector : Nat) (new : Bytes) : Device :=
  match d.medium with
  | .memory data => { d with medium := .memory (data.patch (d.start sector) new) }
  | .image img => { d with medium := .image (img.write (d.start sector) new) }
  | .sink _ => d

/-- The sector as it is now; nothing if it cannot be read. -/
def sector? (d : Device) (sector : Nat) : Option Bytes := (d.read sector d.sectorSize).toOption

/-- **What a read answers** does not depend on the cursor before it. -/
theorem readSector_fst (d : Device) (sector length cursor : Nat) :
    (d.readSector sector length cursor).1 = d.read sector length := by
  obtain ⟨sectors, size, medium⟩ := d
  cases medium with
  | memory data =>
    unfold read readSector
    dsimp only
    split <;> rfl
  | image img =>
    unfold read readSector ImageFile.readExact ImageFile.seek
    dsimp only
    split
    · rfl
    · cases img.read? (start _ sector) length <;> rfl
  | sink blank => rfl

/-- **What a write leaves**, if it passes the check, is the device with the bytes in the sector. -/
theorem writeSector_fst (d : Device) (sector : Nat) (new : Bytes) (cursor : Nat) :
    (d.writeSector sector new cursor).1 =
      (d.checkWrite sector new).map fun _ => d.put sector new := by
  obtain ⟨sectors, size, medium⟩ := d
  unfold writeSector put
  cases checkWrite _ sector new with
  | error e => rfl
  | ok _ => cases medium <;> rfl

/-- The device is large enough for a volume (`check_geometry`): a sector holds a file header, and a
link with at least one byte of data behind it. -/
def checkGeometry (d : Device) : Except IoError Unit :=
  if d.sectorSize ≤ Layout.linkSize ∨ d.sectorSize < Layout.headerSize then
    .error (.sectorTooSmall d.sectorSize)
  else .ok ()

/-! ## Image files -/

/-- A device on the bytes of an image file, if the file exists, and whether the image is fresh
(`FileDisk`, `open`): the file is new or too short, and was made long enough. -/
def ofImage (file : Option Image) (sectors sectorSize : Nat) : Device × Bool :=
  let needed := sectors * sectorSize
  let found := file.getD .empty
  let fresh := file.isNone || found.size < needed
  (⟨sectors, sectorSize, .image (if fresh then found.resize needed else found)⟩, fresh)

/-- The image file under the device. -/
def image? (d : Device) : Option Image :=
  match d.medium with
  | .image img => some img
  | _ => none

end Device

end SectorChain
