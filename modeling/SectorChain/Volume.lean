import SectorChain.Directory
import SectorChain.HandleTable

/-!
# Volumes

A volume is a tree of files on a device. The free map and the root directory are files themselves,
with their headers in two sectors of their own; their handles stay open while the volume is in
use. Files opened by id are kept in a table.
-/

namespace SectorChain

/-- `FileSystem`: a volume in use. -/
structure Volume where
  freeMapFile : Handle
  rootFile : Handle
  openFiles : HandleTable
  deriving DecidableEq

/-- `FileStat`: what is known of a file without reading its content. -/
structure FileStat where
  sector : Nat
  kind : Kind
  length : Nat
  chain : List Nat
  deriving DecidableEq, Repr

namespace Volume

open UpdateM (lent put within)

/-! ## Making and mounting a volume -/

/-- `check_geometry`: refuse a device whose sectors are too small for a volume. -/
def checkGeometry : DriveM Unit := do
  match (← get).device.checkGeometry with
  | .ok () => return ()
  | .error e => throw (.io e)

/-- The volume whose two reserved headers are on the device; no file is open by id. -/
def opened : DriveM Volume := do
  let freeMapFile ← Handle.fetch Layout.freeMapSector
  let rootFile ← Handle.fetch Layout.rootSector
  return { freeMapFile, rootFile, openFiles := .empty Layout.maxOpen }

/-- `format`: make an empty volume on the device, whatever was on it before; the free map, then the
root directory, each from the first free sectors on. -/
def format : DriveM Volume := do
  checkGeometry
  let sectors ← Drive.sectors
  Drive.note (.formatting sectors (← Drive.sectorSize))
  let m := ((FreeMap.empty sectors).mark Layout.freeMapSector).mark Layout.rootSector
  let (m, freeMap) ← Header.allocate m (Layout.freeMapSize sectors)
  let freeMap ← Drive.ofExcept freeMap
  let (m, root) ← Header.allocate m Layout.directorySize
  let root ← Drive.ofExcept root
  freeMap.store Layout.freeMapSector
  root.store Layout.rootSector
  let v ← opened
  m.store v.freeMapFile
  (Directory.empty Layout.directorySlots).store v.rootFile
  return v

/-- `mount`: take a volume into use that is on the device already. -/
def mount : DriveM Volume := do
  checkGeometry
  let v ← opened
  let sectors ← Drive.sectors
  if v.freeMapFile.length ≠ Layout.freeMapSize sectors then
    Drive.corrupt (.freeMapLength v.freeMapFile.length (Layout.freeMapSize sectors))
  else
    Drive.note (.mounted sectors)
    return v

/-! ## Looking at a volume -/

/-- `load_bitmap`: the free map as it is on the device. -/
def freeMap (v : Volume) : DriveM FreeMap := do FreeMap.fetch v.freeMapFile (← Drive.sectors)

/-- `root_directory`: the root directory as it is on the device. -/
def root (v : Volume) : DriveM Directory := Directory.fetch v.rootFile

/-- `free_sectors`: the number of free sectors. -/
def numFree (v : Volume) : DriveM Nat := return (← v.freeMap).numFree

/-- `open`: open the file or directory at a path. -/
def openPath (v : Volume) (path : String) : DriveM Handle := do
  Handle.fetch (← (← v.root).find path)

/-- `list`: list the directory at a path. -/
def list (v : Volume) (path : String) (recursive : Bool) : DriveM (List String) := do
  let root ← v.root
  if path = "/" then root.list recursive
  else
    let (_, dir) ← Directory.enter (← root.findEntry path) path
    dir.list recursive

/-- `stat`: what is known of the file or directory at a path. -/
def stat (v : Volume) (path : String) : DriveM FileStat := do
  let root ← v.root
  let (sector, kind) ←
    if path = "/" then pure (Layout.rootSector, Kind.directory)
    else do
      let entry ← root.findEntry path
      pure (← entry.header path, entry.kind)
  let header ← Header.fetch sector
  return { sector, kind, length := header.length, chain := ← header.chain }

/-- `print`: the free map, the root directory and all files in it, for people. -/
def print (v : Volume) : DriveM String := do
  let m ← v.freeMap
  let freeMap ← v.freeMapFile.header.describe
  let root ← v.rootFile.header.describe
  let used := ", ".intercalate (m.used.map toString)
  return "Bit map file header:\n" ++ freeMap ++ "Directory file header:\n" ++ root ++
    "Bitmap set:\n" ++ used ++ "\n" ++ (← (← v.root).print)

/-! ## Creating -/

/-- A path that may be created or removed: valid, and not the root. -/
def checkPath (path : String) (atRoot : VolumeError) : DriveM Unit := do
  Drive.ofExcept (Path.validate path)
  if path = "/" then throw atRoot

/-- `create_entry`: make a new file or directory of `size` zero bytes at a path. Its sectors are
written first, then the directories on the path, and the free map last: until then the new sectors
are free. -/
def make (v : Volume) (path : String) (kind : Kind) (size : Nat) : DriveM Unit := do
  checkPath path (.alreadyExists path)
  let m ← v.freeMap
  let root ← v.root
  match ← Drive.attempt (root.findEntry path) with
  | .ok _ => throw (.alreadyExists path)
  | .error _ =>
    match m.claim? with
    | none => throw .outOfSpace
    | some (sector, m) =>
      let (m, header) ← Header.allocate m size
      let header ← Drive.ofExcept header
      header.store sector
      if kind = .directory then
        (Directory.empty Layout.directorySlots).store (← Handle.fetch sector)
      match ← Drive.attempt (root.add path kind sector) with
      | .error e =>
        Drive.note (.rollingBack path e)
        throw e
      | .ok root =>
        root.store v.rootFile
        m.store v.freeMapFile
        Drive.note (.created kind path size sector)

/-- `create`: make a file of `size` zero bytes. Its directory must be there. -/
def create (v : Volume) (path : String) (size : Nat) : DriveM Unit := v.make path .file size

/-- `make_directory`: make an empty directory. -/
def makeDirectory (v : Volume) (path : String) : DriveM Unit :=
  v.make path .directory Layout.directorySize

/-! ## Removing -/

/-- `release_tree`: the map with the sectors of a file free, and with those of everything below it
if it is a directory. Nothing below may be open by id, and directories may not be `depth` or more
deep. -/
def releaseTree (v : Volume) : (depth : Nat) → (path : String) → Kind → (sector : Nat) → FreeMap →
    DriveM FreeMap
  | 0, path, _, _, _ => Drive.corrupt (.endlessNesting path)
  | depth + 1, path, kind, sector, m => do
    if v.openFiles.holds sector then
      Drive.note (.refusedToRemove path)
      throw (.stillOpen path)
    let m ←
      match kind with
      | .file => pure m
      | .directory => do
        let dir ← Directory.fetch (← Handle.fetch sector)
        dir.entries.foldlM (fun m e => do
          let below := Path.join path e.name
          releaseTree v depth below e.kind (← e.header below) m) m
    let m ← (← Header.fetch sector).release m
    if m.isUsed sector then return m.clear sector
    else Drive.corrupt (.freeHeader sector path)

/-- `remove`: remove the file or directory at a path; a directory that is not empty only if
`recursive`. The directories on the path are written first and the free map last: until then the
sectors of what was removed are in use. -/
def remove (v : Volume) (path : String) (recursive : Bool) : DriveM Unit := do
  checkPath path (.invalidPath path)
  let m ← v.freeMap
  let root ← v.root
  let entry ← root.findEntry path
  let sector ← entry.header path
  if entry.kind = .directory ∧ !recursive then
    let (_, dir) ← Directory.enter entry path
    if !dir.isEmpty then throw (.directoryNotEmpty path)
  let m ← v.releaseTree Directory.depthLimit path entry.kind sector m
  let root ← root.remove path
  root.store v.rootFile
  m.store v.freeMapFile
  Drive.note (.removed entry.kind path)

/-! ## Files open by id -/

/-- The volume with `f` open under `id`. -/
def setOpen (v : Volume) (id : Nat) (f : Handle) : Volume :=
  { v with openFiles := v.openFiles.set id (some f) }

/-- `open_file_id`: open the file or directory at a path; the answer is its id. -/
def openById (path : String) : UpdateM Volume Nat := do
  let f ← (← lent).openPath path
  let id ← within openFiles (fun v openFiles => { v with openFiles }) (HandleTable.addFile f)
  Drive.note (.opened path id)
  return id

/-- `read_file`: fill a buffer at the position of an open file. -/
def readById (id : Nat) : UpdateM (Volume × Bytes) Nat := do
  let (v, _) ← lent
  let f ← v.openFiles.fetch id
  within (fun (_, buffer) => (f, buffer)) (fun (v, _) (f, buffer) => (v.setOpen id f, buffer))
    Handle.readOn

/-- `write_file`: write at the position of an open file. -/
def writeById (id : Nat) (bytes : Bytes) : UpdateM Volume Nat := do
  let f ← (← lent).openFiles.fetch id
  within (fun _ => f) (·.setOpen id) (Handle.writeOn bytes)

/-- `seek_file`: move the position of an open file. -/
def seekById (id position : Nat) : UpdateM Volume Unit := do
  let v ← lent
  let f ← v.openFiles.fetch id
  put (v.setOpen id (f.seek position))

/-- `remaining_bytes`: the bytes of an open file from its position to its end. -/
def remainingId (v : Volume) (id : Nat) : DriveM Nat := return (← v.openFiles.fetch id).remaining

/-- `close_file`: close an open file. -/
def closeById (id : Nat) : UpdateM Volume Unit :=
  within openFiles (fun v openFiles => { v with openFiles }) (HandleTable.closeFile id)

/-! ### With a volume of one's own -/

/-- Open by id in a volume of one's own: the id, and the volume then. -/
def openId (v : Volume) (path : String) : DriveM (Nat × Volume) := (openById path).on v

theorem openId_eq (v : Volume) (path : String) : v.openId path = do
    let f ← v.openPath path
    let (id, openFiles) ← Drive.ofExcept (v.openFiles.insert f)
    Drive.note (.opened path id)
    return (id, { v with openFiles }) := by
  simp [openId, openById, HandleTable.addFile_on]

/-- Read up to `count` bytes by id in a volume of one's own: the bytes, and the volume then. -/
def readId (v : Volume) (id count : Nat) : DriveM (Bytes × Volume) := do
  let (n, v, buffer) ← (readById id).on (v, Bytes.zeros count)
  return (buffer.take n, v)

theorem readId_eq (v : Volume) (id count : Nat) : v.readId id count = do
    let (bytes, f) ← (← v.openFiles.fetch id).read count
    return (bytes, v.setOpen id f) := by
  simp [readId, readById, Handle.read]

/-- Write by id in a volume of one's own: the number of bytes written, and the volume then. -/
def writeId (v : Volume) (id : Nat) (bytes : Bytes) : DriveM (Nat × Volume) :=
  (writeById id bytes).on v

theorem writeId_eq (v : Volume) (id : Nat) (bytes : Bytes) : v.writeId id bytes = do
    let (n, f) ← (← v.openFiles.fetch id).write bytes
    return (n, v.setOpen id f) := by
  simp [writeId, writeById, Handle.write]

/-- Move the position of an open file in a volume of one's own. -/
def seekId (v : Volume) (id position : Nat) : DriveM Volume :=
  return (← (seekById id position).on v).2

theorem seekId_eq (v : Volume) (id position : Nat) : v.seekId id position = do
    return v.setOpen id ((← v.openFiles.fetch id).seek position) := by
  simp [seekId, seekById]

/-- Close an open file in a volume of one's own. -/
def closeId (v : Volume) (id : Nat) : DriveM Volume := return (← (closeById id).on v).2

theorem closeId_eq (v : Volume) (id : Nat) : v.closeId id = do
    return { v with openFiles := ← v.openFiles.close id } := by
  simp [closeId, closeById, HandleTable.close]

end Volume

end SectorChain
