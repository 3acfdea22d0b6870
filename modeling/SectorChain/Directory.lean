import SectorChain.Entry
import SectorChain.Path

/-!
# Directories

A directory is a table with a fixed number of slots, kept as the content of a file. A new entry
takes the first slot that is not in use. A path is followed from table to table; each directory on
the way is read anew, and written back when the table below it has changed.
-/

namespace SectorChain

/-- `Directory`: the slots of one directory. -/
structure Directory where
  slots : List Entry
  deriving DecidableEq

namespace Directory

open UpdateM (lent put)

/-- `new`: a directory of `size` slots, none in use. -/
def empty (size : Nat) : Directory := ⟨List.replicate size .blank⟩

/-- `entries`: the entries in use, in the order of their slots. -/
def entries (dir : Directory) : List Entry := dir.slots.filter Entry.inUse

/-- `is_empty`: whether no slot is in use. -/
def isEmpty (dir : Directory) : Bool := dir.entries.isEmpty

/-- `find_index`: the slot of the entry for `name`. -/
def index? (dir : Directory) (name : String) : Option Nat := dir.slots.findIdx? (Entry.isFor · name)

/-- The entry for `name`. -/
def entry? (dir : Directory) (name : String) : Option Entry := dir.slots.find? (Entry.isFor · name)

/-! ## Stored directories -/

/-- The bytes of the table. -/
def encode (dir : Directory) : Bytes := dir.slots.flatMap Entry.encode

/-- The first `count` entries of a string of bytes. -/
def decodeSlots : (count : Nat) → Bytes → Except RecordError (List Entry)
  | 0, _ => .ok []
  | count + 1, bytes => do
    let entry ← Entry.decode bytes
    return entry :: (← decodeSlots count (bytes.drop Layout.entrySize))

/-- `fetch_from`: read the table in an open file. Bytes that it does not have count as zeros. -/
def fetch (f : Handle) : DriveM Directory := do
  let bytes ← f.readAt Layout.directorySize 0
  let table := Bytes.pad Layout.directorySize bytes
  return ⟨← Drive.decoded (decodeSlots Layout.directorySlots table)⟩

/-- `write_back`: write the table to an open file. -/
def store (dir : Directory) (f : Handle) : DriveM Unit := discard (f.writeAt dir.encode 0)

/-- `open_subdirectory`: open the directory that an entry leads to; errors are for `path`. -/
def enter (e : Entry) (path : String) : DriveM (Handle × Directory) := do
  match e.kind with
  | .file => throw (.notADirectory path)
  | .directory =>
    let f ← Handle.fetch (← e.header path)
    return (f, ← fetch f)

/-! ## Searching by path -/

/-- The entry for the name, or an error for `path`. -/
def search (dir : Directory) (path name : String) : DriveM Entry :=
  match dir.entry? name with
  | some e => return e
  | none => throw (.notFound path)

/-- `find_recursive`: the entry at the end of a route that was cut from `path`. -/
def follow (path : String) : Route → Directory → DriveM Entry
  | .invalid rest, _ => throw (.invalidPath rest)
  | .last name, dir => dir.search path name
  | .step name rest, dir => do
    let (_, below) ← enter (← dir.search path name) path
    follow path rest below

/-- `find_entry`: the entry at a path. The root has none. -/
def findEntry (dir : Directory) (path : String) : DriveM Entry := follow path (.ofPath path) dir

/-- `find`: the sector of the header at a path. -/
def find (dir : Directory) (path : String) : DriveM Nat :=
  if path = "/" then return Layout.rootSector
  else do (← dir.findEntry path).header path

/-! ## Adding and removing entries -/

/-- Put an entry into the first slot that is not in use. -/
def fillSlot (path name : String) (kind : Kind) (sector : Nat) : UpdateM Directory Unit := do
  let dir ← lent
  if (dir.entry? name).isSome then
    throw (.alreadyExists path)
  else match dir.slots.findIdx? (!·.inUse) with
    | none => throw (.directoryFull path)
    | some i => do
      put ⟨dir.slots.set i (.ofFile name kind sector)⟩
      Drive.note (.entryAdded kind path sector)

/-- Take the entry for `name` out of use. -/
def clearSlot (path name : String) : UpdateM Directory Unit := do
  let dir ← lent
  match dir.index? name with
  | none => throw (.notFound path)
  | some i => do
    put ⟨dir.slots.modify i fun e => { e with inUse := false }⟩
    Drive.note (.entryRemoved path)

/-- `add_recursive` and `remove_recursive`: change the directory that holds the last name of a
route. Its table is written back, and so are the tables on the way to it, from the inside out. The
table that the route starts from is not written. -/
def changeAlong (path : String) (edit : String → UpdateM Directory Unit) :
    Route → UpdateM Directory Unit
  | .invalid rest => throw (.invalidPath rest)
  | .last name => edit name
  | .step name rest => do
    let dir ← lent
    let (f, below) ← enter (← dir.search path name) path
    let ((), below) ← (changeAlong path edit rest).on below
    below.store f

/-- `add`: add an entry at a path. -/
def addEntry (path : String) (kind : Kind) (sector : Nat) : UpdateM Directory Unit :=
  changeAlong path (fun name => fillSlot path name kind sector) (.ofPath path)

/-- `remove`: take the entry at a path out of use. -/
def removeEntry (path : String) : UpdateM Directory Unit :=
  changeAlong path (clearSlot path) (.ofPath path)

/-! ### With a directory of one's own -/

/-- A directory of one's own after an entry was put into a slot of it. -/
def insert (dir : Directory) (path name : String) (kind : Kind) (sector : Nat) :
    DriveM Directory := return (← (fillSlot path name kind sector).on dir).2

theorem insert_eq (dir : Directory) (path name : String) (kind : Kind) (sector : Nat) :
    dir.insert path name kind sector = do
      if (dir.entry? name).isSome then
        throw (.alreadyExists path)
      else match dir.slots.findIdx? (!·.inUse) with
        | none => throw (.directoryFull path)
        | some i =>
          Drive.note (.entryAdded kind path sector)
          return ⟨dir.slots.set i (.ofFile name kind sector)⟩ := by
  unfold insert fillSlot
  simp only [UpdateM.on_bind, UpdateM.on_lent, pure_bind]
  split
  · rfl
  · split
    · rfl
    · simp

/-- A directory of one's own after an entry of it was taken out of use. -/
def erase (dir : Directory) (path name : String) : DriveM Directory :=
  return (← (clearSlot path name).on dir).2

theorem erase_eq (dir : Directory) (path name : String) : dir.erase path name = do
    match dir.index? name with
    | none => throw (.notFound path)
    | some i =>
      Drive.note (.entryRemoved path)
      return ⟨dir.slots.modify i fun e => { e with inUse := false }⟩ := by
  unfold erase clearSlot
  simp only [UpdateM.on_bind, UpdateM.on_lent, pure_bind]
  split
  · rfl
  · simp

/-- A directory of one's own after a change at the end of a route: the change of the last table is
given as one of a directory of one's own as well. -/
def change (path : String) (edit : Directory → String → DriveM Directory) :
    Route → Directory → DriveM Directory
  | .invalid rest, _ => throw (.invalidPath rest)
  | .last name, dir => edit dir name
  | .step name rest, dir => do
    let (f, below) ← enter (← dir.search path name) path
    (← change path edit rest below).store f
    return dir

theorem changeAlong_on (path : String) (edit : String → UpdateM Directory Unit) (r : Route)
    (dir : Directory) : (changeAlong path edit r).on dir = do
      return ((), ← change path (fun inner name => return (← (edit name).on inner).2) r dir) := by
  induction r generalizing dir with
  | invalid rest => rfl
  | last name => simp [changeAlong, change]
  | step name rest ih => simp [changeAlong, change, ih]

/-- A directory of one's own after an entry was added at a path. -/
def add (dir : Directory) (path : String) (kind : Kind) (sector : Nat) : DriveM Directory :=
  return (← (addEntry path kind sector).on dir).2

theorem add_eq (dir : Directory) (path : String) (kind : Kind) (sector : Nat) :
    dir.add path kind sector =
      change path (fun inner name => inner.insert path name kind sector) (.ofPath path) dir := by
  simp [add, addEntry, changeAlong_on, insert]

/-- A directory of one's own after the entry at a path was taken out of use. -/
def remove (dir : Directory) (path : String) : DriveM Directory :=
  return (← (removeEntry path).on dir).2

theorem remove_eq (dir : Directory) (path : String) :
    dir.remove path =
      change path (fun inner name => inner.erase path name) (.ofPath path) dir := by
  simp [remove, removeEntry, changeAlong_on, erase]

/-! ## Listings -/

/-- One line of a tree listing. -/
def treeLine (level : Nat) (e : Entry) : String :=
  String.join (List.replicate level "    ") ++ e.kind.tag ++ " " ++ e.name

/-- How deep a search through directories below directories goes. Directories that do not contain
themselves have their headers in different sectors, and links name no more than `Link.limit` of
them, so the search ends before that. -/
def depthLimit : Nat := Link.limit + 1

/-- `list_recursive`: a line for each entry, the entries of a directory below it and four blanks
further in. Directories inside one another `depth` deep and more are refused. -/
def treeLines : (depth level : Nat) → Directory → DriveM (List String)
  | 0, _, _ => Drive.corrupt (.endlessNesting "/")
  | depth + 1, level, dir => do
    let lines ← dir.entries.mapM fun e =>
      match e.kind with
      | .file => return [treeLine level e]
      | .directory => do
        let (_, below) ← enter e e.name
        return treeLine level e :: (← treeLines depth (level + 1) below)
    return lines.flatten

/-- `list`: the names in the directory, or the whole tree below it. -/
def list (dir : Directory) (recursive : Bool) : DriveM (List String) := do
  if recursive then treeLines depthLimit 0 dir
  else return dir.entries.map Entry.name

/-- `print`: the entries, with the header and the content of the file of each, for people. -/
def print (dir : Directory) : DriveM String := do
  let parts ← dir.entries.mapM fun e => do
    let sector ← e.header e.name
    let header ← Header.fetch sector
    return s!"Name: {e.name}, Sector: {sector}\n" ++ (← header.describe)
  return "Directory contents:\n" ++ String.join parts ++ "\n"

end Directory

end SectorChain
