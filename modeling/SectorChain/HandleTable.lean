import SectorChain.Handle

/-!
# Open files by id

A table of open files has a fixed number of slots; the id of an open file is its slot. A new file
takes the first slot that is not in use.
-/

namespace SectorChain

/-- `OpenFileTable`: the slots for open files. -/
structure HandleTable where
  slots : List (Option Handle)
  deriving DecidableEq

namespace HandleTable

/-- `new`: a table of `capacity` slots, none in use. -/
def empty (capacity : Nat) : HandleTable := ⟨List.replicate capacity none⟩

/-- The file open under `id`. -/
def get? (t : HandleTable) (id : Nat) : Option Handle := t.slots[id]?.join

/-- The table with slot `id` holding `slot`. -/
def set (t : HandleTable) (id : Nat) (slot : Option Handle) : HandleTable := ⟨t.slots.set id slot⟩

/-- The first slot not in use. -/
def leastFree? (t : HandleTable) : Option Nat := t.slots.findIdx? Option.isNone

/-- `insert`: put an open file into the first slot not in use, and answer its id. -/
def addFile (f : Handle) : UpdateM HandleTable Nat := do
  let t ← UpdateM.lent
  match t.leastFree? with
  | some id => do
    UpdateM.put (t.set id (some f))
    return id
  | none => throw .tooManyOpen

/-- A table of one's own with an open file put into the first slot not in use. -/
def insert (t : HandleTable) (f : Handle) : Except VolumeError (Nat × HandleTable) :=
  match t.leastFree? with
  | some id => .ok (id, t.set id (some f))
  | none => .error .tooManyOpen

theorem addFile_on (t : HandleTable) (f : Handle) :
    (addFile f).on t = Drive.ofExcept (t.insert f) := by
  simp only [addFile, insert, UpdateM.on_bind, UpdateM.on_lent, pure_bind]
  cases t.leastFree? <;> rfl

/-- `get_mut`: the file open under `id`; a note is left if there is none. -/
def fetch (t : HandleTable) (id : Nat) : DriveM Handle :=
  match t.get? id with
  | some f => return f
  | none => do
    Drive.note (.idNotOpen id)
    throw (.notOpen id)

/-- `close`: close the file open under `id`; a note is left if there is none. -/
def closeFile (id : Nat) : UpdateM HandleTable Unit := do
  let t ← UpdateM.lent
  match t.get? id with
  | some _ => UpdateM.put (t.set id none)
  | none => do
    Drive.note (.closeNotOpen id)
    throw (.notOpen id)

/-- A table of one's own with the file open under `id` closed. -/
def close (t : HandleTable) (id : Nat) : DriveM HandleTable := return (← (closeFile id).on t).2

theorem close_eq (t : HandleTable) (id : Nat) : t.close id = (do
    match t.get? id with
    | some _ => return t.set id none
    | none =>
      Drive.note (.closeNotOpen id)
      throw (.notOpen id)) := by
  simp only [close, closeFile, UpdateM.on_bind, UpdateM.on_lent, pure_bind]
  cases t.get? id <;> rfl

/-- `holds`: whether the file with its header in `sector` is open. -/
def holds (t : HandleTable) (sector : Nat) : Bool :=
  t.slots.any fun
    | some f => f.sector == sector
    | none => false

/-- `open_ids`: the ids in use, in order, with the sectors of the headers. -/
def ids (t : HandleTable) : List (Nat × Nat) :=
  t.slots.zipIdx.filterMap fun (slot, id) => slot.map fun f => (id, f.sector)

end HandleTable

end SectorChain
