import SectorChain.Device
import SectorChain.Note

/-!
# Drives

A drive is a device at work: it keeps every access that was asked for, makes those fail that its
fault pattern names, and collects the notes of the operations that use it. An access that fails
changes nothing on the device. The cursor of an image file is a part of the drive, for it is moved
by reads as well.

An operation on a drive is a `DriveM`: it answers or fails, and either way the drive stays as far as
the operation brought it. An operation that is lent something in memory to change, such as a free
map or an open file, is an `UpdateM`: that too stays as far as the operation brought it, and a
caller has it in hand after a failure as well. `UpdateM.on` is the same operation on a value of the
caller's own, which is given up when it fails.

Results:
* `UpdateM.on_bind` and the other `on_…`: how an operation on a value is put together.
-/

namespace SectorChain

/-- How often a device was asked to read and to write. -/
structure Tally where
  reads : Nat := 0
  writes : Nat := 0
  deriving DecidableEq, Repr

/-- The tally with one access more. -/
def Tally.add (t : Tally) : Access → Tally
  | .read _ => { t with reads := t.reads + 1 }
  | .write _ => { t with writes := t.writes + 1 }

/-- Which accesses fail: given the tally before it, each access passes or not. No two accesses of
a drive have the same tally before them, so each of them can be made to fail on its own. -/
abbrev Faults := Tally → Access → Bool

/-- A device with the record of its use. -/
structure Drive where
  device : Device
  faults : Faults := fun _ _ => false
  tally : Tally := {}
  accesses : Array Access := #[]
  notes : Array Note := #[]
  /-- Where the cursor of the image file is, if the device has one. -/
  cursor : Nat := 0

/-- An operation that uses a drive and can fail; the drive keeps what was done before a failure. -/
abbrev DriveM := EStateM VolumeError Drive

namespace Drive

/-- Leave a note. -/
def note (n : Note) : DriveM Unit := modify fun d => { d with notes := d.notes.push n }

/-- Fail on a contradiction between the records of the volume. -/
def corrupt {α : Type} (cause : Corruption) : DriveM α := throw (.corrupt cause)

/-- The size of a sector. -/
def sectorSize : DriveM Nat := return (← get).device.sectorSize

/-- The number of sectors. -/
def sectors : DriveM Nat := return (← get).device.sectors

/-- The bytes of data in one block. -/
def dataSize : DriveM Nat := return Layout.dataSize (← sectorSize)

/-- The drive after it was asked for an access. -/
def asked (d : Drive) (a : Access) : Drive :=
  { d with tally := d.tally.add a, accesses := d.accesses.push a }

/-- Ask for an access: it is recorded, and fails here if the fault pattern says so. -/
def request (a : Access) : DriveM Unit := fun d =>
  if d.faults d.tally a then .error (.io (.injected a)) (d.asked a) else .ok () (d.asked a)

/-- The bytes of a sector. -/
def readSector (sector : Nat) : DriveM Bytes := do
  request (.read sector)
  fun d => match d.device.readSector sector d.device.sectorSize d.cursor with
    | (.ok bytes, cursor) => .ok bytes { d with cursor }
    | (.error e, cursor) => .error (.io e) { d with cursor }

/-- Replace the bytes of a sector. -/
def writeSector (sector : Nat) (bytes : Bytes) : DriveM Unit := do
  request (.write sector)
  fun d => match d.device.writeSector sector bytes d.cursor with
    | (.ok device, cursor) => .ok () { d with device, cursor }
    | (.error e, cursor) => .error (.io e) { d with cursor }

/-- The answer or the error of an operation, as a value. -/
def attempt {α : Type} (x : DriveM α) : DriveM (Except VolumeError α) := fun d =>
  match x d with
  | .ok a d => .ok (.ok a) d
  | .error e d => .ok (.error e) d

/-- Answer or fail as a value says. -/
def ofExcept {α : Type} : Except VolumeError α → DriveM α
  | .ok a => pure a
  | .error e => throw e

/-- Decode a record, or fail with its error. -/
def decoded {α : Type} : Except RecordError α → DriveM α
  | .ok a => pure a
  | .error e => throw (.record e)

end Drive

/-! ## Operations on something in memory -/

/-- An operation that is lent a `σ` to change and uses a drive. Both keep what was done before a
failure. -/
abbrev UpdateM (σ : Type) := EStateM VolumeError (σ × Drive)

namespace UpdateM

variable {σ τ α β : Type}

/-- An operation on the drive only. -/
def onDrive (x : DriveM α) : UpdateM σ α := fun (s, d) =>
  match x d with
  | .ok a d => .ok a (s, d)
  | .error e d => .error e (s, d)

instance : MonadLift DriveM (UpdateM σ) := ⟨onDrive⟩

/-- What was lent, as it is now. -/
def lent : UpdateM σ σ := fun (s, d) => .ok s (s, d)

/-- Put a new value in the place of what was lent. -/
def put (s : σ) : UpdateM σ Unit := fun (_, d) => .ok () (s, d)

/-- An operation on a part of what was lent, which goes back to its place also after a failure. -/
def within (part : σ → τ) (back : σ → τ → σ) (x : UpdateM τ α) : UpdateM σ α := fun (s, d) =>
  match x (part s, d) with
  | .ok a (t, d) => .ok a (back s t, d)
  | .error e (t, d) => .error e (back s t, d)

/-- An operation that is lent a value of the caller's own as well; the answer has it as it is
then. -/
def beside (t : τ) (x : UpdateM (σ × τ) α) : UpdateM σ (α × τ) := fun (s, d) =>
  match x ((s, t), d) with
  | .ok a ((s, t), d) => .ok (a, t) (s, d)
  | .error e ((s, _), d) => .error e (s, d)

/-- The operation on a value of the caller's own: the answer has it as it is then. -/
def on (x : UpdateM σ α) (s : σ) : DriveM (α × σ) := fun d =>
  match x (s, d) with
  | .ok a (s, d) => .ok (a, s) d
  | .error e (_, d) => .error e d

@[simp] theorem on_pure (a : α) (s : σ) : (pure a : UpdateM σ α).on s = pure (a, s) := rfl

@[simp] theorem on_throw (e : VolumeError) (s : σ) :
    (throw e : UpdateM σ α).on s = throw e := rfl

@[simp] theorem on_lent (s : σ) : (lent : UpdateM σ σ).on s = pure (s, s) := rfl

@[simp] theorem on_put (s t : σ) : (put t).on s = pure ((), t) := rfl

@[simp] theorem on_lift (x : DriveM α) (s : σ) :
    (liftM x : UpdateM σ α).on s = do return (← x, s) := by
  funext d
  show on (onDrive x) s d = EStateM.bind x (fun a => EStateM.pure (a, s)) d
  unfold on onDrive EStateM.bind
  dsimp only
  cases x d <;> rfl

@[simp] theorem on_bind (x : UpdateM σ α) (f : α → UpdateM σ β) (s : σ) :
    (x >>= f).on s = x.on s >>= fun (a, s) => (f a).on s := by
  funext d
  show on (EStateM.bind x f) s d = EStateM.bind (on x s) (fun p => (f p.1).on p.2) d
  unfold on EStateM.bind
  dsimp only
  cases x (s, d) <;> rfl

@[simp] theorem on_map (f : α → β) (x : UpdateM σ α) (s : σ) :
    (f <$> x).on s = (fun (a, s) => (f a, s)) <$> x.on s := on_bind x (fun a => pure (f a)) s

@[simp] theorem on_within (part : σ → τ) (back : σ → τ → σ) (x : UpdateM τ α) (s : σ) :
    (within part back x).on s = do
      let (a, t) ← x.on (part s)
      return (a, back s t) := by
  funext d
  show on (within part back x) s d =
    EStateM.bind (on x (part s)) (fun p => EStateM.pure (p.1, back s p.2)) d
  unfold on within EStateM.bind
  dsimp only
  cases x (part s, d) <;> rfl

@[simp] theorem on_beside (t : τ) (x : UpdateM (σ × τ) α) (s : σ) :
    (beside t x).on s = do
      let (a, s, t) ← x.on (s, t)
      return ((a, t), s) := by
  funext d
  show on (beside t x) s d =
    EStateM.bind (on x (s, t)) (fun p => EStateM.pure ((p.1, p.2.2), p.2.1)) d
  unfold on beside EStateM.bind
  dsimp only
  cases x ((s, t), d) <;> rfl

end UpdateM

/-! ## Fault plans -/

/-- Faults named in advance: the reads and the writes of listed sectors fail, and so does every
read after the first `readsLeft` and every write after the first `writesLeft`. -/
structure FaultPlan where
  reads : List Nat := []
  writes : List Nat := []
  readsLeft : Option Nat := none
  writesLeft : Option Nat := none
  deriving Repr

namespace FaultPlan

/-- Whether `count` accesses of the `left` that may pass are used up. -/
def spent (left : Option Nat) (count : Nat) : Bool := left.any (· ≤ count)

/-- The fault pattern of a plan that begins at the tally `start`. A read that fails because of its
sector still counts as one of the first, and so does a write. -/
def pattern (plan : FaultPlan) (start : Tally) : Faults := fun t access =>
  match access with
  | .read sector => plan.reads.contains sector || spent plan.readsLeft (t.reads - start.reads)
  | .write sector => plan.writes.contains sector || spent plan.writesLeft (t.writes - start.writes)

end FaultPlan

end SectorChain
