import SectorChain.Proofs.Reading
import SectorChain.Proofs.Updates

/-!
# Runs of calls

A `Usage` is a volume in use on a drive, with a record of what was opened under each id and of the
sizes of the files that were made. A run begins with a format and goes on with calls, in any order
and with any arguments, whether they answer or fail. The only calls that are not `Permitted` are
writes through the id of a directory.

* `Usage.Sound u inv` is the invariant of a run: the drive has no faults, what is on it is `inv`,
  and the record is right.
* `Effect` says what one call does to the volume and to the inventory, for each kind of call.

Results:
* `Sound.call`: a permitted call has one of these effects, and the invariant holds again.
* `sound_of_format`: it holds after a format.
* `Reached.sound`: it holds in every state of a run.
-/

namespace SectorChain

/-! ## Calls -/

/-- A call on a volume in use. -/
inductive Request where
  | create (path : String) (size : Nat)
  | makeDirectory (path : String)
  | remove (path : String) (recursive : Bool)
  | openId (path : String)
  | closeId (id : Nat)
  | seekId (id position : Nat)
  | readId (id count : Nat)
  | writeId (id : Nat) (bytes : Bytes)
  | openPath (path : String)
  | list (path : String) (recursive : Bool)
  | stat (path : String)
  | print
  | freeMap
  | root
  | numFree
  | remaining (id : Nat)
  | ids
  | mount

/-- What a call answers. -/
inductive Answer where
  | done
  | id (id : Nat)
  | count (n : Nat)
  | bytes (bytes : Bytes)
  | handle (f : Handle)
  | lines (lines : List String)
  | stat (stat : FileStat)
  | text (text : String)
  | freeMap (m : FreeMap)
  | directory (dir : Directory)
  | ids (ids : List (Nat × Nat))

namespace Request

open UpdateM (lent put beside)

/-- The call on a volume that is lent: its answer. -/
def serve : Request → UpdateM Volume Answer
  | .create path size => do
    (← lent).create path size
    return .done
  | .makeDirectory path => do
    (← lent).makeDirectory path
    return .done
  | .remove path recursive => do
    (← lent).remove path recursive
    return .done
  | .openId path => return .id (← Volume.openById path)
  | .closeId id => do
    Volume.closeById id
    return .done
  | .seekId id position => do
    Volume.seekById id position
    return .done
  | .readId id count => do
    let (n, buffer) ← beside (Bytes.zeros count) (Volume.readById id)
    return .bytes (buffer.take n)
  | .writeId id bytes => return .count (← Volume.writeById id bytes)
  | .openPath path => return .handle (← (← lent).openPath path)
  | .list path recursive => return .lines (← (← lent).list path recursive)
  | .stat path => return .stat (← (← lent).stat path)
  | .print => return .text (← (← lent).print)
  | .freeMap => return .freeMap (← (← lent).freeMap)
  | .root => return .directory (← (← lent).root)
  | .numFree => return .count (← (← lent).numFree)
  | .remaining id => return .count (← (← lent).remainingId id)
  | .ids => return .ids (← lent).openFiles.ids
  | .mount => do
    put (← Volume.mount)
    return .done

/-- **A call that fails** leaves the volume as it was lent. -/
theorem serve_allOrNothing (q : Request) (v : Volume) : AllOrNothing q.serve v := by
  cases q with
  | openId path => exact .before (Volume.openById_allOrNothing path v) fun _ _ => ⟨_, _, rfl⟩
  | closeId id => exact .before (Volume.closeById_allOrNothing id v) fun _ _ => ⟨_, _, rfl⟩
  | seekId id position =>
    exact .before (Volume.seekById_allOrNothing id position v) fun _ _ => ⟨_, _, rfl⟩
  | readId id count =>
    exact .before (.beside (Volume.readById_allOrNothing id v _)) fun _ _ => ⟨_, _, rfl⟩
  | writeId id bytes =>
    exact .before (Volume.writeById_allOrNothing id bytes v) fun _ _ => ⟨_, _, rfl⟩
  | ids => exact .lent (.pure _)
  | mount => exact .after fun _ _ => .before (.put _) fun _ _ => ⟨_, _, rfl⟩
  | _ => exact .lent <| .after fun _ _ => .pure _

/-- The call on a volume of one's own: its answer, and the volume then. -/
def perform (v : Volume) : Request → DriveM (Answer × Volume)
  | .create path size => do v.create path size; return (.done, v)
  | .makeDirectory path => do v.makeDirectory path; return (.done, v)
  | .remove path recursive => do v.remove path recursive; return (.done, v)
  | .openId path => do
    let (id, v) ← v.openId path
    return (.id id, v)
  | .closeId id => return (.done, ← v.closeId id)
  | .seekId id position => return (.done, ← v.seekId id position)
  | .readId id count => do
    let (bytes, v) ← v.readId id count
    return (.bytes bytes, v)
  | .writeId id bytes => do
    let (n, v) ← v.writeId id bytes
    return (.count n, v)
  | .openPath path => return (.handle (← v.openPath path), v)
  | .list path recursive => return (.lines (← v.list path recursive), v)
  | .stat path => return (.stat (← v.stat path), v)
  | .print => return (.text (← v.print), v)
  | .freeMap => return (.freeMap (← v.freeMap), v)
  | .root => return (.directory (← v.root), v)
  | .numFree => return (.count (← v.numFree), v)
  | .remaining id => return (.count (← v.remainingId id), v)
  | .ids => return (.ids v.openFiles.ids, v)
  | .mount => return (.done, ← Volume.mount)

theorem serve_on (q : Request) (v : Volume) : q.serve.on v = q.perform v := by
  cases q with
  | readId id count => simp [serve, perform, Volume.readId]
  | openId | closeId | seekId | writeId =>
    simp [serve, perform, Volume.openId, Volume.closeId, Volume.seekId, Volume.writeId]
  | _ => simp [serve, perform]

/-- The path, the kind and the size of what the call would make. -/
def makes : Request → Option (String × Kind × Nat)
  | .create path size => some (path, .file, size)
  | .makeDirectory path => some (path, .directory, Layout.directorySize)
  | _ => none

/-- The id that must be open for the call to answer; it answers then. -/
def onId : Request → Option Nat
  | .closeId id | .seekId id _ | .readId id _ | .writeId id _ => some id
  | _ => none

/-- The call looks at the volume and changes nothing. -/
def Looks : Request → Prop
  | .openPath _ | .list _ _ | .stat _ | .print | .freeMap => True
  | .root | .numFree | .remaining _ | .ids => True
  | _ => False

theorem onId_of_makes {q : Request} {made : String × Kind × Nat} (hq : q.makes = some made) :
    q.onId = none := by
  cases q with
  | closeId | seekId | readId | writeId => cases hq
  | _ => rfl

theorem onId_of_looks {q : Request} (hq : q.Looks) : q.onId = none := by
  cases q with
  | closeId | seekId | readId | writeId => exact hq.elim
  | _ => rfl

end Request

/-! ## States -/

/-- A volume in use on a drive. `opened` has for each id the kind of what was opened under it last,
and `sizes` for each sector the size of the file that it was taken for last. -/
structure Usage where
  drive : Drive
  volume : Volume
  opened : Nat → Option Kind := fun _ => none
  sizes : Nat → Option Nat := fun _ => none

namespace Usage

/-- The answer of an operation begun now; what it does to the drive is forgotten. -/
def ask {α : Type} (u : Usage) (x : DriveM α) : Except VolumeError α :=
  match x u.drive with
  | .ok a _ => .ok a
  | .error e _ => .error e

/-- The kind of what is at a path, as its entry has it. -/
def kindAt (u : Usage) (path : String) : Option Kind :=
  if path = "/" then some .directory
  else match u.ask (u.volume.findEntry path) with
    | .ok e => some e.kind
    | .error _ => none

/-- Whether the sector is in use in the free map on the device. -/
def uses (u : Usage) (s : Nat) : Bool :=
  match u.ask u.volume.freeMap with
  | .ok m => m.isUsed s
  | .error _ => false

/-- The record of opened kinds after a call that led to `next` with the answer `a`. -/
def openedBy (u next : Usage) (q : Request) (a : Answer) : Nat → Option Kind :=
  match q, a with
  | .openId path, .id id => Function.update u.opened id (next.kindAt path)
  | _, _ => u.opened

/-- The record of sizes after a call that led to `next`. -/
def sizesBy (u next : Usage) (q : Request) : Nat → Option Nat :=
  match q.makes with
  | some (_, _, size) => fun s => if next.uses s && !u.uses s then some size else u.sizes s
  | none => u.sizes

/-- The state after a call that left this drive and this volume. -/
def next (u : Usage) (q : Request) (a : Answer) (d : Drive) (v : Volume) : Usage :=
  let next := { u with drive := d, volume := v }
  { next with opened := u.openedBy next q a, sizes := u.sizesBy next q }

/-- **One call**: its answer or error, and the state then. Volume and drive stay as far as the call
brought them. -/
def call (u : Usage) (q : Request) : Except VolumeError Answer × Usage :=
  match q.serve (u.volume, u.drive) with
  | .ok a (v, d) => (.ok a, u.next q a d v)
  | .error e (v, d) => (.error e, { u with drive := d, volume := v })

end Usage

/-- Ids are written to only if a regular file was opened under them. -/
def Request.Permitted (u : Usage) : Request → Prop
  | .writeId id _ => ∀ f, u.volume.openFiles.get? id = some f → u.opened id = some .file
  | _ => True

/-- **The states of a run** that begins with formatting a drive. -/
inductive Usage.Reached (blank : Drive) : Usage → Prop
  | format {v : Volume} {d : Drive} (h : Volume.format blank = .ok v d) :
      Reached blank { drive := d, volume := v }
  | call {u : Usage} (q : Request) (h : Reached blank u) (hq : q.Permitted u) :
      Reached blank (u.call q).2

/-- **The states of a run from `u₀` on** in which all calls are of an `allowed` kind. -/
inductive Usage.Onward (allowed : Request → Prop) (u₀ : Usage) : Usage → Prop
  | start : Onward allowed u₀ u₀
  | call {u : Usage} (q : Request) (h : Onward allowed u₀ u) (hq : q.Permitted u)
      (hallowed : allowed q) : Onward allowed u₀ (u.call q).2

/-! ## The invariant -/

/-- **The invariant of a run.** -/
structure Usage.Sound (u : Usage) (inv : Inventory) : Prop where
  fault_free : u.drive.FaultFree
  consistent : u.volume.Consistent u.drive.disk inv
  opened : ∀ id f, u.volume.openFiles.get? id = some f →
    ∀ x ∈ inv.tree.nodes, (placeOf x).sector = f.sector → u.opened id = some (kindOf x)
  sizes : ∀ s : Stored, .inl s ∈ inv.tree.nodes → u.sizes s.place.sector = some s.content.length

/-- **What a call does** to a volume and to the inventory. -/
inductive Effect (v : Volume) (inv : Inventory) :
    Request → Except VolumeError Answer → Volume → Inventory → Prop
  | failed {q : Request} (e : VolumeError)
      (hid : ∀ id, q.onId = some id → v.openFiles.get? id = none) : Effect v inv q (.error e) v inv
  | looked {q : Request} (a : Answer) (hq : q.Looks) : Effect v inv q (.ok a) v inv
  | made {q : Request} {path : String} {kind : Kind} {size : Nat} {p : Place} {slots : NodeSlots}
      (content : Bytes) (hq : q.makes = some (path, kind, size)) (hlength : p.header.length = size)
      (hslots : inv.insert path (Node.blank kind p size) = .ok slots) :
      Effect v inv q (.ok .done) v ⟨⟨inv.mapFile.place, content⟩, inv.root, slots⟩
  | removed {path : String} {recursive : Bool} {e : Entry} {t : Node} {slots : NodeSlots}
      (content : Bytes) (hfind : inv.find path = .ok (e, t)) (hslots : inv.erase path = .ok slots) :
      Effect v inv (.remove path recursive) (.ok .done) v
        ⟨⟨inv.mapFile.place, content⟩, inv.root, slots⟩
  | opened {path : String} {kind : Kind} {p : Place} {id : Nat} {t : HandleTable}
      (hlocate : inv.locate path = .ok (kind, p))
      (hinsert : v.openFiles.insert p.handle = .ok (id, t)) :
      Effect v inv (.openId path) (.ok (.id id)) { v with openFiles := t } inv
  | closed {id : Nat} {f : Handle} (hf : v.openFiles.get? id = some f) :
      Effect v inv (.closeId id) (.ok .done) { v with openFiles := v.openFiles.set id none } inv
  | sought {id : Nat} {f : Handle} (position : Nat) (hf : v.openFiles.get? id = some f) :
      Effect v inv (.seekId id position) (.ok .done) (v.setOpen id (f.seek position)) inv
  | read {id : Nat} {f : Handle} {bytes : Bytes} (count : Nat) (hf : v.openFiles.get? id = some f)
      (hbytes : ∀ s : Stored, .inl s ∈ inv.tree.nodes → s.place.sector = f.sector →
        bytes = (s.content.drop f.position).take count) :
      Effect v inv (.readId id count) (.ok (.bytes bytes))
        (v.setOpen id (f.seek (f.position + bytes.length))) inv
  | written {id : Nat} {f : Handle} {s : Stored} {bytes new : Bytes}
      (hf : v.openFiles.get? id = some f) (hs : .inl s ∈ inv.tree.nodes)
      (hsector : s.place.sector = f.sector)
      (hnew : new = bytes.take (s.content.length - f.position)) :
      Effect v inv (.writeId id bytes) (.ok (.count new.length))
        (v.setOpen id (f.seek (f.position + new.length)))
        (inv.replace (Volume.rewrite f.sector (Bytes.splice s.content f.position new)))
  | mounted : Effect v inv .mount (.ok .done)
      ⟨inv.mapFile.place.handle, inv.root.handle, .empty Layout.maxOpen⟩ inv

/-! ## How a call ends -/

namespace Usage

variable {u : Usage} {inv : Inventory} {q : Request} {k' : Disk}

theorem ask_eq {α : Type} {x : DriveM α} {r : Except VolumeError α} (hd : u.drive.FaultFree)
    (h : Yields x u.drive.disk r k') : u.ask x = r := by
  obtain ⟨d', hx, -, -⟩ := h u.drive hd rfl
  unfold ask
  rw [hx]
  cases r <;> rfl

theorem call_of_ok {a : Answer} {v : Volume} {d : Drive}
    (h : q.perform u.volume u.drive = .ok (a, v) d) : u.call q = (.ok a, u.next q a d v) := by
  unfold call
  rw [(q.serve_allOrNothing u.volume).run_eq, q.serve_on, h]
  rfl

/-- A call that fails leaves the volume as it was. -/
theorem call_of_error {e : VolumeError} {d : Drive}
    (h : q.perform u.volume u.drive = .error e d) :
    u.call q = (.error e, { u with drive := d }) := by
  unfold call
  rw [(q.serve_allOrNothing u.volume).run_eq, q.serve_on, h]
  rfl

/-- A call that answers. -/
theorem call_ok {a : Answer} {v : Volume} (hd : u.drive.FaultFree)
    (h : Yields (q.perform u.volume) u.drive.disk (.ok (a, v)) k') :
    ∃ d, d.FaultFree ∧ d.disk = k' ∧ u.call q = (.ok a, u.next q a d v) := by
  obtain ⟨d, hx, hd', hk⟩ := h u.drive hd rfl
  exact ⟨d, hd', hk, call_of_ok hx⟩

/-- A call that fails. -/
theorem call_error {e : VolumeError} (hd : u.drive.FaultFree)
    (h : Yields (q.perform u.volume) u.drive.disk (.error e) k') :
    ∃ d, d.FaultFree ∧ d.disk = k' ∧ u.call q = (.error e, { u with drive := d }) := by
  obtain ⟨d, hx, hd', hk⟩ := h u.drive hd rfl
  exact ⟨d, hd', hk, call_of_error hx⟩

/-- The entry at a path has the kind of what is there. -/
theorem kindAt_eq {path : String} {kind : Kind} {p : Place} (hd : u.drive.FaultFree)
    (hv : u.volume.Legible u.drive.disk inv) (hlocate : inv.locate path = .ok (kind, p)) :
    u.kindAt path = some kind := by
  unfold Inventory.locate at hlocate
  unfold kindAt
  split at hlocate
  · rename_i hroot
    cases hlocate
    exact if_pos hroot
  · rename_i hroot
    cases hfind : inv.find path with
    | error e =>
      rw [hfind] at hlocate
      cases hlocate
    | ok found =>
      obtain ⟨e, t⟩ := found
      rw [hfind] at hlocate
      cases hlocate
      have hentry := hv.findEntry_yields path
      rw [hfind] at hentry
      rw [if_neg hroot, ask_eq hd hentry]
      exact congrArg some (hv.found hfind).2.1

/-- **Opening by id** records the kind of what is at the path. -/
theorem call_openId {path : String} {kind : Kind} {p : Place} {id : Nat} {t : HandleTable}
    (hd : u.drive.FaultFree) (hv : u.volume.Legible u.drive.disk inv)
    (hlocate : inv.locate path = .ok (kind, p))
    (hinsert : u.volume.openFiles.insert p.handle = .ok (id, t)) :
    ∃ u', u.call (.openId path) = (.ok (.id id), u') ∧ u'.drive.FaultFree ∧
      u'.drive.disk = u.drive.disk ∧ u'.volume = { u.volume with openFiles := t } ∧
      u'.opened = Function.update u.opened id (some kind) ∧ u'.sizes = u.sizes := by
  have hy := hv.openId_yields path
  rw [hlocate] at hy
  have hopen : Yields (u.volume.openId path) u.drive.disk
      (.ok (id, { u.volume with openFiles := t })) u.drive.disk := by
    simpa only [Except.bind, hinsert, Except.map] using hy
  have hperform : Yields ((Request.openId path).perform u.volume) u.drive.disk
      (.ok (.id id, { u.volume with openFiles := t })) u.drive.disk :=
    hopen.bind (Yields.pure _ _)
  obtain ⟨d, hd', hk, hcall⟩ := call_ok hd hperform
  have hv' := hv.withOpen t
  rw [← hk] at hv'
  have hkind : ({ u with drive := d, volume := { u.volume with openFiles := t } } : Usage).kindAt
      path = some kind := kindAt_eq hd' hv' hlocate
  exact ⟨_, hcall, hd', hk, rfl, congrArg (Function.update u.opened id) hkind, rfl⟩

theorem call_writeId {id : Nat} {bytes : Bytes} {n : Nat} {v : Volume} (hd : u.drive.FaultFree)
    (hy : Yields (u.volume.writeId id bytes) u.drive.disk (.ok (n, v)) k') :
    ∃ u', u.call (.writeId id bytes) = (.ok (.count n), u') ∧ u'.drive.FaultFree ∧
      u'.drive.disk = k' ∧ u'.volume = v ∧ u'.opened = u.opened ∧ u'.sizes = u.sizes := by
  have hperform : Yields ((Request.writeId id bytes).perform u.volume) u.drive.disk
      (.ok (.count n, v)) k' := hy.bind (Yields.pure _ k')
  obtain ⟨d, hd', hk, hcall⟩ := call_ok hd hperform
  exact ⟨_, hcall, hd', hk, rfl, rfl, rfl⟩

/-- The effect of a call, after which the invariant holds again on a disk of the same size. -/
def Ends (u : Usage) (inv : Inventory) (q : Request) : Prop :=
  ∃ inv', Effect u.volume inv q (u.call q).1 (u.call q).2.volume inv' ∧ (u.call q).2.Sound inv' ∧
    u.drive.disk.SameSize (u.call q).2.drive.disk

namespace Sound

/-- The drive may change in what belongs to no file. -/
theorem withDrive (h : u.Sound inv) {d : Drive} (hd : d.FaultFree)
    (hk : u.drive.disk.Keeps d.disk (· ∈ inv.sectors)) : { u with drive := d }.Sound inv :=
  ⟨hd, h.consistent.keeps hk fun _ hs => hs, h.opened, h.sizes⟩

theorem ends_error (h : u.Sound inv) {e : VolumeError}
    (hy : Yields (q.perform u.volume) u.drive.disk (.error e) k')
    (hk : u.drive.disk.Keeps k' (· ∈ inv.sectors))
    (hid : ∀ id, q.onId = some id → u.volume.openFiles.get? id = none) : u.Ends inv q := by
  obtain ⟨d, hd, rfl, hcall⟩ := call_error h.fault_free hy
  unfold Ends
  rw [hcall]
  exact ⟨inv, .failed e hid, h.withDrive hd hk, hk.sameSize⟩

/-- A call that leaves the disk as it is, and answers. -/
theorem ends_ok (h : u.Sound inv) {a : Answer} {v : Volume}
    (hy : Yields (q.perform u.volume) u.drive.disk (.ok (a, v)) u.drive.disk)
    (hq : q.makes = none) (hv : v.Consistent u.drive.disk inv)
    (heffect : Effect u.volume inv q (.ok a) v inv)
    (hopened : ∀ d : Drive, d.FaultFree → d.disk = u.drive.disk → ∀ id f,
      v.openFiles.get? id = some f → ∀ x ∈ inv.tree.nodes, (placeOf x).sector = f.sector →
        u.openedBy { u with drive := d, volume := v } q a id = some (kindOf x)) :
    u.Ends inv q := by
  obtain ⟨d, hd, hk, hcall⟩ := call_ok h.fault_free hy
  unfold Ends
  rw [hcall]
  refine ⟨inv, heffect, ⟨hd, ?_, hopened d hd hk, ?_⟩, ?_⟩
  · rw [← hk] at hv
    exact hv
  · unfold next sizesBy
    rw [hq]
    exact h.sizes
  · show u.drive.disk.SameSize d.disk
    rw [hk]
    exact Disk.Keeps.refl _ _

end Sound

end Usage

/-! ## Each kind of call -/

/-- What only looks is an operation that only reads. -/
theorem Request.perform_of_looks {q : Request} (hq : q.Looks) (v : Volume) :
    ∃ (α : Type) (x : DriveM α) (f : α → Answer), Still x ∧
      q.perform v = do return (f (← x), v) := by
  cases q with
  | openPath path => exact ⟨_, _, .handle, v.openPath_still path, rfl⟩
  | list path recursive => exact ⟨_, _, .lines, v.list_still path recursive, rfl⟩
  | stat path => exact ⟨_, _, .stat, v.stat_still path, rfl⟩
  | print => exact ⟨_, _, .text, v.print_still, rfl⟩
  | freeMap => exact ⟨_, _, .freeMap, v.freeMap_still, rfl⟩
  | root => exact ⟨_, _, .directory, v.root_still, rfl⟩
  | numFree => exact ⟨_, _, .count, v.numFree_still, rfl⟩
  | remaining id => exact ⟨_, _, .count, v.remainingId_still id, rfl⟩
  | ids => exact ⟨_, _, fun _ => .ids v.openFiles.ids, Still.pure (), rfl⟩
  | _ => exact hq.elim

namespace Usage

variable {u : Usage} {inv : Inventory}

theorem next_of_looks {q : Request} (hq : q.Looks) (a : Answer) (d : Drive) :
    u.next q a d u.volume = { u with drive := d } := by
  cases q with
  | create | makeDirectory | remove | openId | closeId | seekId | readId | writeId | mount =>
    exact hq.elim
  | _ => rfl

namespace Sound

theorem ends_look (h : u.Sound inv) {q : Request} (hq : q.Looks) : u.Ends inv q := by
  obtain ⟨α, x, f, hx, hperform⟩ := q.perform_of_looks hq u.volume
  obtain ⟨hd, hk⟩ := hx.faultFree h.fault_free
  have hkeeps : ∀ {d : Drive}, d.disk = u.drive.disk →
      u.drive.disk.Keeps d.disk (· ∈ inv.sectors) := fun hk => by
    rw [hk]
    exact Disk.Keeps.refl _ _
  unfold Ends
  cases hend : x u.drive with
  | ok a d =>
    rw [hend] at hd hk
    have hrun : q.perform u.volume u.drive = .ok (f a, u.volume) d := by
      rw [hperform, run_bind_ok hend]
      rfl
    rw [call_of_ok hrun, next_of_looks hq]
    exact ⟨inv, .looked _ hq, h.withDrive hd (hkeeps hk), (hkeeps hk).sameSize⟩
  | error e d =>
    rw [hend] at hd hk
    have hrun : q.perform u.volume u.drive = .error e d := by
      rw [hperform, run_bind_error hend]
    rw [call_of_error hrun]
    refine ⟨inv, .failed e fun id hid => ?_, h.withDrive hd (hkeeps hk), (hkeeps hk).sameSize⟩
    cases (Request.onId_of_looks hq).symm.trans hid

/-! ### Ids -/

/-- The record of kinds is right for a table in which one slot is another handle of the same file,
or none. -/
theorem opened_set (h : u.Sound inv) {id : Nat} {slot : Option Handle}
    (hslot : ∀ g, slot = some g →
      ∃ f, u.volume.openFiles.get? id = some f ∧ f.sector = g.sector) (i : Nat) (g : Handle)
    (hg : (u.volume.openFiles.set id slot).get? i = some g) :
    ∀ x ∈ inv.tree.nodes, (placeOf x).sector = g.sector → u.opened i = some (kindOf x) := by
  intro x hx hsector
  rcases HandleTable.get?_set_eq_some hg with ⟨rfl, hslot'⟩ | hg
  · obtain ⟨f, hf, hsame⟩ := hslot g hslot'
    exact h.opened id f hf x hx (hsector.trans hsame.symm)
  · exact h.opened i g hg x hx hsector

theorem ends_closeId (h : u.Sound inv) (id : Nat) : u.Ends inv (.closeId id) := by
  cases hf : u.volume.openFiles.get? id with
  | none =>
    exact h.ends_error (Volume.Consistent.closeId_fails hf _).bind_error (Disk.Keeps.refl _ _)
      (by rintro _ ⟨⟩; exact hf)
  | some f =>
    exact h.ends_ok ((Volume.Consistent.closeId_yields hf _).bind (Yields.pure _ _)) rfl
      (h.consistent.withOpen (h.consistent.open_files.set id (by rintro g ⟨⟩))) (.closed hf)
      fun _ _ _ => h.opened_set (by rintro g ⟨⟩)

theorem ends_seekId (h : u.Sound inv) (id position : Nat) : u.Ends inv (.seekId id position) := by
  cases hf : u.volume.openFiles.get? id with
  | none =>
    exact h.ends_error (Volume.Consistent.seekId_fails hf position _).bind_error
      (Disk.Keeps.refl _ _) (by rintro _ ⟨⟩; exact hf)
  | some f =>
    exact h.ends_ok ((Volume.Consistent.seekId_yields hf position _).bind (Yields.pure _ _)) rfl
      (h.consistent.setOpen_seek hf position) (.sought position hf)
      fun _ _ _ => h.opened_set (by rintro g ⟨⟩; exact ⟨f, hf, rfl⟩)

theorem ends_readId (h : u.Sound inv) (id count : Nat) : u.Ends inv (.readId id count) := by
  cases hf : u.volume.openFiles.get? id with
  | none =>
    exact h.ends_error (Volume.readId_fails hf count _).bind_error (Disk.Keeps.refl _ _)
      (by rintro _ ⟨⟩; exact hf)
  | some f =>
    obtain ⟨x, hx, hsector, hheader⟩ := h.consistent.open_files id f hf
    obtain ⟨⟨content, hfile⟩, hstored⟩ := h.consistent.held.nodes x hx
    have hy := h.consistent.readId_yields hf hheader hfile count
    refine h.ends_ok (hy.bind (Yields.pure _ _)) rfl
      (h.consistent.setOpen_seek hf _) (.read count hf fun s hs hs' => ?_)
      fun _ _ _ => h.opened_set (by rintro g ⟨⟩; exact ⟨f, hf, rfl⟩)
    obtain rfl : x = .inl s := h.consistent.eq_of_sector hx hs (hsector.trans hs'.symm)
    rw [hfile.content_unique (hstored s rfl)]

theorem ends_openId (h : u.Sound inv) (path : String) : u.Ends inv (.openId path) := by
  have hy := h.consistent.openId_yields path
  cases hlocate : inv.locate path with
  | error e =>
    rw [hlocate] at hy
    exact h.ends_error (Yields.bind_error hy) (Disk.Keeps.refl _ _) (by rintro _ ⟨⟩)
  | ok q =>
    obtain ⟨kind, p⟩ := q
    rw [hlocate] at hy
    cases hinsert : u.volume.openFiles.insert p.handle with
    | error e =>
      have hy : Yields (u.volume.openId path) u.drive.disk (.error e) u.drive.disk := by
        simpa only [Except.bind, hinsert, Except.map] using hy
      exact h.ends_error (Yields.bind_error hy) (Disk.Keeps.refl _ _) (by rintro _ ⟨⟩)
    | ok r =>
      obtain ⟨id, t⟩ := r
      obtain ⟨u', hcall, hd, hk, hvolume, hopened, hsizes⟩ :=
        call_openId h.fault_free h.consistent.toLegible hlocate hinsert
      have hv := h.consistent.opened hlocate hinsert
      rw [← hk, ← hvolume] at hv
      unfold Ends
      rw [hcall, ← hk]
      refine ⟨inv, hvolume ▸ .opened hlocate hinsert,
        ⟨hd, hv, fun i g hg x hx hsector => ?_, hsizes ▸ h.sizes⟩, Disk.Keeps.refl _ _⟩
      obtain ⟨rfl, hlt, -⟩ := HandleTable.insert_eq_ok hinsert
      rw [hvolume] at hg
      rw [hopened]
      by_cases hi : i = id
      · subst hi
        obtain ⟨y, hy, hplace, hkind⟩ := Inventory.locate_mem hlocate
        rw [Function.update_self]
        rw [HandleTable.get?_set, if_pos ⟨rfl, hlt⟩] at hg
        cases hg
        rw [h.consistent.eq_of_sector hx hy (by rw [hsector, hplace]; rfl), hkind]
      · rw [Function.update_of_ne hi]
        rcases HandleTable.get?_set_eq_some hg with ⟨rfl, -⟩ | hg
        · exact absurd rfl hi
        · exact h.opened i g hg x hx hsector

theorem ends_writeId (h : u.Sound inv) {id : Nat} {bytes : Bytes}
    (hq : (Request.writeId id bytes).Permitted u) : u.Ends inv (.writeId id bytes) := by
  cases hf : u.volume.openFiles.get? id with
  | none =>
    exact h.ends_error (Volume.writeId_fails hf bytes _).bind_error (Disk.Keeps.refl _ _)
      (by rintro _ ⟨⟩; exact hf)
  | some f =>
    obtain ⟨x, hx, hsector, hheader⟩ := h.consistent.open_files id f hf
    have hkind : kindOf x = .file :=
      Option.some.inj ((h.opened id f hf x hx hsector).symm.trans (hq f hf))
    cases x with
    | inr p => cases hkind
    | inl s =>
      obtain ⟨k', hy, hkeep, hv⟩ := h.consistent.writeId_yields hf hx hsector hheader bytes
      obtain ⟨new, hnew⟩ : ∃ new, new = bytes.take (s.content.length - f.position) := ⟨_, rfl⟩
      rw [← hnew] at hy hv
      obtain ⟨u', hcall, hd, rfl, hvolume, hopened, hsizes⟩ := call_writeId h.fault_free hy
      rw [← hvolume] at hv
      unfold Ends
      rw [hcall]
      refine ⟨_, hvolume ▸ .written hf hx hsector hnew, ⟨hd, hv, fun i g hg y hy hysector => ?_,
        fun y hy => ?_⟩, hkeep.sameSize⟩
      · rw [Inventory.nodes_replace] at hy
        obtain ⟨z, hz, rfl⟩ := List.mem_map.mp hy
        rw [place_replace (Volume.place_rewrite _ _)] at hysector
        rw [kindOf_replace, hopened]
        rw [hvolume] at hg
        exact h.opened_set (by rintro g ⟨⟩; exact ⟨f, hf, rfl⟩) i g hg z hz hysector
      · rw [Inventory.nodes_replace] at hy
        obtain ⟨z | p, hz, heq⟩ := List.mem_map.mp hy
        · cases heq
          rw [Volume.place_rewrite, hsizes]
          refine (h.sizes z hz).trans (congrArg some ?_)
          unfold Volume.rewrite
          split
          · rename_i hsame
            cases h.consistent.eq_of_sector hz hx (hsame.trans hsector.symm)
            rw [hnew, Volume.length_splice_take]
          · rfl
        · cases heq

theorem ends_mount (h : u.Sound inv) : u.Ends inv .mount := by
  obtain ⟨hv, hy⟩ := h.consistent.mount_yields
  refine h.ends_ok (hy.bind (Yields.pure _ _)) rfl hv .mounted fun _ _ _ i g hg => ?_
  rw [HandleTable.get?_empty] at hg
  cases hg

/-! ### Making and removing -/

/-- A sector is in use in the free map just if it belongs to a file. -/
theorem uses_iff (hd : u.drive.FaultFree) (hv : u.volume.Consistent u.drive.disk inv) (s : Nat) :
    u.uses s = true ↔ s ∈ inv.sectors := by
  unfold uses
  rw [ask_eq hd hv.freeMap_yields]
  exact hv.used s

theorem ends_made (h : u.Sound inv) {q : Request} {path : String} {kind : Kind} {size : Nat}
    (hq : q.makes = some (path, kind, size))
    (hperform : q.perform u.volume = do u.volume.make path kind size; return (.done, u.volume))
    (hdir : kind = .directory → size = Layout.directorySize)
    (hopened : ∀ next, u.openedBy next q .done = u.opened) : u.Ends inv q := by
  rcases h.consistent.make_cases path kind size hdir with
    ⟨e, k', -, hy, hkeep⟩ | ⟨p, slots, k', content, hlength, hslots, hy, hsame, hv⟩
  · refine h.ends_error (hperform ▸ hy.bind_error) hkeep fun id hid => ?_
    cases (Request.onId_of_makes hq).symm.trans hid
  · have hrun : Yields (q.perform u.volume) u.drive.disk (.ok (.done, u.volume)) k' := by
      rw [hperform]
      exact hy.bind (Yields.pure _ _)
    obtain ⟨d, hd, rfl, hcall⟩ := call_ok h.fault_free hrun
    have hnodes := Inventory.insert_nodes hslots ⟨inv.mapFile.place, content⟩
    have hsectors := Inventory.insert_sectors hslots content
    rw [Node.sectors_blank] at hsectors
    obtain ⟨y, hy, hplace, -, hzeros⟩ := Node.nodes_blank kind p size
    rw [hy] at hnodes
    have hnext : (u.next q .done d u.volume).Sound
        ⟨⟨inv.mapFile.place, content⟩, inv.root, slots⟩ := by
      have hp : p.sector ∉ inv.sectors := by
        refine Inventory.insert_fresh hslots hv.nodup ?_
        rw [Node.sectors_blank]
        exact List.mem_cons_self
      refine ⟨hd, hv, fun i g hg x hx hsector => ?_, fun s hs => ?_⟩
      · show u.openedBy _ q .done i = _
        rw [hopened]
        rcases List.mem_append.mp (hnodes.mem_iff.mp hx) with hx | hx
        · exact h.opened i g hg x hx hsector
        -- no file is open in the new sector
        · obtain ⟨z, hz, hzg, -⟩ := h.consistent.open_files i g hg
          rw [List.mem_singleton.mp hx, hplace, ← hzg] at hsector
          exact absurd (Inventory.sector_mem hz) (hsector ▸ hp)
      · show u.sizesBy { u with drive := d } q s.place.sector = _
        unfold sizesBy
        rw [hq]
        dsimp only
        rcases List.mem_append.mp (hnodes.mem_iff.mp hs) with hs | hs
        · have hin : u.uses s.place.sector = true :=
            (uses_iff h.fault_free h.consistent _).mpr (Inventory.sector_mem hs)
          rw [hin, Bool.not_true, Bool.and_false, if_neg Bool.false_ne_true]
          exact h.sizes s hs
        · obtain rfl : y = .inl s := (List.mem_singleton.mp hs).symm
          obtain rfl : s.place = p := hplace
          have hin : ({ u with drive := d } : Usage).uses s.place.sector = true :=
            (uses_iff hd hv _).mpr
              (hsectors.mem_iff.mpr (List.mem_append_right _ List.mem_cons_self))
          have hout : u.uses s.place.sector = false := Bool.eq_false_iff.mpr fun hin =>
            hp ((uses_iff h.fault_free h.consistent _).mp hin)
          rw [hin, hout, Bool.not_false, Bool.and_self, if_pos rfl, hzeros s rfl,
            Bytes.length_zeros]
    unfold Ends
    rw [hcall]
    exact ⟨_, .made content hq hlength hslots, hnext, hsame⟩

theorem ends_remove (h : u.Sound inv) (path : String) (recursive : Bool) :
    u.Ends inv (.remove path recursive) := by
  rcases h.consistent.remove_cases path recursive with
    ⟨e, -, hy⟩ | ⟨e, t, slots, k', content, hfind, hslots, hy, hsame, hv⟩
  · exact h.ends_error (Yields.bind_error hy) (Disk.Keeps.refl _ _) (by rintro _ ⟨⟩)
  · have hperform : Yields ((Request.remove path recursive).perform u.volume) u.drive.disk
        (.ok (.done, u.volume)) k' := hy.bind (Yields.pure _ _)
    obtain ⟨d, hd, rfl, hcall⟩ := call_ok h.fault_free hperform
    have hstays : ∀ x ∈ (⟨⟨inv.mapFile.place, content⟩, inv.root, slots⟩ : Inventory).tree.nodes,
        x ∈ inv.tree.nodes := fun x hx =>
      (Inventory.erase_nodes hslots hfind _).mem_iff.mpr (List.mem_append_left _ hx)
    unfold Ends
    rw [hcall]
    exact ⟨_, .removed content hfind hslots, ⟨hd, hv,
      fun i g hg x hx hsector => h.opened i g hg x (hstays x hx) hsector,
      fun s hs => h.sizes s (hstays _ hs)⟩, hsame⟩

/-- **A permitted call** has one of the effects, and the invariant holds again. -/
theorem call (h : u.Sound inv) {q : Request} (hq : q.Permitted u) : u.Ends inv q := by
  cases q with
  | create path size => exact h.ends_made rfl rfl (by rintro ⟨⟩) fun _ => rfl
  | makeDirectory path => exact h.ends_made rfl rfl (fun _ => rfl) fun _ => rfl
  | remove path recursive => exact h.ends_remove path recursive
  | openId path => exact h.ends_openId path
  | closeId id => exact h.ends_closeId id
  | seekId id position => exact h.ends_seekId id position
  | readId id count => exact h.ends_readId id count
  | writeId id bytes => exact h.ends_writeId hq
  | mount => exact h.ends_mount
  | _ => exact h.ends_look trivial

end Sound

/-! ## Runs -/

/-- **The invariant holds after a format**, when nothing is in the root directory. -/
theorem sound_of_format {blank : Drive} (hblank : blank.FaultFree)
    (hlimit : blank.device.sectors ≤ Link.limit) {v : Volume} {d : Drive}
    (hformat : Volume.format blank = .ok v d) :
    ∃ inv, ({ drive := d, volume := v } : Usage).Sound inv ∧ blank.disk.SameSize d.disk ∧
      inv.slots = List.replicate Layout.directorySlots none ∧
      v.openFiles = .empty Layout.maxOpen := by
  obtain ⟨inv, hd, hv, hslots, hopen, hsame⟩ :=
    Volume.exists_inventory_of_format hblank hlimit hformat
  refine ⟨inv, ⟨hd, hv, fun id f hf => ?_, fun s hs => ?_⟩, hsame, hslots, hopen⟩
  · rw [hopen, HandleTable.get?_empty] at hf
    cases hf
  · rw [Inventory.tree_nodes, hslots] at hs
    unfold Slots.nodes Slots.children at hs
    rw [List.reduceOption_replicate_none] at hs
    cases List.mem_singleton.mp hs

/-- A small volume after a format: all sectors but 14 are free. -/
theorem exists_formatted : ∃ v d inv, Volume.format { device := .blank 64 128 } = .ok v d ∧
    ({ drive := d, volume := v } : Usage).Sound inv ∧ d.disk.dataSize = 120 ∧
    d.disk.sectors = 64 ∧ inv.slots = List.replicate Layout.directorySlots none ∧
    inv.sectors.length = 14 ∧ v.openFiles = .empty Layout.maxOpen := by
  have hblank := Drive.faultFree_blank 64 128
  obtain ⟨v, d, hformat⟩ := (Volume.format_ok_iff hblank (by decide)).mpr (by decide)
  obtain ⟨inv, hu, hsame, hslots, hopen⟩ := sound_of_format hblank (by decide) hformat
  have hdata : d.disk.dataSize = 120 := hsame.dataSize
  have hsectors : d.disk.sectors = 64 := hsame.sectors
  refine ⟨v, d, inv, hformat, hu, hdata, hsectors, hslots, ?_, hopen⟩
  have hcount := hu.consistent.length_sectors_empty hslots
  rw [hcount, hdata, hsectors]
  decide

/-- A run that goes on from a state of a run is one. -/
theorem Onward.reached {blank : Drive} {allowed : Request → Prop} {u₀ u : Usage}
    (h : Onward allowed u₀ u) (h₀ : Reached blank u₀) : Reached blank u := by
  induction h with
  | start => exact h₀
  | call q _ hq _ ih => exact ih.call q hq

/-- **The invariant holds in every state of a run**, and the disk has the size of the one that was
formatted. -/
theorem Reached.sound {blank : Drive} (hblank : blank.FaultFree)
    (hlimit : blank.device.sectors ≤ Link.limit) {u : Usage} (h : Reached blank u) :
    ∃ inv, u.Sound inv ∧ blank.disk.SameSize u.drive.disk := by
  induction h with
  | format hformat =>
    obtain ⟨inv, hu, hsame, -⟩ := sound_of_format hblank hlimit hformat
    exact ⟨inv, hu, hsame⟩
  | call q _ hq ih =>
    obtain ⟨inv, hu, hsame⟩ := ih
    obtain ⟨inv', -, hu', hsame'⟩ := hu.call hq
    exact ⟨inv', hu', hsame.trans hsame'⟩

end Usage

end SectorChain
