import SectorChain.Proofs.Interruptions
import SectorChain.Proofs.Remounting
import SectorChain.Proofs.Updates
import Mathlib.Order.Bounds.Basic

/-!
# The table of open files as a bounded map

A table of open files is a map from ids to open files with room for a fixed number of them. A new
file takes the least id that is not open, and everything else goes through an id: it is refused if
the id is not open, and concerns no other id if it is. The device, its faults and what is stored on
it play no part in this.

* `FileUse`, `HandleTable.Use`: what is done to an open file, and to a table.
* `TableState.call`, `TableState.run`: one use of a table on a drive, and one after the other.
* `TableStep`, `TableRun`: the same on a map, which says for each use when it answers, what it
  answers, and what it changes.
* `TableState.Bounded capacity s`: what a table tells about its map, and how it answers.

Results:
* `perform_failsByDamage`: what is done to an open file fails only by damage.
* `leastFree?_eq_some_iff`, `leastFree?_eq_none_iff`: the id that a new file takes.
* `mirrors`, `run_steps`: a table does what its map does, in one use and in a run.
* `bounded_of_length`: a table of `capacity` slots is bounded.
* `bounded_map`: both, for every run from an empty table.
* `Request.perform_eq_use`, `Volume.openId_eq_use`: the calls on a volume that are uses of its
  table.
-/

namespace SectorChain

/-! ## Errors of damage -/

/-- **The operation fails only by damage**, on every drive and under all faults. -/
def FailsByDamage {α : Type} (x : DriveM α) : Prop :=
  ∀ d e d', x d = .error e d' → e.isDamage = true

namespace FailsByDamage

variable {α β : Type} {x : DriveM α} {f : α → DriveM β}

theorem pure (a : α) : FailsByDamage (Pure.pure a) := by
  rintro d e d' ⟨⟩

theorem corrupt (cause : Corruption) : FailsByDamage (Drive.corrupt cause : DriveM α) := by
  rintro d e d' ⟨⟩
  rfl

theorem bind (hx : FailsByDamage x) (hf : ∀ a, FailsByDamage (f a)) : FailsByDamage (x >>= f) := by
  intro d e d' h
  cases hrun : x d with
  | ok a d₁ =>
    rw [run_bind_ok hrun] at h
    exact hf a d₁ e d' h
  | error x d₁ =>
    rw [run_bind_error hrun] at h
    cases h
    exact hx d e d' hrun

theorem decoded (r : Except RecordError α) : FailsByDamage (Drive.decoded r) := by
  cases r with
  | ok a => exact pure a
  | error e =>
    rintro d e' d' ⟨⟩
    rfl

theorem note (n : Note) : FailsByDamage (Drive.note n) := by
  rintro d e d' ⟨⟩

theorem dataSize : FailsByDamage Drive.dataSize := by
  rintro d e d' ⟨⟩

theorem readSector (s : Nat) : FailsByDamage (Drive.readSector s) := by
  intro d e d' h
  cases hfails : d.faults d.tally (.read s) with
  | true =>
    rw [Drive.readSector_fails hfails] at h
    cases h
    rfl
  | false =>
    rw [Drive.readSector_passes hfails] at h
    cases hread : d.device.read s d.device.sectorSize with
    | ok bytes =>
      rw [hread] at h
      cases h
    | error x =>
      rw [hread] at h
      cases h
      rfl

theorem writeSector (s : Nat) (bytes : Bytes) : FailsByDamage (Drive.writeSector s bytes) := by
  intro d e d' h
  cases hfails : d.faults d.tally (.write s) with
  | true =>
    rw [Drive.writeSector_fails hfails] at h
    cases h
    rfl
  | false =>
    cases hcheck : d.device.checkWrite s bytes with
    | ok _ =>
      rw [Drive.writeSector_passes hfails hcheck] at h
      cases h
    | error x =>
      rw [Drive.writeSector_refused hfails hcheck] at h
      cases h
      rfl

theorem fetch (s : Nat) : FailsByDamage (Block.fetch s) := by
  refine (readSector s).bind fun _ => (decoded _).bind fun p => ?_
  obtain ⟨own, next, data⟩ := p
  dsimp only
  split
  · exact pure _
  · exact corrupt _

theorem store (b : Block) : FailsByDamage b.store := (note _).bind fun _ => writeSector _ _

theorem follow (blocks hops index : Nat) (block : Block) :
    FailsByDamage (Header.follow blocks hops index block) := by
  induction hops generalizing index block with
  | zero => exact pure _
  | succ hops ih =>
    unfold Header.follow
    cases block.next with
    | none => exact corrupt _
    | some s => exact (fetch s).bind fun b => ih (index + 1) b

theorem blockAt (h : Header) (offset : Nat) : FailsByDamage (h.blockAt offset) := by
  refine dataSize.bind fun _ => ?_
  dsimp only
  split
  · exact corrupt _
  · split
    · exact corrupt _
    · exact (fetch _).bind fun b => follow _ _ _ b

theorem readBlocks (f : Handle) (data count i : Nat) :
    FailsByDamage (f.readBlocks data count i) := by
  induction count generalizing i with
  | zero => exact pure _
  | succ count ih =>
    exact (blockAt f.header _).bind fun _ => (ih (i + 1)).bind fun _ => pure _

theorem writeBlocks (f : Handle) (data count : Nat) (bytes : Bytes) (pos : Nat) :
    FailsByDamage (f.writeBlocks data count bytes pos) := by
  induction count generalizing bytes pos with
  | zero => exact pure _
  | succ count ih =>
    exact (blockAt f.header _).bind fun _ => (store _).bind fun _ => ih _ _

theorem read (f : Handle) (count : Nat) : FailsByDamage (f.read count) := by
  rw [Handle.read_eq]
  refine bind ?_ fun _ => pure _
  unfold Handle.readAt
  split
  · exact pure _
  · exact (note _).bind fun _ => dataSize.bind fun _ => (readBlocks f _ _ _).bind fun _ => pure _

theorem write (f : Handle) (bytes : Bytes) : FailsByDamage (f.write bytes) := by
  rw [Handle.write_eq]
  refine bind ?_ fun _ => pure _
  unfold Handle.writeAt
  split
  · exact pure _
  · exact (note _).bind fun _ => dataSize.bind fun _ =>
      (writeBlocks f _ _ _ _).bind fun _ => pure _

end FailsByDamage

/-! ## What is done to an open file -/

/-- What is done to an open file. -/
inductive FileUse where
  | look
  | seek (position : Nat)
  | read (count : Nat)
  | write (bytes : Bytes)

namespace FileUse

open UpdateM (lent put beside)

/-- Do it to an open file that is lent. -/
def serve : FileUse → UpdateM Handle Answer
  | .look => return .handle (← lent)
  | .seek position => do
    let f ← lent
    put (f.seek position)
    return .done
  | .read count => do
    let (n, buffer) ← beside (Bytes.zeros count) Handle.readOn
    return .bytes (buffer.take n)
  | .write bytes => return .count (← Handle.writeOn bytes)

theorem serve_allOrNothing (act : FileUse) (f : Handle) : AllOrNothing act.serve f := by
  cases act with
  | look => exact .lent (.pure _)
  | seek position => exact .lent <| .before (.put _) fun _ _ => ⟨_, _, rfl⟩
  | read count => exact .before (.beside (f.readOn_allOrNothing _)) fun _ _ => ⟨_, _, rfl⟩
  | write bytes => exact .before (f.writeOn_allOrNothing bytes) fun _ _ => ⟨_, _, rfl⟩

/-- The answer, and an open file of one's own then. -/
def perform (f : Handle) : FileUse → DriveM (Answer × Handle)
  | .look => return (.handle f, f)
  | .seek position => return (.done, f.seek position)
  | .read count => do
    let (bytes, f) ← f.read count
    return (.bytes bytes, f)
  | .write bytes => do
    let (n, f) ← f.write bytes
    return (.count n, f)

theorem serve_on (act : FileUse) (f : Handle) : act.serve.on f = act.perform f := by
  cases act with
  | look => rfl
  | seek position => rfl
  | read count => simp [serve, perform, Handle.read]
  | write bytes => simp [serve, perform, Handle.write]

/-- The position after an answer. -/
def lands (f : Handle) : FileUse → Answer → Nat
  | .seek position, _ => position
  | .read _, .bytes bytes => f.position + bytes.length
  | .write _, .count n => f.position + n
  | _, _ => f.position

variable {f f' : Handle} {act : FileUse} {a : Answer} {d d' : Drive}

theorem perform_failsByDamage (f : Handle) (act : FileUse) : FailsByDamage (act.perform f) := by
  cases act with
  | look => exact FailsByDamage.pure _
  | seek position => exact FailsByDamage.pure _
  | read count => exact (FailsByDamage.read f count).bind fun _ => FailsByDamage.pure _
  | write bytes => exact (FailsByDamage.write f bytes).bind fun _ => FailsByDamage.pure _

/-- An open file stays what it is; only its position moves. -/
theorem perform_eq_ok (h : act.perform f d = .ok (a, f') d') :
    f' = { f with position := act.lands f a } := by
  cases act with
  | look =>
    cases h
    rfl
  | seek position =>
    cases h
    rfl
  | read count =>
    cases hread : f.readAt count f.position d with
    | ok bytes d₁ =>
      simp only [perform, Handle.read_eq, bind, EStateM.bind, hread] at h
      cases h
      rfl
    | error e d₁ =>
      simp only [perform, Handle.read_eq, bind, EStateM.bind, hread] at h
      cases h
  | write bytes =>
    cases hwrite : f.writeAt bytes f.position d with
    | ok n d₁ =>
      simp only [perform, Handle.write_eq, bind, EStateM.bind, hwrite] at h
      cases h
      rfl
    | error e d₁ =>
      simp only [perform, Handle.write_eq, bind, EStateM.bind, hwrite] at h
      cases h

end FileUse

/-! ## Uses of a table -/

namespace HandleTable

/-- What is asked of a table of open files. -/
inductive Use where
  | insert (f : Handle)
  | file (id : Nat) (act : FileUse)
  | close (id : Nat)

namespace Use

open UpdateM (lent within)

/-- Do it to a table that is lent. -/
def serve : Use → UpdateM HandleTable Answer
  | .insert f => return .id (← addFile f)
  | .file id act => do
    let f ← (← lent).fetch id
    within (fun _ => f) (fun t f => t.set id (some f)) act.serve
  | .close id => do
    closeFile id
    return .done

theorem serve_allOrNothing (u : Use) (t : HandleTable) : AllOrNothing u.serve t := by
  cases u with
  | insert f => exact .before (addFile_allOrNothing f t) fun _ _ => ⟨_, _, rfl⟩
  | file id act =>
    exact .lent <| .after fun f hf => .within (act.serve_allOrNothing f) (set_of_fetch hf)
  | close id => exact .before (closeFile_allOrNothing id t) fun _ _ => ⟨_, _, rfl⟩

/-- The answer, and a table of one's own then. -/
def perform (t : HandleTable) : Use → DriveM (Answer × HandleTable)
  | .insert f => do
    let (id, t) ← Drive.ofExcept (t.insert f)
    return (.id id, t)
  | .file id act => do
    let (a, f) ← act.perform (← t.fetch id)
    return (a, t.set id (some f))
  | .close id => return (.done, ← t.close id)

theorem serve_on (u : Use) (t : HandleTable) : u.serve.on t = u.perform t := by
  cases u with
  | insert f => simp [serve, perform, addFile_on]
  | file id act => simp [serve, perform, FileUse.serve_on]
  | close id => simp [serve, perform, HandleTable.close]

/-- The id that must be open, and the note that is left if it is not. -/
def needs? : Use → Option (Nat × Note)
  | .insert _ => none
  | .file id _ => some (id, .idNotOpen id)
  | .close id => some (id, .closeNotOpen id)

end Use

variable {t : HandleTable} {id : Nat}

/-- A slot of the table is an id of the map. -/
theorem isNone_getElem (h : id < t.slots.length) :
    t.slots[id].isNone = true ↔ t.get? id = none := by
  unfold get?
  rw [List.getElem?_eq_getElem h, Option.isNone_iff_eq_none]
  rfl

/-- **The id that a new file takes.** -/
theorem leastFree?_eq_some_iff :
    t.leastFree? = some id ↔ IsLeast {i | i < t.slots.length ∧ t.get? i = none} id := by
  unfold leastFree?
  rw [List.findIdx?_eq_some_iff_getElem]
  constructor
  · rintro ⟨hlt, hfree, hleast⟩
    refine ⟨⟨hlt, (isNone_getElem hlt).mp hfree⟩, fun j hj => Nat.le_of_not_lt fun hlt' => ?_⟩
    exact hleast j hlt' ((isNone_getElem hj.1).mpr hj.2)
  · rintro ⟨⟨hlt, hfree⟩, hleast⟩
    refine ⟨hlt, (isNone_getElem hlt).mpr hfree, fun j hj hfree' => ?_⟩
    exact Nat.not_le.mpr hj (hleast ⟨hj.trans hlt, (isNone_getElem (hj.trans hlt)).mp hfree'⟩)

theorem leastFree?_eq_none_iff : t.leastFree? = none ↔ ∀ i < t.slots.length, t.get? i ≠ none := by
  unfold leastFree?
  rw [List.findIdx?_eq_none_iff, List.forall_mem_iff_getElem]
  refine forall₂_congr fun i hi => ?_
  rw [Ne, ← isNone_getElem hi, Bool.not_eq_true]

theorem get?_set_eq_update (h : id < t.slots.length) (slot : Option Handle) :
    (t.set id slot).get? = Function.update t.get? id slot := by
  funext j
  rw [get?_set, Function.update_apply]
  simp only [h, and_true, eq_comm]

theorem length_set (t : HandleTable) (id : Nat) (slot : Option Handle) :
    (t.set id slot).slots.length = t.slots.length := List.length_set

/-- A file is held just if an id is open that has its header. -/
theorem holds_iff {sector : Nat} :
    t.holds sector = true ↔ ∃ id f, t.get? id = some f ∧ f.sector = sector := by
  constructor
  · intro h
    obtain ⟨slot, hmem, hslot⟩ := List.any_eq_true.mp h
    obtain ⟨id, hid⟩ := List.mem_iff_getElem?.mp hmem
    cases slot with
    | none => cases hslot
    | some f => exact ⟨id, f, Option.join_eq_some_iff.mpr hid, beq_iff_eq.mp hslot⟩
  · rintro ⟨id, f, hf, rfl⟩
    exact holds_of_get? hf

end HandleTable

/-- A table of open files on a drive. -/
structure TableState where
  table : HandleTable
  drive : Drive

/-! ## The map of open files -/

open HandleTable (Use)

/-- **One use of a map of open files with room for `capacity`**, on a drive: the answer, and map and
drive then. -/
inductive TableStep (capacity : Nat) (m : Nat → Option Handle) (d : Drive) :
    Use → Except VolumeError Answer → (Nat → Option Handle) → Drive → Prop
  | inserted {f : Handle} {id : Nat} (hid : IsLeast {i | i < capacity ∧ m i = none} id) :
      TableStep capacity m d (.insert f) (.ok (.id id)) (Function.update m id (some f)) d
  | full {f : Handle} (hfull : ∀ i < capacity, m i ≠ none) :
      TableStep capacity m d (.insert f) (.error .tooManyOpen) m d
  | used {id : Nat} {f : Handle} {act : FileUse} {a : Answer} {f' : Handle} {d' : Drive}
      (hopen : m id = some f) (hrun : act.perform f d = .ok (a, f') d') :
      TableStep capacity m d (.file id act) (.ok a)
        (Function.update m id (some { f with position := act.lands f a })) d'
  | damaged {id : Nat} {f : Handle} {act : FileUse} {e : VolumeError} {d' : Drive}
      (hopen : m id = some f) (hrun : act.perform f d = .error e d') (he : e.isDamage = true) :
      TableStep capacity m d (.file id act) (.error e) m d'
  | closed {id : Nat} {f : Handle} (hopen : m id = some f) :
      TableStep capacity m d (.close id) (.ok .done) (Function.update m id none) d
  | notOpen {u : Use} {id : Nat} {n : Note} (hu : u.needs? = some (id, n)) (hclosed : m id = none) :
      TableStep capacity m d u (.error (.notOpen id)) m { d with notes := d.notes.push n }

/-- Uses of such a map, one after the other, and the answers. -/
inductive TableRun (capacity : Nat) : (Nat → Option Handle) → Drive → List Use →
    List (Except VolumeError Answer) → (Nat → Option Handle) → Drive → Prop
  | nil {m : Nat → Option Handle} {d : Drive} : TableRun capacity m d [] [] m d
  | cons {m m₁ m₂ : Nat → Option Handle} {d d₁ d₂ : Drive} {u : Use} {us : List Use}
      {r : Except VolumeError Answer} {rs : List (Except VolumeError Answer)}
      (hstep : TableStep capacity m d u r m₁ d₁) (hrun : TableRun capacity m₁ d₁ us rs m₂ d₂) :
      TableRun capacity m d (u :: us) (r :: rs) m₂ d₂

namespace TableStep

variable {capacity id : Nat} {m m' : Nat → Option Handle} {d d' : Drive} {u : Use} {f : Handle}
  {r : Except VolumeError Answer} {e : VolumeError}

theorem insert_ok_iff (h : TableStep capacity m d (.insert f) r m' d') :
    r = .ok (.id id) ↔ IsLeast {i | i < capacity ∧ m i = none} id := by
  cases h with
  | inserted hid =>
    constructor
    · rintro ⟨⟩
      exact hid
    · intro hid'
      rw [hid.unique hid']
  | full hfull =>
    constructor
    · rintro ⟨⟩
    · rintro ⟨⟨hlt, hfree⟩, -⟩
      exact absurd hfree (hfull id hlt)
  | notOpen hu hclosed => cases hu

theorem insert_error_iff (h : TableStep capacity m d (.insert f) r m' d') :
    r = .error .tooManyOpen ↔ ∀ i < capacity, m i ≠ none := by
  cases h with
  | inserted hid =>
    constructor
    · rintro ⟨⟩
    · intro hfull
      exact absurd hid.1.2 (hfull _ hid.1.1)
  | full hfull => exact iff_of_true rfl hfull
  | notOpen hu hclosed => cases hu

/-- What is open is never refused: an operation on it fails by damage only. -/
theorem error_notOpen_iff {n : Note} (h : TableStep capacity m d u r m' d')
    (hu : u.needs? = some (id, n)) : r = .error (.notOpen id) ↔ m id = none := by
  cases h with
  | inserted | full => cases hu
  | used hopen | closed hopen =>
    cases hu
    rw [hopen]
    exact iff_of_false (by rintro ⟨⟩) (by rintro ⟨⟩)
  | damaged hopen hrun he =>
    cases hu
    rw [hopen]
    refine iff_of_false ?_ (by rintro ⟨⟩)
    rintro ⟨⟩
    cases he
  | notOpen hu' hclosed =>
    cases hu.symm.trans hu'
    exact iff_of_true rfl hclosed

theorem failed (h : TableStep capacity m d u (.error e) m' d') (he : e.isDamage = false) :
    ∃ notes, d' = { d with notes } := by
  cases h with
  | full => exact ⟨_, rfl⟩
  | damaged hopen hrun hdamage => exact absurd he (by rw [hdamage]; decide)
  | notOpen => exact ⟨_, rfl⟩

/-- **Only the id that is used or taken changes.** -/
theorem others {j : Nat} (h : TableStep capacity m d u r m' d')
    (hu : u.needs?.map Prod.fst ≠ some j) (hr : r ≠ .ok (.id j)) : m' j = m j := by
  cases h with
  | inserted => exact Function.update_of_ne (fun hj => hr (by rw [hj])) _ _
  | used | closed => exact Function.update_of_ne (fun hj => hu (by rw [hj]; rfl)) _ _
  | full | damaged | notOpen => rfl

end TableStep

namespace TableState

/-- One use of the table: the answer or error, and table and drive as they were left. -/
def call (s : TableState) (u : Use) : Except VolumeError Answer × TableState :=
  match u.serve (s.table, s.drive) with
  | .ok a (t, d) => (.ok a, ⟨t, d⟩)
  | .error e (t, d) => (.error e, ⟨t, d⟩)

/-- Uses one after the other, whether they answer or fail. -/
def run (s : TableState) : List Use → List (Except VolumeError Answer) × TableState
  | [] => ([], s)
  | u :: us =>
    let (r, s) := s.call u
    let (rs, s) := s.run us
    (r :: rs, s)

variable {s : TableState} {capacity id : Nat}

theorem call_ok {u : Use} {a : Answer} {t : HandleTable} {d : Drive}
    (h : u.perform s.table s.drive = .ok (a, t) d) : s.call u = (.ok a, ⟨t, d⟩) := by
  unfold call
  rw [(u.serve_allOrNothing s.table).run_eq, u.serve_on, h]
  rfl

/-- A use that fails leaves the table as it was. -/
theorem call_error {u : Use} {e : VolumeError} {d : Drive}
    (h : u.perform s.table s.drive = .error e d) :
    s.call u = (.error e, { s with drive := d }) := by
  unfold call
  rw [(u.serve_allOrNothing s.table).run_eq, u.serve_on, h]
  rfl

/-- **An id that is not open is refused.** -/
theorem call_notOpen {u : Use} {n : Note} (hu : u.needs? = some (id, n))
    (h : s.table.get? id = none) : s.call u = (.error (.notOpen id),
      { s with drive := { s.drive with notes := s.drive.notes.push n } }) := by
  cases u with
  | insert f => cases hu
  | file i act =>
    cases hu
    refine call_error ?_
    simp only [Use.perform, HandleTable.fetch, h]
    rfl
  | close i =>
    cases hu
    refine call_error ?_
    simp only [Use.perform, HandleTable.close_eq, h]
    rfl

/-- **What a use does to a table** is what it does to its map, and the table keeps its slots. -/
def Mirrors (s : TableState) (u : Use) : Prop :=
  TableStep s.table.slots.length s.table.get? s.drive u (s.call u).1 (s.call u).2.table.get?
      (s.call u).2.drive ∧
    (s.call u).2.table.slots.length = s.table.slots.length

section

variable {u : Use} {r : Except VolumeError Answer} {d : Drive}

theorem mirrors_of_set {slot : Option Handle} (hid : id < s.table.slots.length)
    (hcall : s.call u = (r, ⟨s.table.set id slot, d⟩))
    (h : TableStep s.table.slots.length s.table.get? s.drive u r
      (Function.update s.table.get? id slot) d) : s.Mirrors u := by
  unfold Mirrors
  rw [hcall]
  dsimp only
  rw [HandleTable.get?_set_eq_update hid]
  exact ⟨h, HandleTable.length_set _ _ _⟩

theorem mirrors_of_same (hcall : s.call u = (r, { s with drive := d }))
    (h : TableStep s.table.slots.length s.table.get? s.drive u r s.table.get? d) :
    s.Mirrors u := by
  unfold Mirrors
  rw [hcall]
  exact ⟨h, rfl⟩

theorem mirrors_of_notOpen {n : Note} (hu : u.needs? = some (id, n))
    (h : s.table.get? id = none) : s.Mirrors u :=
  mirrors_of_same (call_notOpen hu h) (.notOpen hu h)

end

theorem insert_mirrors (s : TableState) (f : Handle) : s.Mirrors (.insert f) := by
  cases hfree : s.table.leastFree? with
  | none =>
    have hcall : s.call (.insert f) = (.error .tooManyOpen, s) := by
      refine call_error ?_
      simp only [Use.perform, HandleTable.insert, hfree]
      rfl
    exact mirrors_of_same hcall (.full (HandleTable.leastFree?_eq_none_iff.mp hfree))
  | some id =>
    have hid := HandleTable.leastFree?_eq_some_iff.mp hfree
    have hcall : s.call (.insert f) =
        (.ok (.id id), { s with table := s.table.set id (some f) }) := by
      refine call_ok ?_
      simp only [Use.perform, HandleTable.insert, hfree]
      rfl
    exact mirrors_of_set hid.1.1 hcall (.inserted hid)

theorem file_mirrors (s : TableState) (id : Nat) (act : FileUse) : s.Mirrors (.file id act) := by
  cases hopen : s.table.get? id with
  | none => exact mirrors_of_notOpen rfl hopen
  | some f =>
    cases hrun : act.perform f s.drive with
    | ok p d =>
      obtain ⟨a, f'⟩ := p
      have hcall : s.call (.file id act) = (.ok a, ⟨s.table.set id (some f'), d⟩) := by
        refine call_ok ?_
        simp only [Use.perform, HandleTable.fetch, hopen, pure_bind, run_bind_ok hrun]
        rfl
      refine mirrors_of_set (HandleTable.lt_length_of_get? hopen) hcall ?_
      rw [FileUse.perform_eq_ok hrun]
      exact .used hopen hrun
    | error e d =>
      have hcall : s.call (.file id act) = (.error e, { s with drive := d }) := by
        refine call_error ?_
        simp only [Use.perform, HandleTable.fetch, hopen, pure_bind, run_bind_error hrun]
      exact mirrors_of_same hcall
        (.damaged hopen hrun (act.perform_failsByDamage f _ _ _ hrun))

theorem close_mirrors (s : TableState) (id : Nat) : s.Mirrors (.close id) := by
  cases hopen : s.table.get? id with
  | none => exact mirrors_of_notOpen rfl hopen
  | some f =>
    have hcall : s.call (.close id) = (.ok .done, { s with table := s.table.set id none }) := by
      refine call_ok ?_
      simp only [Use.perform, HandleTable.close_eq, hopen]
      rfl
    exact mirrors_of_set (HandleTable.lt_length_of_get? hopen) hcall (.closed hopen)

/-- **One use of a table** does what it does to its map. -/
theorem mirrors (s : TableState) (u : Use) : s.Mirrors u := by
  cases u with
  | insert f => exact s.insert_mirrors f
  | file id act => exact s.file_mirrors id act
  | close id => exact s.close_mirrors id

/-- **A run of uses** does what it does to the map, from any table of `capacity` slots. -/
theorem run_steps (hs : s.table.slots.length = capacity) (us : List Use) :
    TableRun capacity s.table.get? s.drive us (s.run us).1 (s.run us).2.table.get?
        (s.run us).2.drive ∧
      (s.run us).2.table.slots.length = capacity := by
  induction us generalizing s with
  | nil => exact ⟨.nil, hs⟩
  | cons u us ih =>
    obtain ⟨hstep, hlength⟩ := s.mirrors u
    obtain ⟨hrun, hlast⟩ := ih (hlength.trans hs)
    exact ⟨.cons (hs ▸ hstep) hrun, hlast⟩

/-! ## Bounded tables -/

/-- **The table is a bounded map with least free ids**: what it tells about itself is about the map,
and each use answers, fails and changes as it should. -/
structure Bounded (capacity : Nat) (s : TableState) : Prop where
  /-- No id is open that there is no room for. -/
  none_of_le : ∀ id, capacity ≤ id → s.table.get? id = none
  /-- The ids and the header sectors of the open files. -/
  mem_ids : ∀ id sector, (id, sector) ∈ s.table.ids ↔
    ∃ f, s.table.get? id = some f ∧ f.sector = sector
  ascending : (s.table.ids.map Prod.fst).Pairwise (· < ·)
  holds_iff : ∀ sector, s.table.holds sector = true ↔
    ∃ id f, s.table.get? id = some f ∧ f.sector = sector
  /-- A new file takes the least id that is not open. -/
  insert_ok : ∀ f id, (s.call (.insert f)).1 = .ok (.id id) ↔
    IsLeast {i | i < capacity ∧ s.table.get? i = none} id
  insert_error : ∀ f, (s.call (.insert f)).1 = .error .tooManyOpen ↔
    ∀ i < capacity, s.table.get? i ≠ none
  /-- Only an id that is not open is refused. -/
  refused_iff : ∀ u id n, u.needs? = some (id, n) →
    ((s.call u).1 = .error (.notOpen id) ↔ s.table.get? id = none)
  /-- A use that fails leaves the table as it is, and the device unless that is damaged. -/
  failed : ∀ u e, (s.call u).1 = .error e → (s.call u).2.table = s.table ∧
    (e.isDamage = false → ∃ notes, (s.call u).2.drive = { s.drive with notes })
  /-- Only the id that is used or taken changes. -/
  others : ∀ u j, u.needs?.map Prod.fst ≠ some j → (s.call u).1 ≠ .ok (.id j) →
    (s.call u).2.table.get? j = s.table.get? j

theorem table_of_failed {u : Use} {e : VolumeError} (h : (s.call u).1 = .error e) :
    (s.call u).2.table = s.table := by
  cases hrun : u.perform s.table s.drive with
  | ok p d =>
    rw [call_ok hrun] at h
    cases h
  | error x d => rw [call_error hrun]

theorem bounded_of_length (hs : s.table.slots.length = capacity) : s.Bounded capacity := by
  subst hs
  exact {
    none_of_le := fun id hid => by
      unfold HandleTable.get?
      rw [List.getElem?_eq_none hid]
      rfl
    mem_ids := fun id sector => HandleTable.mem_ids_iff
    ascending := s.table.ascending_ids
    holds_iff := fun sector => HandleTable.holds_iff
    insert_ok := fun f id => (s.mirrors (.insert f)).1.insert_ok_iff
    insert_error := fun f => (s.mirrors (.insert f)).1.insert_error_iff
    refused_iff := fun u id n hu => (s.mirrors u).1.error_notOpen_iff hu
    failed := fun u e he => by
      have hstep := (s.mirrors u).1
      rw [he] at hstep
      exact ⟨table_of_failed he, hstep.failed⟩
    others := fun u j hu hr => (s.mirrors u).1.others hu hr }

/-- **The table of open files is a bounded map with least free ids.** For every number of slots,
every drive, under any faults, and all uses of a table that is empty at first, with any ids, it does
what a map does that has nothing in it at first, and is a bounded map then:
* a new file takes the least id that is not open, and is refused just if all are;
* anything else is refused just if its id is not open, be it closed again or one that there is no
  room for;
* what fails changes nothing in the table, nor on the drive unless that is damaged;
* no use changes the file that another id stands for, nor its position;
* a file is held just if an id of it is open, and the ids listed are those that are open, in order,
  with the sectors of the headers. -/
theorem bounded_map (capacity : Nat) (d : Drive) (us : List Use) :
    TableRun capacity (fun _ => none) d us ((mk (.empty capacity) d).run us).1
        ((mk (.empty capacity) d).run us).2.table.get? ((mk (.empty capacity) d).run us).2.drive ∧
      ((mk (.empty capacity) d).run us).2.Bounded capacity := by
  have hlength : (mk (.empty capacity) d).table.slots.length = capacity := List.length_replicate
  have hnone : (HandleTable.empty capacity).get? = fun _ => none :=
    funext fun id => HandleTable.get?_empty capacity id
  obtain ⟨hrun, hlast⟩ := run_steps hlength us
  exact ⟨hnone ▸ hrun, bounded_of_length hlast⟩

end TableState

/-! ## Volumes -/

/-- The use of the table of open files that a call on a volume is. -/
def Request.use? : Request → Option Use
  | .closeId id => some (.close id)
  | .seekId id position => some (.file id (.seek position))
  | .readId id count => some (.file id (.read count))
  | .writeId id bytes => some (.file id (.write bytes))
  | _ => none

/-- Such a call is that use, and leaves the rest of the volume alone. -/
theorem Request.perform_eq_use {q : Request} {u : Use} (hq : q.use? = some u) (v : Volume) :
    q.perform v = do
      let (a, openFiles) ← u.perform v.openFiles
      return (a, { v with openFiles }) := by
  cases q with
  | closeId | seekId | readId | writeId =>
    cases hq
    simp only [perform, Volume.closeId_eq, Volume.seekId_eq, Volume.readId_eq, Volume.writeId_eq,
      Volume.setOpen, Use.perform, FileUse.perform, bind_assoc, pure_bind]
  | _ => cases hq

/-- To open a file is to find it, to put it into the table and to leave a note. -/
theorem Volume.openId_eq_use (v : Volume) (path : String) :
    (Request.openId path).perform v = do
      let f ← v.openPath path
      let (a, openFiles) ← (Use.insert f).perform v.openFiles
      if let .id id := a then Drive.note (.opened path id)
      return (a, { v with openFiles }) := by
  simp only [Request.perform, Volume.openId_eq, Use.perform, bind_assoc, pure_bind]

end SectorChain
