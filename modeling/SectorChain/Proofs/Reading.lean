import SectorChain.Proofs.Formatting

/-!
# Operations that only read

`Still x` says of any drive, with faults or not, that `x` leaves the device and its faults as they
were, whether it answers or fails. Every look at a volume is of this kind.

Results:
* `Still.bind`, `Still.mapM`: what is put together from such operations is one.
* `list_still`, `print_still`, `stat_still`, `openPath_still`: looking at a volume.
* `releaseTree_still`: a release, which is one in the free map alone.
-/

namespace SectorChain

/-- The drive that an operation leaves. -/
def driveAfter {α : Type} : EStateM.Result VolumeError Drive α → Drive
  | .ok _ d => d
  | .error _ d => d

namespace Drive

/-- A read is recorded, whether it is let through or not. -/
theorem accesses_readSector (s : Nat) (d : Drive) :
    (driveAfter (readSector s d)).accesses = d.accesses.push (.read s) := by
  cases hfails : d.faults d.tally (.read s) with
  | true =>
    rw [readSector_fails hfails]
    rfl
  | false =>
    rw [readSector_passes hfails]
    cases d.device.read s d.device.sectorSize <;> rfl

/-- So is a write. -/
theorem accesses_writeSector (s : Nat) (bytes : Bytes) (d : Drive) :
    (driveAfter (writeSector s bytes d)).accesses = d.accesses.push (.write s) := by
  cases hfails : d.faults d.tally (.write s) with
  | true =>
    rw [writeSector_fails hfails]
    rfl
  | false =>
    cases hcheck : d.device.checkWrite s bytes with
    | ok _ =>
      rw [writeSector_passes hfails hcheck]
      rfl
    | error e =>
      rw [writeSector_refused hfails hcheck]
      rfl

end Drive

/-- **The operation only reads.** -/
def Still {α : Type} (x : DriveM α) : Prop :=
  ∀ d, (driveAfter (x d)).device = d.device ∧ (driveAfter (x d)).faults = d.faults

namespace Still

variable {α β γ : Type} {x : DriveM α} {f : α → DriveM β}

theorem pure (a : α) : Still (Pure.pure a) := fun _ => ⟨rfl, rfl⟩

theorem throw (e : VolumeError) : Still (throw e : DriveM α) := fun _ => ⟨rfl, rfl⟩

theorem bind (hx : Still x) (hf : ∀ a, Still (f a)) : Still (x >>= f) := by
  intro d
  have hx := hx d
  cases h : x d with
  | error e d' =>
    rw [h] at hx
    rwa [run_bind_error h]
  | ok a d' =>
    rw [h] at hx
    have hf := hf a d'
    rw [run_bind_ok h]
    exact ⟨hf.1.trans hx.1, hf.2.trans hx.2⟩

theorem get : Still (MonadState.get : DriveM Drive) := fun _ => ⟨rfl, rfl⟩

theorem ofExcept (r : Except VolumeError α) : Still (Drive.ofExcept r) := by
  cases r with
  | ok a => exact pure a
  | error e => exact throw e

theorem decoded (r : Except RecordError α) : Still (Drive.decoded r) := by
  cases r with
  | ok a => exact pure a
  | error e => exact throw _

theorem corrupt (cause : Corruption) : Still (Drive.corrupt cause : DriveM α) := throw _

theorem note (n : Note) : Still (Drive.note n) := fun _ => ⟨rfl, rfl⟩

theorem sectorSize : Still Drive.sectorSize := get.bind fun _ => pure _

theorem sectors : Still Drive.sectors := get.bind fun _ => pure _

theorem dataSize : Still Drive.dataSize := sectorSize.bind fun _ => pure _

theorem readSector (sector : Nat) : Still (Drive.readSector sector) := by
  intro d
  cases hfails : d.faults d.tally (.read sector) with
  | true =>
    rw [Drive.readSector_fails hfails]
    exact ⟨rfl, rfl⟩
  | false =>
    rw [Drive.readSector_passes hfails]
    cases d.device.read sector d.device.sectorSize <;> exact ⟨rfl, rfl⟩

theorem mapM {g : γ → DriveM β} (h : ∀ c, Still (g c)) (l : List γ) : Still (l.mapM g) := by
  induction l with
  | nil => exact pure _
  | cons c rest ih =>
    rw [List.mapM_cons]
    exact (h c).bind fun _ => ih.bind fun _ => pure _

theorem foldlM {g : β → γ → DriveM β} (h : ∀ b c, Still (g b c)) (l : List γ) (b : β) :
    Still (l.foldlM g b) := by
  induction l generalizing b with
  | nil => exact pure b
  | cons c rest ih =>
    rw [List.foldlM_cons]
    exact (h b c).bind ih

/-- Without faults, the disk is as it was. -/
theorem faultFree (h : Still x) {d : Drive} (hd : d.FaultFree) :
    (driveAfter (x d)).FaultFree ∧ (driveAfter (x d)).disk = d.disk := by
  obtain ⟨hdevice, hfaults⟩ := h d
  refine ⟨⟨hdevice ▸ hd.reliable, hfaults.trans hd.no_faults⟩, ?_⟩
  unfold Drive.disk
  rw [hdevice]

end Still

/-! ## Headers and blocks -/

theorem Block.fetch_still (sector : Nat) : Still (Block.fetch sector) := by
  refine (Still.readSector sector).bind fun _ => (Still.decoded _).bind fun p => ?_
  obtain ⟨own, next, data⟩ := p
  dsimp only
  split
  · exact Still.pure _
  · exact Still.corrupt _

namespace Header

theorem fetch_still (sector : Nat) : Still (Header.fetch sector) := by
  refine (Still.readSector sector).bind fun _ => (Still.decoded _).bind fun p => ?_
  obtain ⟨length, blocks, first⟩ := p
  dsimp only
  split
  · exact Still.pure _
  · exact Still.corrupt _

theorem walk_still (blocks left : Nat) (current : Option Nat) :
    Still (walk blocks left current) := by
  induction left generalizing current with
  | zero =>
    cases current with
    | none => exact Still.pure _
    | some s => exact Still.corrupt _
  | succ left ih =>
    cases current with
    | none => exact Still.corrupt _
    | some s => exact (Block.fetch_still s).bind fun b => (ih b.next).bind fun _ => Still.pure _

theorem chain_still (h : Header) : Still h.chain := walk_still _ _ _

theorem follow_still (blocks hops index : Nat) (block : Block) :
    Still (follow blocks hops index block) := by
  induction hops generalizing index block with
  | zero => exact Still.pure _
  | succ hops ih =>
    unfold follow
    cases block.next with
    | none => exact Still.corrupt _
    | some s => exact (Block.fetch_still s).bind fun b => ih (index + 1) b

theorem blockAt_still (h : Header) (offset : Nat) : Still (h.blockAt offset) := by
  refine Still.dataSize.bind fun _ => ?_
  dsimp only
  split
  · exact Still.corrupt _
  · split
    · exact Still.corrupt _
    · exact (Block.fetch_still _).bind fun b => follow_still _ _ _ b

theorem release_still (h : Header) (m : FreeMap) : Still (h.release m) := by
  rw [release_eq]
  refine h.chain_still.bind fun l => ?_
  split
  · exact Still.corrupt _
  · exact (Still.note _).bind fun _ => Still.pure _

theorem contentLines_still (left : Nat) (chain : List Nat) : Still (contentLines left chain) := by
  induction chain generalizing left with
  | nil => exact Still.pure _
  | cons s rest ih =>
    exact (Block.fetch_still s).bind fun b => (ih (left - b.data.length)).bind fun _ => Still.pure _

theorem describe_still (h : Header) : Still h.describe :=
  h.chain_still.bind fun c => (contentLines_still h.length c).bind fun _ => Still.pure _

end Header

/-! ## Open files and what they hold -/

namespace Handle

theorem fetch_still (sector : Nat) : Still (Handle.fetch sector) :=
  (Header.fetch_still sector).bind fun _ => Still.pure _

theorem readBlocks_still (f : Handle) (data count i : Nat) : Still (f.readBlocks data count i) := by
  induction count generalizing i with
  | zero => exact Still.pure _
  | succ count ih =>
    exact (f.header.blockAt_still _).bind fun _ => (ih (i + 1)).bind fun _ => Still.pure _

theorem readAt_still (f : Handle) (count pos : Nat) : Still (f.readAt count pos) := by
  unfold readAt
  split
  · exact Still.pure _
  · exact (Still.note _).bind fun _ => Still.dataSize.bind fun data =>
      (f.readBlocks_still data _ _).bind fun _ => Still.pure _

end Handle

theorem FreeMap.fetch_still (f : Handle) (size : Nat) : Still (FreeMap.fetch f size) :=
  (f.readAt_still _ _).bind fun _ => (Still.note _).bind fun _ => Still.pure _

theorem Entry.header_still (e : Entry) (path : String) : Still (e.header path) := by
  unfold Entry.header
  split
  · exact Still.pure _
  · exact Still.corrupt _

namespace Directory

theorem fetch_still (f : Handle) : Still (Directory.fetch f) :=
  (f.readAt_still _ _).bind fun _ => (Still.decoded _).bind fun _ => Still.pure _

theorem enter_still (e : Entry) (path : String) : Still (enter e path) := by
  unfold enter
  split
  · exact Still.throw _
  · exact (e.header_still path).bind fun s => (Handle.fetch_still s).bind fun f =>
      (fetch_still f).bind fun _ => Still.pure _

theorem search_still (dir : Directory) (path name : String) : Still (dir.search path name) := by
  unfold search
  split
  · exact Still.pure _
  · exact Still.throw _

theorem follow_still (path : String) (r : Route) (dir : Directory) : Still (follow path r dir) := by
  induction r generalizing dir with
  | invalid rest => exact Still.throw _
  | last name => exact dir.search_still path name
  | step name rest ih =>
    exact (dir.search_still path name).bind fun e => (enter_still e path).bind fun p => ih p.2

theorem findEntry_still (dir : Directory) (path : String) : Still (dir.findEntry path) :=
  follow_still path _ dir

theorem find_still (dir : Directory) (path : String) : Still (dir.find path) := by
  unfold find
  split
  · exact Still.pure _
  · exact (dir.findEntry_still path).bind fun e => e.header_still path

theorem treeLines_still (depth level : Nat) (dir : Directory) :
    Still (treeLines depth level dir) := by
  induction depth generalizing level dir with
  | zero => exact Still.corrupt _
  | succ depth ih =>
    refine (Still.mapM (fun e => ?_) _).bind fun _ => Still.pure _
    dsimp only
    split
    · exact Still.pure _
    · exact (enter_still e e.name).bind fun p => (ih _ p.2).bind fun _ => Still.pure _

theorem list_still (dir : Directory) (recursive : Bool) : Still (dir.list recursive) := by
  unfold list
  split
  · exact treeLines_still _ _ dir
  · exact Still.pure _

theorem print_still (dir : Directory) : Still dir.print :=
  (Still.mapM (fun e => (e.header_still e.name).bind fun s => (Header.fetch_still s).bind fun h =>
    h.describe_still.bind fun _ => Still.pure _) _).bind fun _ => Still.pure _

end Directory

/-! ## Looking at a volume -/

theorem HandleTable.fetch_still (t : HandleTable) (id : Nat) : Still (t.fetch id) := by
  unfold fetch
  split
  · exact Still.pure _
  · exact (Still.note _).bind fun _ => Still.throw _

namespace Volume

variable (v : Volume)

theorem mount_still : Still mount := by
  have hopened : Still opened := (Handle.fetch_still _).bind fun _ => (Handle.fetch_still _).bind
    fun _ => Still.pure _
  refine Still.bind (Still.get.bind fun d => ?_) fun _ => hopened.bind fun _ =>
    Still.sectors.bind fun _ => ?_
  · split
    · exact Still.pure _
    · exact Still.throw _
  · split
    · exact Still.corrupt _
    · exact (Still.note _).bind fun _ => Still.pure _

theorem freeMap_still : Still v.freeMap := Still.sectors.bind fun _ => FreeMap.fetch_still _ _

theorem root_still : Still v.root := Directory.fetch_still _

theorem numFree_still : Still v.numFree := v.freeMap_still.bind fun _ => Still.pure _

theorem openPath_still (path : String) : Still (v.openPath path) :=
  v.root_still.bind fun root => (root.find_still path).bind fun s => Handle.fetch_still s

theorem list_still (path : String) (recursive : Bool) : Still (v.list path recursive) := by
  refine v.root_still.bind fun root => ?_
  split
  · exact root.list_still recursive
  · exact (root.findEntry_still path).bind fun e => (Directory.enter_still e path).bind fun p =>
      p.2.list_still recursive

theorem stat_still (path : String) : Still (v.stat path) := by
  refine v.root_still.bind fun root => ?_
  have hread : ∀ sector kind, Still (do
      let header ← Header.fetch sector
      return { sector, kind, length := header.length, chain := ← header.chain } :
        DriveM FileStat) := fun sector kind => (Header.fetch_still sector).bind fun h =>
    h.chain_still.bind fun _ => Still.pure _
  dsimp only
  split
  · exact (Still.pure _).bind fun p => hread p.1 p.2
  · exact (root.findEntry_still path).bind fun e => (e.header_still path).bind fun s =>
      (Still.pure _).bind fun p => hread p.1 p.2

theorem print_still : Still v.print :=
  v.freeMap_still.bind fun _ => v.freeMapFile.header.describe_still.bind fun _ =>
    v.rootFile.header.describe_still.bind fun _ => v.root_still.bind fun root =>
      root.print_still.bind fun _ => Still.pure _

/-! ## Releasing -/

theorem checkPath_still (path : String) (atRoot : VolumeError) : Still (checkPath path atRoot) := by
  refine (Still.ofExcept _).bind fun _ => ?_
  split
  · exact Still.throw _
  · exact Still.pure _

/-- A release changes nothing but the free map that it is given. -/
theorem releaseTree_still (depth : Nat) (path : String) (kind : Kind) (s : Nat) (m : FreeMap) :
    Still (v.releaseTree depth path kind s m) := by
  induction depth generalizing path kind s m with
  | zero => exact Still.corrupt _
  | succ depth ih =>
    cases hopen : v.openFiles.holds s with
    | true =>
      unfold releaseTree
      rw [if_pos hopen]
      exact fun _ => ⟨rfl, rfl⟩
    | false =>
      have hfile : ∀ m : FreeMap, Still (Disk.releaseFile path s m) := fun m =>
        (Header.fetch_still s).bind fun h => (h.release_still m).bind fun m' => by
          split
          · exact Still.pure _
          · exact Still.corrupt _
      cases kind with
      | file =>
        rw [Disk.releaseTree_file depth path s m hopen]
        exact hfile m
      | directory =>
        rw [Disk.releaseTree_directory depth path s m hopen]
        refine (Handle.fetch_still s).bind fun f => (Directory.fetch_still f).bind fun dir =>
          (Still.foldlM (fun m e => ?_) _ _).bind hfile
        exact (e.header_still _).bind fun s' => ih _ e.kind s' m

theorem remainingId_still (id : Nat) : Still (v.remainingId id) :=
  (v.openFiles.fetch_still id).bind fun _ => Still.pure _

end Volume

end SectorChain
