import SectorChain.Drive
import Mathlib.Logic.Function.Basic

/-!
# Runs without faults

The content of a drive is a `Disk`: a size, a sector size, and the bytes of each sector. On a
drive that keeps what is written and has no faults, an operation is told apart by nothing but the
disk: `Yields x k r k'` says that `x`, begun on any such drive with the disk `k`, ends with the
answer or error `r` and leaves the disk `k'`. Tallies, recorded accesses and notes do not matter.

A device keeps what is written (`Device.Reliable`) when it is in memory, or on an image that is long
enough. A sink is none.

Results:
* `getElem?_bytesAt_memory`, `getElem?_bytesAt_image`: where the bytes of a sector lie.
* `bytesAt_put`: a write replaces the bytes of its sector and no others.
* `Yields.bind`, `Yields.bind_error`: operations in sequence.
* `readSector_yields`, `writeSector_yields`: one access to a disk.
-/

namespace SectorChain

/-! ## Devices that keep what is written -/

namespace Device

/-- Every sector of the device can be read, and reads as it was last written. -/
def Reliable (d : Device) : Prop :=
  match d.medium with
  | .memory _ => True
  | .image img => d.sectors * d.sectorSize ≤ img.size
  | .sink _ => False

/-- The bytes of a sector, made a whole sector where the device has none. -/
def bytesAt (d : Device) (i : Nat) : Bytes := Bytes.fit d.sectorSize ((d.sector? i).getD [])

theorem length_pad_extract (bytes : Array UInt8) (pos count : Nat) :
    (Bytes.pad count (bytes.extract pos (pos + count)).toList).length = count := by
  rw [Bytes.length_pad, Array.length_toList, Array.size_extract]
  omega

theorem end_le_of_lt (size : Nat) {i n : Nat} (h : i < n) : i * size + size ≤ n * size := by
  rw [← Nat.succ_mul]
  exact Nat.mul_le_mul_right size h

theorem check_of_lt {d : Device} {i : Nat} (hi : i < d.sectors) :
    d.check i d.sectorSize = .ok () := by
  rw [check, if_pos hi, if_pos rfl]

theorem check_ok {d : Device} {i length : Nat} (h : d.check i length = .ok ()) :
    i < d.sectors ∧ length = d.sectorSize := by
  unfold check at h
  split at h
  · split at h
    · exact ⟨‹_›, ‹_›⟩
    · cases h
  · cases h

/-- What does not pass the check is not read. -/
theorem read_refused {d : Device} (hd : d.Reliable) {i length : Nat} {e : IoError}
    (h : d.check i length = .error e) : d.read i length = .error e := by
  obtain ⟨sectors, size, medium⟩ := d
  cases medium with
  | memory data => simp only [read, readSector, h]
  | image img => simp only [read, readSector, h]
  | sink blank => exact hd.elim

theorem checkWrite_eq {d : Device} (hd : d.Reliable) (i : Nat) (bytes : Bytes) :
    d.checkWrite i bytes = d.check i bytes.length := by
  obtain ⟨sectors, size, medium⟩ := d
  cases medium with
  | memory data => rfl
  | image img => rfl
  | sink blank => exact hd.elim

section Media

variable {n size i : Nat}

theorem read_memory {data : Memory} (hi : i < n) :
    (⟨n, size, .memory data⟩ : Device).read i size = .ok (data.slice (i * size) size) := by
  simp only [read, readSector, check_of_lt (d := ⟨n, size, .memory data⟩) hi]
  rfl

theorem read_image {img : Image} (hi : i < n) (hroom : i * size + size ≤ img.size) :
    (⟨n, size, .image img⟩ : Device).read i size =
      .ok (Bytes.pad size (img.bytes.extract (i * size) (i * size + size)).toList) := by
  have hread : img.read? (i * size) size =
      some (Bytes.pad size (img.bytes.extract (i * size) (i * size + size)).toList) := if_pos hroom
  simp only [read, readSector, check_of_lt (d := ⟨n, size, .image img⟩) hi, ImageFile.readExact,
    ImageFile.seek, start, hread]

end Media

/-- A sector of a reliable device is read whole. -/
theorem exists_read {d : Device} (hd : d.Reliable) {i : Nat} (hi : i < d.sectors) :
    ∃ bytes, d.read i d.sectorSize = .ok bytes ∧ bytes.length = d.sectorSize := by
  obtain ⟨sectors, size, medium⟩ := d
  cases medium with
  | memory data => exact ⟨_, read_memory hi, Memory.length_slice _ _ _⟩
  | image img =>
    have hroom : i * size + size ≤ img.size := Nat.le_trans (end_le_of_lt size hi) hd
    exact ⟨_, read_image hi hroom, length_pad_extract _ _ _⟩
  | sink blank => exact hd.elim

theorem read_eq {d : Device} (hd : d.Reliable) {i : Nat} (hi : i < d.sectors) :
    d.read i d.sectorSize = .ok (d.bytesAt i) := by
  obtain ⟨bytes, hread, hlen⟩ := exists_read hd hi
  rw [bytesAt, sector?, hread]
  exact congrArg Except.ok (Bytes.fit_of_length hlen).symm

theorem bytesAt_of_ge {d : Device} (hd : d.Reliable) {i : Nat} (hi : d.sectors ≤ i) :
    d.bytesAt i = Bytes.zeros d.sectorSize := by
  have hread := read_refused hd (show d.check i d.sectorSize = .error (.outOfRange i d.sectors) from
    if_neg (Nat.not_lt.mpr hi))
  simp only [bytesAt, sector?, hread]
  unfold Bytes.fit Bytes.pad
  simp only [Except.toOption, Option.getD_none, List.take_nil, List.length_nil, Nat.sub_zero,
    List.nil_append]
  split
  · rfl
  · rename_i h
    rw [show d.sectorSize = 0 by omega]
    rfl

@[simp] theorem sectors_put (d : Device) (i : Nat) (new : Bytes) :
    (d.put i new).sectors = d.sectors := by
  obtain ⟨sectors, size, medium⟩ := d
  cases medium <;> rfl

@[simp] theorem sectorSize_put (d : Device) (i : Nat) (new : Bytes) :
    (d.put i new).sectorSize = d.sectorSize := by
  obtain ⟨sectors, size, medium⟩ := d
  cases medium <;> rfl

theorem reliable_put {d : Device} (hd : d.Reliable) {i : Nat} {new : Bytes}
    (hlen : new.length = d.sectorSize) : (d.put i new).Reliable := by
  obtain ⟨sectors, size, medium⟩ := d
  cases medium with
  | memory data => trivial
  | image img =>
    have hd' : sectors * size ≤ img.size := hd
    show sectors * size ≤ max img.size _
    omega
  | sink blank => exact hd.elim

end Device

namespace Image

/-- The bytes read from an image are those at their places. -/
theorem getElem?_read {img : Image} {pos count i : Nat} {bytes : Bytes}
    (h : img.read? pos count = some bytes) (hi : i < count) :
    bytes[i]? = img.get? (pos + i) := by
  unfold read? at h
  split at h
  · rename_i hroom
    cases h
    have hle := img.size_le
    rw [get?, if_pos (by omega)]
    unfold Bytes.pad
    rw [Array.getD_eq_getD_getElem?]
    by_cases hin : pos + i < img.bytes.size
    · have hlt : i < (img.bytes.extract pos (pos + count)).toList.length := by
        rw [Array.length_toList, Array.size_extract]
        omega
      have hget : (img.bytes.extract pos (pos + count)).toList[i]? = img.bytes[pos + i]? := by
        rw [Array.getElem?_toList, Array.getElem?_extract, if_pos (by omega)]
      split
      · rw [List.getElem?_append_left hlt, hget, Array.getElem?_eq_getElem hin, Option.getD_some]
      · rw [hget, Array.getElem?_eq_getElem hin, Option.getD_some]
    · have hge : (img.bytes.extract pos (pos + count)).toList.length ≤ i := by
        rw [Array.length_toList, Array.size_extract]
        omega
      rw [if_pos (by omega), List.getElem?_append_right hge, Bytes.zeros, List.getElem?_replicate,
        if_pos (by omega), Array.getElem?_eq_none (by omega), Option.getD_none]
  · cases h

end Image

namespace Device

theorem getElem?_bytesAt_image {sectors size : Nat} {img : Image}
    (hd : sectors * size ≤ img.size) {i t : Nat} (hi : i < sectors) (ht : t < size) :
    ((⟨sectors, size, .image img⟩ : Device).bytesAt i)[t]? = img.get? (i * size + t) := by
  have hroom : i * size + size ≤ img.size := Nat.le_trans (end_le_of_lt size hi) hd
  have hread := read_eq (d := ⟨sectors, size, .image img⟩) hd hi
  rw [read_image hi hroom] at hread
  rw [← Except.ok.inj hread]
  exact Image.getElem?_read (if_pos hroom) ht

theorem getElem?_bytesAt_memory {sectors size : Nat} {data : Memory} {i t : Nat} (hi : i < sectors)
    (ht : t < size) :
    ((⟨sectors, size, .memory data⟩ : Device).bytesAt i)[t]? = some (data.byte (i * size + t)) := by
  have hread := read_eq (d := ⟨sectors, size, .memory data⟩) trivial hi
  rw [read_memory hi] at hread
  rw [← Except.ok.inj hread, Memory.getElem?_slice, if_pos ht]

/-- **The sectors lie apart**: no byte of one is among those of another. -/
theorem apart_of_ne {size i j t : Nat} (hne : j ≠ i) (ht : t < size) :
    ¬(i * size ≤ j * size + t ∧ j * size + t < i * size + size) := by
  rcases Nat.lt_or_gt_of_ne hne with hlt | hgt
  · have := end_le_of_lt size hlt
    omega
  · have := end_le_of_lt size hgt
    omega

/-- **A write replaces one sector**: the others read as before. -/
theorem bytesAt_put {d : Device} (hd : d.Reliable) {i : Nat} {new : Bytes} (hi : i < d.sectors)
    (hlen : new.length = d.sectorSize) (j : Nat) :
    (d.put i new).bytesAt j = if j = i then new else d.bytesAt j := by
  by_cases hj : j < d.sectors
  · apply List.ext_getElem?
    intro t
    by_cases ht : t < d.sectorSize
    · -- a byte of sector `j` is one of the bytes that are replaced just if `j` is `i`
      obtain ⟨sectors, size, medium⟩ := d
      obtain rfl : new.length = size := hlen
      have ht : t < new.length := ht
      have hself : i * new.length ≤ i * new.length + t ∧
          i * new.length + t < i * new.length + new.length := by
        omega
      cases medium with
      | memory data =>
        show ((⟨sectors, new.length, .memory (data.patch (i * new.length) new)⟩ : Device).bytesAt
          j)[t]? = _
        rw [getElem?_bytesAt_memory hj ht, Memory.byte_patch]
        by_cases hji : j = i
        · subst hji
          rw [if_pos hself, if_pos rfl, Nat.add_sub_cancel_left, List.getD_eq_getElem?_getD,
            List.getElem?_eq_getElem ht, Option.getD_some]
        · rw [if_neg hji, if_neg (apart_of_ne hji ht), getElem?_bytesAt_memory hj ht]
      | image img =>
        have hd' : sectors * new.length ≤ img.size := hd
        have hroom : sectors * new.length ≤ (img.write (i * new.length) new).size := by
          rw [Image.size_write]
          omega
        show ((⟨sectors, new.length, .image (img.write (i * new.length) new)⟩ : Device).bytesAt
          j)[t]? = _
        rw [getElem?_bytesAt_image hroom hj ht, Image.get?_write]
        by_cases hji : j = i
        · subst hji
          rw [if_pos hself, if_pos rfl, Nat.add_sub_cancel_left]
        · have hend : j * new.length + t < img.size :=
            Nat.lt_of_lt_of_le (Nat.add_lt_add_left ht _)
              (Nat.le_trans (end_le_of_lt new.length hj) hd')
          rw [if_neg hji, if_neg (apart_of_ne hji ht), getElem?_bytesAt_image hd' hj ht,
            if_pos (by omega), Image.get?, if_pos hend, Option.getD_some]
      | sink blank => exact hd.elim
    · rw [List.getElem?_eq_none, List.getElem?_eq_none]
      · split
        · omega
        · rw [bytesAt, Bytes.length_fit]
          exact Nat.not_lt.mp ht
      · rw [bytesAt, Bytes.length_fit, sectorSize_put]
        exact Nat.not_lt.mp ht
  · have hji : j ≠ i := by omega
    rw [if_neg hji, bytesAt_of_ge hd (Nat.not_lt.mp hj),
      bytesAt_of_ge (reliable_put hd hlen) (by rw [sectors_put]; exact Nat.not_lt.mp hj),
      sectorSize_put]

theorem checkWrite_of_lt {d : Device} (hd : d.Reliable) {i : Nat} {new : Bytes}
    (hi : i < d.sectors) (hlen : new.length = d.sectorSize) : d.checkWrite i new = .ok () := by
  rw [checkWrite_eq hd, hlen]
  exact check_of_lt hi

end Device

/-! ## Disks -/

/-- What is on a device: the bytes of each sector, which are always a whole sector. -/
@[ext] structure Disk where
  sectors : Nat
  sectorSize : Nat
  bytes : Nat → Bytes
  length_bytes : ∀ i, (bytes i).length = sectorSize

namespace Disk

/-- The bytes of data in one block. -/
def dataSize (k : Disk) : Nat := Layout.dataSize k.sectorSize

/-- The disk with `new` in the sector, of which it is the right length. -/
def put (k : Disk) (i : Nat) (new : Bytes) : Disk where
  sectors := k.sectors
  sectorSize := k.sectorSize
  bytes := Function.update k.bytes i (Bytes.fit k.sectorSize new)
  length_bytes j := by
    by_cases h : j = i
    · subst h
      rw [Function.update_self, Bytes.length_fit]
    · rw [Function.update_of_ne h]
      exact k.length_bytes j

@[simp] theorem sectors_put (k : Disk) (i : Nat) (new : Bytes) :
    (k.put i new).sectors = k.sectors := rfl

@[simp] theorem sectorSize_put (k : Disk) (i : Nat) (new : Bytes) :
    (k.put i new).sectorSize = k.sectorSize := rfl

/-- A sector with room for a header has room for data in a block. -/
theorem dataSize_pos {k : Disk} (h : Layout.headerSize ≤ k.sectorSize) : 0 < k.dataSize := by
  unfold dataSize Layout.dataSize Layout.headerSize Layout.linkSize at *
  omega

@[simp] theorem dataSize_put (k : Disk) (i : Nat) (new : Bytes) :
    (k.put i new).dataSize = k.dataSize := rfl

theorem bytes_put_self {k : Disk} {i : Nat} {new : Bytes} (h : new.length = k.sectorSize) :
    (k.put i new).bytes i = new := by
  show Function.update k.bytes i (Bytes.fit k.sectorSize new) i = new
  rw [Function.update_self, Bytes.fit_of_length h]

theorem bytes_put_of_ne {k : Disk} {i j : Nat} {new : Bytes} (h : j ≠ i) :
    (k.put i new).bytes j = k.bytes j := Function.update_of_ne h _ _

end Disk

namespace Device

/-- What is on the device. -/
def disk (d : Device) : Disk where
  sectors := d.sectors
  sectorSize := d.sectorSize
  bytes := d.bytesAt
  length_bytes _ := Bytes.length_fit _ _

theorem disk_put {d : Device} (hd : d.Reliable) {i : Nat} {new : Bytes} (hi : i < d.sectors)
    (hlen : new.length = d.sectorSize) : (d.put i new).disk = d.disk.put i new := by
  ext1
  · exact sectors_put d i new
  · exact sectorSize_put d i new
  · funext j
    show (d.put i new).bytesAt j = (d.disk.put i new).bytes j
    rw [bytesAt_put hd hi hlen]
    by_cases hji : j = i
    · subst hji
      rw [if_pos rfl, Disk.bytes_put_self (k := d.disk) hlen]
    · rw [if_neg hji, Disk.bytes_put_of_ne hji]
      rfl

end Device

namespace Drive

/-- What is on the device of the drive. -/
def disk (d : Drive) : Disk := d.device.disk

/-- The device keeps what is written, and no access fails. -/
structure FaultFree (d : Drive) : Prop where
  reliable : d.device.Reliable
  no_faults : d.faults = fun _ _ => false

end Drive

/-! ## Outcomes on a disk -/

/-- An operation that answers or fails as `r` says, on the drive it leaves. -/
def ended {α : Type} : Except VolumeError α → Drive → EStateM.Result VolumeError Drive α
  | .ok a, d => .ok a d
  | .error e, d => .error e d

/-- Two operations in sequence: the second one begins where the first one has answered. -/
theorem run_bind_ok {ε σ α β : Type} {x : EStateM ε σ α} {f : α → EStateM ε σ β} {s s' : σ} {a : α}
    (h : x s = .ok a s') : (x >>= f) s = f a s' := by
  show EStateM.bind x f s = _
  unfold EStateM.bind
  rw [h]

theorem run_bind_error {ε σ α β : Type} {x : EStateM ε σ α} {f : α → EStateM ε σ β} {s s' : σ}
    {e : ε}
    (h : x s = .error e s') : (x >>= f) s = .error e s' := by
  show EStateM.bind x f s = _
  unfold EStateM.bind
  rw [h]

/-- Making a value of the answer does not fail. -/
theorem run_of_bind_pure_error {ε σ α β : Type} {x : EStateM ε σ α} {g : α → β} {s s' : σ} {e : ε}
    (h : (x >>= fun a => pure (g a)) s = .error e s') : x s = .error e s' := by
  cases hx : x s with
  | ok a s₁ =>
    rw [run_bind_ok hx] at h
    cases h
  | error e₁ s₁ =>
    rw [run_bind_error hx] at h
    cases h
    rfl

/-- **The outcome of an operation on a disk**: begun on any drive without faults that holds `k`,
`x` ends as `r` and leaves such a drive that holds `k'`. -/
def Yields {α : Type} (x : DriveM α) (k : Disk) (r : Except VolumeError α) (k' : Disk) : Prop :=
  ∀ d : Drive, d.FaultFree → d.disk = k → ∃ d', x d = ended r d' ∧ d'.FaultFree ∧ d'.disk = k'

namespace Yields

variable {α β : Type} {k k₁ k₂ : Disk}

theorem pure (a : α) (k : Disk) : Yields (Pure.pure a) k (.ok a) k :=
  fun d hd hk => ⟨d, rfl, hd, hk⟩

theorem throw (e : VolumeError) (k : Disk) : Yields (throw e : DriveM α) k (.error e) k :=
  fun d hd hk => ⟨d, rfl, hd, hk⟩

theorem bind {x : DriveM α} {f : α → DriveM β} {a : α} {r : Except VolumeError β}
    (hx : Yields x k (.ok a) k₁) (hf : Yields (f a) k₁ r k₂) : Yields (x >>= f) k r k₂ := by
  intro d hd hk
  obtain ⟨d₁, h₁, hd₁, hk₁⟩ := hx d hd hk
  obtain ⟨d₂, h₂, hd₂, hk₂⟩ := hf d₁ hd₁ hk₁
  exact ⟨d₂, (run_bind_ok h₁).trans h₂, hd₂, hk₂⟩

theorem bind_error {x : DriveM α} {f : α → DriveM β} {e : VolumeError}
    (hx : Yields x k (.error e) k₁) : Yields (x >>= f) k (.error e) k₁ := by
  intro d hd hk
  obtain ⟨d₁, h₁, hd₁, hk₁⟩ := hx d hd hk
  exact ⟨d₁, run_bind_error h₁, hd₁, hk₁⟩

theorem map {x : DriveM α} (f : α → β) {a : α} (hx : Yields x k (.ok a) k₁) :
    Yields (f <$> x) k (.ok (f a)) k₁ := by
  intro d hd hk
  obtain ⟨d₁, h₁, hd₁, hk₁⟩ := hx d hd hk
  refine ⟨d₁, ?_, hd₁, hk₁⟩
  show EStateM.map f x d = _
  unfold EStateM.map
  rw [h₁]
  rfl

theorem discard {x : DriveM α} {a : α} (hx : Yields x k (.ok a) k₁) :
    Yields (Functor.discard x) k (.ok ()) k₁ := map _ hx

/-- An error as a value. -/
theorem attempt {x : DriveM α} {r : Except VolumeError α} (hx : Yields x k r k₁) :
    Yields (Drive.attempt x) k (.ok r) k₁ := by
  intro d hd hk
  obtain ⟨d₁, h₁, hd₁, hk₁⟩ := hx d hd hk
  refine ⟨d₁, ?_, hd₁, hk₁⟩
  unfold Drive.attempt
  rw [h₁]
  cases r <;> rfl

theorem decoded (a : α) (k : Disk) : Yields (Drive.decoded (.ok a)) k (.ok a) k := pure a k

theorem corrupt (cause : Corruption) (k : Disk) :
    Yields (Drive.corrupt cause : DriveM α) k (.error (.corrupt cause)) k := throw _ k

theorem note (n : Note) (k : Disk) : Yields (Drive.note n) k (.ok ()) k :=
  fun d hd hk => ⟨{ d with notes := d.notes.push n }, rfl, ⟨hd.reliable, hd.no_faults⟩, hk⟩

theorem sectorSize (k : Disk) : Yields Drive.sectorSize k (.ok k.sectorSize) k := by
  intro d hd hk
  subst hk
  exact ⟨d, rfl, hd, rfl⟩

theorem sectors (k : Disk) : Yields Drive.sectors k (.ok k.sectors) k := by
  intro d hd hk
  subst hk
  exact ⟨d, rfl, hd, rfl⟩

theorem dataSize (k : Disk) : Yields Drive.dataSize k (.ok k.dataSize) k :=
  (sectorSize k).bind (pure _ k)

end Yields

/-! ## One access -/

namespace Drive

theorem get_eq (d : Drive) : (get : DriveM Drive) d = .ok d d := rfl

theorem request_passes {d : Drive} {a : Access} (h : d.faults d.tally a = false) :
    request a d = .ok () (d.asked a) := by
  unfold request
  rw [h]
  rfl

theorem request_fails {d : Drive} {a : Access} (h : d.faults d.tally a = true) :
    request a d = .error (.io (.injected a)) (d.asked a) := by
  unfold request
  rw [h]
  rfl

/-- **A read that is let through** answers what the device does, and moves the cursor. -/
theorem readSector_passes {d : Drive} {s : Nat} (h : d.faults d.tally (.read s) = false) :
    readSector s d = ended ((d.device.read s d.device.sectorSize).mapError .io)
      { d.asked (.read s) with
        cursor := (d.device.readSector s d.device.sectorSize d.cursor).2 } := by
  refine (run_bind_ok (request_passes h)).trans ?_
  rw [← Device.readSector_fst _ _ _ d.cursor]
  dsimp only [asked]
  rcases d.device.readSector s d.device.sectorSize d.cursor with ⟨_ | _, cursor⟩ <;> rfl

theorem readSector_fails {d : Drive} {s : Nat} (h : d.faults d.tally (.read s) = true) :
    readSector s d = .error (.io (.injected (.read s))) (d.asked (.read s)) :=
  run_bind_error (request_fails h)

/-- **A write that is let through** and passes the check puts the bytes into the sector, and moves
the cursor. -/
theorem writeSector_passes {d : Drive} {s : Nat} {new : Bytes}
    (h : d.faults d.tally (.write s) = false) (hcheck : d.device.checkWrite s new = .ok ()) :
    writeSector s new d = .ok () { d.asked (.write s) with
      device := d.device.put s new, cursor := (d.device.writeSector s new d.cursor).2 } := by
  have hfst := d.device.writeSector_fst s new d.cursor
  rw [hcheck] at hfst
  refine (run_bind_ok (request_passes h)).trans ?_
  dsimp only [asked]
  generalize d.device.writeSector s new d.cursor = result at hfst ⊢
  obtain ⟨r, cursor⟩ := result
  obtain rfl := hfst
  rfl

/-- A write that does not pass the check changes nothing. -/
theorem writeSector_refused {d : Drive} {s : Nat} {new : Bytes} {e : IoError}
    (h : d.faults d.tally (.write s) = false) (hcheck : d.device.checkWrite s new = .error e) :
    writeSector s new d = .error (.io e) (d.asked (.write s)) := by
  have hrefused : d.device.writeSector s new d.cursor = (.error e, d.cursor) := by
    simp only [Device.writeSector, hcheck]
  refine (run_bind_ok (request_passes h)).trans ?_
  dsimp only [asked]
  rw [hrefused]

theorem writeSector_fails {d : Drive} {s : Nat} {new : Bytes}
    (h : d.faults d.tally (.write s) = true) :
    writeSector s new d = .error (.io (.injected (.write s))) (d.asked (.write s)) :=
  run_bind_error (request_fails h)

theorem FaultFree.passes {d : Drive} (hd : d.FaultFree) (a : Access) :
    d.faults d.tally a = false := by
  rw [hd.no_faults]

theorem readSector_yields {k : Disk} {i : Nat} (hi : i < k.sectors) :
    Yields (readSector i) k (.ok (k.bytes i)) k := by
  rintro d hd rfl
  have hrun := readSector_passes (hd.passes (.read i))
  rw [Device.read_eq hd.reliable hi] at hrun
  exact ⟨_, hrun, ⟨hd.reliable, hd.no_faults⟩, rfl⟩

theorem writeSector_yields {k : Disk} {i : Nat} {new : Bytes} (hi : i < k.sectors)
    (hlen : new.length = k.sectorSize) : Yields (writeSector i new) k (.ok ()) (k.put i new) := by
  rintro d hd rfl
  have hcheck := Device.checkWrite_of_lt hd.reliable hi hlen
  exact ⟨_, writeSector_passes (hd.passes (.write i)) hcheck,
    ⟨Device.reliable_put hd.reliable hlen, hd.no_faults⟩, Device.disk_put hd.reliable hi hlen⟩

end Drive

end SectorChain
