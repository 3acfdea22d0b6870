import SectorChain.Proofs.Disk

/-!
# Devices in the place of one another

A device is asked for one transfer after the other, each with a sector and a buffer of any length.
`Transfer.answer` says what a device of `sectors` sectors of `size` bytes answers, from nothing but
the transfers before: a refusal, or the last bytes that were put into the sector.

A memory is one row of bytes, of which a transfer copies a slice. An image file has a cursor, which
a transfer moves to the sector before anything else, wherever it was.

Results:
* `Serves.transfer`: one transfer is answered as it should be, wherever the cursor is.
* `Serves.transfers`: so is every sequence of them.
* `Serves.preserves`: what every accepted write keeps is kept by every sequence of transfers.
* `ofImage_eq`: an image file that is long enough is opened as it is.
* `OnImage.reopen`: a device on an image file of its own length is the same when opened again.
* `blank_ofImage_transfers`: memory and a new image file answer every sequence alike, also when the
  file is closed and opened again on the way.
-/

namespace SectorChain

/-! ## What a device should answer -/

/-- One request to a device, with its buffer: to fill a buffer of `length` bytes from a sector, or
to put bytes into one. -/
inductive Transfer where
  | read (sector length : Nat)
  | write (sector : Nat) (bytes : Bytes)
  deriving DecidableEq, Repr

namespace Transfer

/-- The sector that is asked for. -/
def sector : Transfer → Nat
  | .read i _ => i
  | .write i _ => i

/-- The length of the buffer. -/
def length : Transfer → Nat
  | .read _ n => n
  | .write _ bytes => bytes.length

/-- Why the transfer is refused, if it is. The sector is looked at before the buffer. -/
def refusal? (sectors size : Nat) (x : Transfer) : Option IoError :=
  if sectors ≤ x.sector then some (.outOfRange x.sector sectors)
  else if x.length ≠ size then some (.partialSector x.length size)
  else none

/-- The bytes that the transfer puts into sector `i`, if it does so. -/
def stored? (sectors size i : Nat) (x : Transfer) : Option Bytes :=
  match x with
  | .read _ _ => none
  | .write j bytes => if j = i ∧ x.refusal? sectors size = none then some bytes else none

/-- What sector `i` holds after the transfers `past`: what was put into it last, or zeros. -/
def held (sectors size : Nat) (past : List Transfer) (i : Nat) : Bytes :=
  (past.filterMap (stored? sectors size i)).getLast?.getD (Bytes.zeros size)

/-- The answer to a transfer that comes after the transfers `past`. A write answers no bytes. -/
def answer (sectors size : Nat) (past : List Transfer) (x : Transfer) : Except IoError Bytes :=
  match x.refusal? sectors size with
  | some e => .error e
  | none =>
    match x with
    | .read i _ => .ok (held sectors size past i)
    | .write _ _ => .ok []

variable {n size : Nat} {past : List Transfer} {x : Transfer}

theorem held_nil (n size i : Nat) : held n size [] i = Bytes.zeros size := rfl

/-- **One transfer more** changes what its sector holds, if it puts bytes there. -/
theorem held_append (n size i : Nat) (past : List Transfer) (x : Transfer) :
    held n size (past ++ [x]) i = (x.stored? n size i).getD (held n size past i) := by
  unfold held
  rw [List.filterMap_append, List.getLast?_append]
  cases h : x.stored? n size i <;> simp [h]

theorem held_read (n size i : Nat) (past : List Transfer) (j length : Nat) :
    held n size (past ++ [.read j length]) i = held n size past i := held_append n size i past _

theorem held_refused {e : IoError} (h : x.refusal? n size = some e) (i : Nat) :
    held n size (past ++ [x]) i = held n size past i := by
  rw [held_append]
  cases x with
  | read j length => rfl
  | write j bytes => simp [stored?, h]

theorem held_write {j : Nat} {bytes : Bytes}
    (h : refusal? n size (.write j bytes) = none) (i : Nat) :
    held n size (past ++ [.write j bytes]) i = if i = j then bytes else held n size past i := by
  rw [held_append, stored?, h]
  by_cases hij : j = i
  · simp [hij]
  · simp [hij, Ne.symm hij]

theorem refusal?_eq_none (h : x.refusal? n size = none) : x.sector < n ∧ x.length = size := by
  unfold refusal? at h
  split at h
  · cases h
  · split at h
    · cases h
    · exact ⟨by omega, by omega⟩

end Transfer

/-! ## What a device answers -/

namespace Device

/-- The answer to one transfer, and the device and its cursor after it. -/
def transfer (d : Device) (cursor : Nat) : Transfer → Except IoError Bytes × Device × Nat
  | .read i length =>
    let (r, cursor) := d.readSector i length cursor
    (r, d, cursor)
  | .write i bytes =>
    match d.writeSector i bytes cursor with
    | (.ok d', cursor) => (.ok [], d', cursor)
    | (.error e, cursor) => (.error e, d, cursor)

/-- The answers to some transfers, one after the other, and the device and its cursor after them. -/
def transfers (d : Device) (cursor : Nat) :
    List Transfer → List (Except IoError Bytes) × Device × Nat
  | [] => ([], d, cursor)
  | x :: rest =>
    let (a, d', cursor) := d.transfer cursor x
    let (as, d'', cursor) := d'.transfers cursor rest
    (a :: as, d'', cursor)

/-- After the transfers `past` the device keeps what it should. -/
structure Serves (d : Device) (sectors size : Nat) (past : List Transfer) : Prop where
  reliable : d.Reliable
  sectors_eq : d.sectors = sectors
  sectorSize_eq : d.sectorSize = size
  bytes : ∀ i < sectors, d.bytesAt i = Transfer.held sectors size past i

variable {d : Device} {n size : Nat} {past : List Transfer}

theorem check_eq (d : Device) (x : Transfer) : d.check x.sector x.length =
    match x.refusal? d.sectors d.sectorSize with
    | some e => .error e
    | none => .ok () := by
  unfold check Transfer.refusal?
  by_cases hi : x.sector < d.sectors
  · rw [if_pos hi, if_neg (Nat.not_le.mpr hi)]
    by_cases hlen : x.length = d.sectorSize
    · rw [if_pos hlen, if_neg (not_not_intro hlen)]
    · rw [if_neg hlen, if_pos hlen]
  · rw [if_neg hi, if_pos (Nat.not_lt.mp hi)]

theorem transfer_read (d : Device) (cursor i length : Nat) :
    (d.transfer cursor (.read i length)).1 = d.read i length ∧
      (d.transfer cursor (.read i length)).2.1 = d :=
  ⟨d.readSector_fst i length cursor, rfl⟩

theorem transfer_write_ok {i : Nat} {bytes : Bytes} (h : d.checkWrite i bytes = .ok ())
    (cursor : Nat) : (d.transfer cursor (.write i bytes)).1 = .ok [] ∧
      (d.transfer cursor (.write i bytes)).2.1 = d.put i bytes := by
  have hfst := d.writeSector_fst i bytes cursor
  rw [h] at hfst
  unfold transfer
  dsimp only
  generalize d.writeSector i bytes cursor = result at hfst
  obtain ⟨r, cursor⟩ := result
  obtain rfl := hfst
  exact ⟨rfl, rfl⟩

/-- A write that does not pass the check changes nothing, not even the cursor. -/
theorem transfer_write_error {i : Nat} {bytes : Bytes} {e : IoError}
    (h : d.checkWrite i bytes = .error e) (cursor : Nat) :
    d.transfer cursor (.write i bytes) = (.error e, d, cursor) := by
  simp only [transfer, writeSector, h]

/-- Nor does a read. -/
theorem transfer_read_error (hd : d.Reliable) {i length : Nat} {e : IoError}
    (h : d.check i length = .error e) (cursor : Nat) :
    d.transfer cursor (.read i length) = (.error e, d, cursor) := by
  obtain ⟨sectors, size, medium⟩ := d
  cases medium with
  | memory data => simp only [transfer, readSector, h]
  | image img => simp only [transfer, readSector, h]
  | sink blank => exact hd.elim

namespace Serves

/-- What is refused changes nothing. -/
theorem refused (h : d.Serves n size past) {x : Transfer} {e : IoError}
    (he : x.refusal? n size = some e) (cursor : Nat) :
    d.transfer cursor x = (.error e, d, cursor) ∧ d.Serves n size (past ++ [x]) := by
  have hcheck := d.check_eq x
  rw [h.sectors_eq, h.sectorSize_eq, he] at hcheck
  refine ⟨?_, h.reliable, h.sectors_eq, h.sectorSize_eq, fun i hi => ?_⟩
  · cases x with
    | read i length => exact transfer_read_error h.reliable hcheck cursor
    | write i bytes =>
      exact transfer_write_error ((checkWrite_eq h.reliable i bytes).trans hcheck) cursor
  · rw [Transfer.held_refused he, h.bytes i hi]

/-- **One transfer** is answered as it should be, wherever the cursor is. -/
theorem transfer (h : d.Serves n size past) (cursor : Nat) (x : Transfer) :
    (d.transfer cursor x).1 = x.answer n size past ∧
      (d.transfer cursor x).2.1.Serves n size (past ++ [x]) := by
  unfold Transfer.answer
  cases hx : x.refusal? n size with
  | some e =>
    obtain ⟨heq, hserves⟩ := h.refused hx cursor
    rw [heq]
    exact ⟨rfl, hserves⟩
  | none =>
    obtain ⟨hi, hlen⟩ := Transfer.refusal?_eq_none hx
    rw [← h.sectorSize_eq] at hlen
    cases x with
    | read i length =>
      obtain rfl : length = d.sectorSize := hlen
      obtain ⟨hanswer, hdevice⟩ := d.transfer_read cursor i d.sectorSize
      rw [hanswer, hdevice]
      refine ⟨?_, h.reliable, h.sectors_eq, h.sectorSize_eq, fun j hj => ?_⟩
      · exact (read_eq h.reliable (h.sectors_eq ▸ hi)).trans (congrArg Except.ok (h.bytes i hi))
      · rw [Transfer.held_read, h.bytes j hj]
    | write i bytes =>
      have hi' : i < d.sectors := h.sectors_eq ▸ hi
      obtain ⟨hanswer, hdevice⟩ :=
        transfer_write_ok (checkWrite_of_lt h.reliable hi' hlen) cursor
      rw [hanswer, hdevice]
      refine ⟨rfl, reliable_put h.reliable hlen, ?_, ?_, fun j hj => ?_⟩
      · rw [sectors_put, h.sectors_eq]
      · rw [sectorSize_put, h.sectorSize_eq]
      · rw [bytesAt_put h.reliable hi' hlen, Transfer.held_write hx, h.bytes j hj]

/-- **Every sequence of transfers** is answered as it should be. -/
theorem transfers (h : d.Serves n size past) (cursor : Nat) (xs : List Transfer) :
    (d.transfers cursor xs).1 = xs.mapIdx (fun i x => x.answer n size (past ++ xs.take i)) ∧
      (d.transfers cursor xs).2.1.Serves n size (past ++ xs) := by
  induction xs generalizing d past cursor with
  | nil => exact ⟨rfl, by rwa [List.append_nil]⟩
  | cons x rest ih =>
    obtain ⟨hanswer, hserves⟩ := h.transfer cursor x
    obtain ⟨hanswers, hafter⟩ := ih hserves (d.transfer cursor x).2.2
    simp only [List.append_assoc, List.singleton_append] at hanswers hafter
    refine ⟨?_, hafter⟩
    rw [List.mapIdx_cons, List.take_zero, List.append_nil, ← hanswer]
    exact congrArg ((d.transfer cursor x).1 :: ·) hanswers

/-- **What every accepted write keeps** is kept by every sequence of transfers. -/
theorem preserves {P : Device → Prop}
    (hput : ∀ d i bytes, P d → i < d.sectors → bytes.length = d.sectorSize → P (d.put i bytes))
    (h : d.Serves n size past) (hd : P d) (cursor : Nat) (xs : List Transfer) :
    P (d.transfers cursor xs).2.1 := by
  induction xs generalizing d past cursor with
  | nil => exact hd
  | cons x rest ih =>
    refine ih (h.transfer cursor x).2 ?_ _
    cases hx : x.refusal? n size with
    | some e =>
      rw [(h.refused hx cursor).1]
      exact hd
    | none =>
      obtain ⟨hi, hlen⟩ := Transfer.refusal?_eq_none hx
      rw [← h.sectors_eq] at hi
      rw [← h.sectorSize_eq] at hlen
      cases x with
      | read i length => exact hd
      | write i bytes =>
        have hcheck := checkWrite_of_lt h.reliable (show i < d.sectors from hi) hlen
        rw [(transfer_write_ok hcheck cursor).2]
        exact hput d i bytes hd hi hlen

end Serves

/-! ## Memory and image files -/

/-- A device in memory has zeros in every sector at first. -/
theorem serves_blank (n size : Nat) : (blank n size).Serves n size [] where
  reliable := trivial
  sectors_eq := rfl
  sectorSize_eq := rfl
  bytes i hi := by
    rw [Transfer.held_nil]
    apply List.ext_getElem?
    intro t
    by_cases ht : t < size
    · rw [blank, getElem?_bytesAt_memory hi ht, Memory.byte_blank, Bytes.zeros,
        List.getElem?_replicate, if_pos ht]
    · rw [List.getElem?_eq_none, List.getElem?_eq_none]
      · rw [Bytes.length_zeros]
        exact Nat.not_lt.mp ht
      · rw [bytesAt, Bytes.length_fit]
        exact Nat.not_lt.mp ht

/-- An image file that is not there is made, with zeros. -/
theorem ofImage_none (n size : Nat) :
    ofImage none n size = (⟨n, size, .image (Image.empty.resize (n * size))⟩, true) := rfl

/-- **An image file that is long enough** is opened as it is. -/
theorem ofImage_eq {img : Image} (h : n * size ≤ img.size) :
    ofImage (some img) n size = (⟨n, size, .image img⟩, false) := by
  simp [ofImage, Nat.not_lt.mpr h]

/-- So has a new image file. -/
theorem serves_ofImage (n size : Nat) : (ofImage none n size).1.Serves n size [] where
  reliable := Nat.le_refl _
  sectors_eq := rfl
  sectorSize_eq := rfl
  bytes i hi := by
    rw [ofImage_none, Transfer.held_nil]
    apply List.ext_getElem?
    intro t
    by_cases ht : t < size
    · have hend : i * size + t < n * size :=
        Nat.lt_of_lt_of_le (Nat.add_lt_add_left ht _) (end_le_of_lt size hi)
      rw [getElem?_bytesAt_image (Nat.le_refl (n * size)) hi ht, Image.get?_resize, if_pos hend,
        Bytes.zeros, List.getElem?_replicate, if_pos ht]
      rfl
    · rw [List.getElem?_eq_none, List.getElem?_eq_none]
      · rw [Bytes.length_zeros]
        omega
      · rw [bytesAt, Bytes.length_fit]
        exact Nat.not_lt.mp ht

/-- The device keeps its sectors in a memory that has just the bytes for them. -/
def InMemory (d : Device) : Prop :=
  ∃ data, d.medium = .memory data ∧ data.size = d.sectors * d.sectorSize

/-- The device keeps its sectors in an image file that has just the bytes for them. -/
def OnImage (d : Device) : Prop :=
  ∃ img, d.medium = .image img ∧ img.size = d.sectors * d.sectorSize

theorem inMemory_blank (n size : Nat) : (blank n size).InMemory := ⟨_, rfl, rfl⟩

theorem onImage_ofImage (n size : Nat) : (ofImage none n size).1.OnImage := ⟨_, rfl, rfl⟩

theorem InMemory.put {d : Device} (h : d.InMemory) (i : Nat) (bytes : Bytes) :
    (d.put i bytes).InMemory := by
  obtain ⟨sectors, size, medium⟩ := d
  obtain ⟨data, rfl, hsize⟩ := h
  exact ⟨_, rfl, hsize⟩

/-- No write that is accepted makes the image longer: its bytes end where the image does, or
before. -/
theorem OnImage.put {d : Device} {i : Nat} {bytes : Bytes} (h : d.OnImage) (hi : i < d.sectors)
    (hlen : bytes.length = d.sectorSize) : (d.put i bytes).OnImage := by
  obtain ⟨sectors, size, medium⟩ := d
  obtain ⟨img, rfl, hsize⟩ := h
  have hend : i * size + size ≤ sectors * size := end_le_of_lt size hi
  have hlen : bytes.length = size := hlen
  have hsize : img.size = sectors * size := hsize
  refine ⟨_, rfl, ?_⟩
  show max img.size (i * size + bytes.length) = sectors * size
  omega

/-- A write to an image is accepted only for a whole sector of the device. -/
theorem OnImage.of_checkWrite (h : d.OnImage) {i : Nat} {bytes : Bytes}
    (hcheck : d.checkWrite i bytes = .ok ()) : i < d.sectors ∧ bytes.length = d.sectorSize := by
  obtain ⟨sectors, size, medium⟩ := d
  obtain ⟨img, rfl, -⟩ := h
  exact check_ok hcheck

/-- **The sectors of a memory** are the slices of its row. -/
theorem slice_of_medium {data : Memory} (h : d.medium = .memory data)
    (hsize : data.size = d.sectors * d.sectorSize) {i : Nat} (hi : i < d.sectors) :
    (data.toBytes.drop (i * d.sectorSize)).take d.sectorSize = d.bytesAt i := by
  obtain ⟨sectors, size, medium⟩ := d
  obtain rfl : medium = .memory data := h
  have hread := read_eq (d := ⟨sectors, size, .memory data⟩) trivial hi
  rw [read_memory hi] at hread
  rw [← Except.ok.inj hread, Memory.slice_eq]
  exact hsize.symm ▸ end_le_of_lt size hi

/-- **A device that is opened again** on its image is the same device, and not a fresh one. -/
theorem OnImage.reopen (h : d.OnImage) : ∃ img, d.image? = some img ∧
    img.size = d.sectors * d.sectorSize ∧
      ofImage (some img) d.sectors d.sectorSize = (d, false) := by
  obtain ⟨sectors, size, medium⟩ := d
  obtain ⟨img, rfl, hsize⟩ := h
  exact ⟨img, rfl, hsize, ofImage_eq (Nat.le_of_eq hsize.symm)⟩

/-- **A device in memory and one on a new image file are interchangeable.** Whatever is asked of
them, and wherever the cursor of the file is, both answer what `Transfer.answer` says. The memory is
one row of bytes, whose slices are the sectors. The image file is fresh and all zeros at first, and
keeps its length; closed after any of the transfers and opened again it is not fresh, and the
device goes on as if nothing had happened. -/
theorem blank_ofImage_transfers (n size : Nat) (xs ys : List Transfer) (c c₁ c₂ : Nat) :
    ((ofImage none n size).2 = true ∧
      (ofImage none n size).1.image? = some (Image.empty.resize (n * size))) ∧
    ((blank n size).transfers c xs).1 = xs.mapIdx (fun i x => x.answer n size (xs.take i)) ∧
    ((ofImage none n size).1.transfers c₁ xs).1 =
      xs.mapIdx (fun i x => x.answer n size (xs.take i)) ∧
    (∃ data, ((blank n size).transfers c xs).2.1.medium = .memory data ∧
      data.toBytes.length = n * size ∧
      ∀ i < n, (data.toBytes.drop (i * size)).take size = Transfer.held n size xs i) ∧
    ∃ img, ((ofImage none n size).1.transfers c₁ xs).2.1.image? = some img ∧ img.size = n * size ∧
      (ofImage (some img) n size).2 = false ∧
      (∀ i < n, (ofImage (some img) n size).1.sector? i = some (Transfer.held n size xs i)) ∧
      ((ofImage (some img) n size).1.transfers c₂ ys).1 =
        ys.mapIdx (fun i x => x.answer n size (xs ++ ys.take i)) := by
  have hblank := serves_blank n size
  have hfile := serves_ofImage n size
  obtain ⟨hmemory, hrow⟩ := hblank.transfers c xs
  obtain ⟨himage, hafter⟩ := hfile.transfers c₁ xs
  simp only [List.nil_append] at hmemory hrow himage hafter
  refine ⟨⟨rfl, rfl⟩, hmemory, himage, ?_, ?_⟩
  · obtain ⟨data, hmedium, hsize⟩ :=
      hblank.preserves (fun _ i bytes h _ _ => h.put i bytes) (inMemory_blank n size) c xs
    have hslices := fun i => slice_of_medium (i := i) hmedium hsize
    rw [hrow.sectors_eq, hrow.sectorSize_eq] at hsize
    rw [hrow.sectors_eq, hrow.sectorSize_eq] at hslices
    exact ⟨data, hmedium, (Memory.length_toBytes data).trans hsize, fun i hi =>
      (hslices i hi).trans (hrow.bytes i hi)⟩
  · obtain ⟨img, himg, hsize, hreopen⟩ :=
      (hfile.preserves (fun _ _ _ => OnImage.put) (onImage_ofImage n size) c₁ xs).reopen
    rw [hafter.sectors_eq, hafter.sectorSize_eq] at hreopen hsize
    refine ⟨img, himg, hsize, ?_⟩
    rw [hreopen]
    refine ⟨rfl, fun i hi => ?_, (hafter.transfers c₂ ys).1⟩
    have hi' : i < ((ofImage none n size).1.transfers c₁ xs).2.1.sectors :=
      hafter.sectors_eq.symm ▸ hi
    rw [sector?, read_eq hafter.reliable hi', hafter.bytes i hi]
    rfl

end Device

end SectorChain
