import SectorChain.Boot
import SectorChain.Proofs.Interchange
import SectorChain.Proofs.Reading

/-!
# Starting from an image file

An image file that is long enough is only mounted, unless formatting is asked for, and every byte
of it stays. One that is too short counts as fresh: it is made longer and formatted, with or
without being asked, so that the files that were on it are gone.

`OnlyWrites x` says of any drive that `x` changes the device by nothing but writes that the device
accepts. What each such write preserves is therefore preserved by `x`.

Results:
* `format_onlyWrites`: formatting is of this kind, whether it succeeds or fails.
* `start_kept`: a start leaves an image that is long enough as it is.
* `start_short`: an image that is too short is formatted whatever was asked for.
* `start_unasked`: both, for every image.
-/

namespace SectorChain

/-- **The operation changes the device by accepted writes only**: every property of devices that
these preserve is preserved by the operation. -/
def OnlyWrites {α : Type} (x : DriveM α) : Prop :=
  ∀ P : Device → Prop, (∀ d i bytes, P d → d.checkWrite i bytes = .ok () → P (d.put i bytes)) →
    ∀ d : Drive, P d.device → P (driveAfter (x d)).device

theorem Still.onlyWrites {α : Type} {x : DriveM α} (h : Still x) : OnlyWrites x :=
  fun _ _ d hd => (h d).1.symm ▸ hd

namespace OnlyWrites

variable {α β : Type} {x : DriveM α} {f : α → DriveM β}

theorem bind (hx : OnlyWrites x) (hf : ∀ a, OnlyWrites (f a)) : OnlyWrites (x >>= f) := by
  intro P hP d hd
  have hx := hx P hP d hd
  cases h : x d with
  | error e d' =>
    rw [h] at hx
    rwa [run_bind_error h]
  | ok a d' =>
    rw [h] at hx
    rw [run_bind_ok h]
    exact hf a P hP d' hx

theorem attempt (hx : OnlyWrites x) : OnlyWrites (Drive.attempt x) := by
  intro P hP d hd
  have hx := hx P hP d hd
  unfold Drive.attempt
  cases h : x d <;> rw [h] at hx <;> exact hx

theorem discard (hx : OnlyWrites x) : OnlyWrites (Functor.discard x) := by
  intro P hP d hd
  have hx := hx P hP d hd
  show P (driveAfter (EStateM.map _ x d)).device
  unfold EStateM.map
  cases h : x d <;> rw [h] at hx <;> exact hx

/-- A write that is not accepted changes nothing. -/
theorem writeSector (sector : Nat) (bytes : Bytes) :
    OnlyWrites (Drive.writeSector sector bytes) := by
  intro P hP d hd
  cases hfails : d.faults d.tally (.write sector) with
  | true =>
    rw [Drive.writeSector_fails hfails]
    exact hd
  | false =>
    cases hcheck : d.device.checkWrite sector bytes with
    | ok _ =>
      rw [Drive.writeSector_passes hfails hcheck]
      exact hP d.device sector bytes hd hcheck
    | error e =>
      rw [Drive.writeSector_refused hfails hcheck]
      exact hd

end OnlyWrites

/-! ## Formatting -/

theorem Block.store_onlyWrites (b : Block) : OnlyWrites b.store :=
  (Still.note _).onlyWrites.bind fun _ => .writeSector _ _

namespace Header

theorem store_onlyWrites (h : Header) (sector : Nat) : OnlyWrites (h.store sector) :=
  Still.sectorSize.onlyWrites.bind fun _ => .writeSector _ _

theorem grow_onlyWrites (data count : Nat) (prev : Option Block) (m : FreeMap) :
    OnlyWrites (grow data count prev m) := by
  induction count generalizing prev m with
  | zero => exact (Still.pure _).onlyWrites
  | succ count ih =>
    unfold grow
    split
    · exact (Still.pure _).onlyWrites
    · refine (OnlyWrites.attempt ?_).bind fun r => ?_
      · cases prev with
        | none => exact Block.store_onlyWrites _
        | some b => exact (Block.store_onlyWrites _).bind fun _ => Block.store_onlyWrites _
      · cases r with
        | ok _ => exact ih _ _
        | error e => exact (Still.pure _).onlyWrites

theorem allocate_onlyWrites (m : FreeMap) (size : Nat) : OnlyWrites (allocate m size) := by
  refine Still.dataSize.onlyWrites.bind fun data => ?_
  dsimp only
  split
  · split
    · exact (Still.pure _).onlyWrites
    · refine (grow_onlyWrites _ _ _ _).bind fun p => ?_
      obtain ⟨m', r⟩ := p
      cases r with
      | ok _ => exact ((Still.note _).bind fun _ => Still.pure _).onlyWrites
      | error e => exact (Still.pure _).onlyWrites
  · exact (Still.pure _).onlyWrites

end Header

namespace Handle

theorem writeBlocks_onlyWrites (f : Handle) (data count : Nat) (bytes : Bytes) (pos : Nat) :
    OnlyWrites (f.writeBlocks data count bytes pos) := by
  induction count generalizing bytes pos with
  | zero => exact (Still.pure _).onlyWrites
  | succ count ih =>
    exact (f.header.blockAt_still _).onlyWrites.bind fun b =>
      (Block.store_onlyWrites _).bind fun _ => ih _ _

theorem writeAt_onlyWrites (f : Handle) (bytes : Bytes) (pos : Nat) :
    OnlyWrites (f.writeAt bytes pos) := by
  unfold writeAt
  split
  · exact (Still.pure _).onlyWrites
  · exact (Still.note _).onlyWrites.bind fun _ => Still.dataSize.onlyWrites.bind fun data =>
      (f.writeBlocks_onlyWrites _ _ _ _).bind fun _ => (Still.pure _).onlyWrites

end Handle

theorem Volume.format_onlyWrites : OnlyWrites format := by
  have hgeometry : Still checkGeometry := Still.get.bind fun d => by
    split
    · exact Still.pure _
    · exact Still.throw _
  have hopened : Still opened := (Handle.fetch_still _).bind fun _ => (Handle.fetch_still _).bind
    fun _ => Still.pure _
  refine hgeometry.onlyWrites.bind fun _ => Still.sectors.onlyWrites.bind fun sectors =>
    Still.sectorSize.onlyWrites.bind fun size => (Still.note _).onlyWrites.bind fun _ => ?_
  refine (Header.allocate_onlyWrites _ _).bind fun p => (Still.ofExcept _).onlyWrites.bind
    fun h₀ => (Header.allocate_onlyWrites _ _).bind fun q => (Still.ofExcept _).onlyWrites.bind
      fun h₁ => ?_
  exact (h₀.store_onlyWrites _).bind fun _ => (h₁.store_onlyWrites _).bind fun _ =>
    hopened.onlyWrites.bind fun v => (v.freeMapFile.writeAt_onlyWrites _ _).discard.bind fun _ =>
      (v.rootFile.writeAt_onlyWrites _ _).discard.bind fun _ => (Still.pure _).onlyWrites

/-! ## Images -/

/-- A device on an image file stays on one of the same length. -/
theorem OnlyWrites.onImage {α : Type} {x : DriveM α} (hx : OnlyWrites x) {d : Drive}
    (hd : d.device.OnImage) : ∃ img : Image,
      (driveAfter (x d)).device = ⟨d.device.sectors, d.device.sectorSize, .image img⟩ ∧
        img.size = d.device.sectors * d.device.sectorSize := by
  have hkept := hx (fun e => e.OnImage ∧ e.sectors = d.device.sectors ∧
    e.sectorSize = d.device.sectorSize) (fun e i bytes he hcheck => ?_) d ⟨hd, rfl, rfl⟩
  · generalize (driveAfter (x d)).device = e at hkept ⊢
    obtain ⟨sectors, sectorSize, medium⟩ := e
    obtain ⟨⟨img, rfl, hsize⟩, rfl, rfl⟩ := hkept
    exact ⟨img, rfl, hsize⟩
  · obtain ⟨himage, hsectors, hsectorSize⟩ := he
    obtain ⟨hi, hlen⟩ := himage.of_checkWrite hcheck
    exact ⟨himage.put hi hlen, (Device.sectors_put _ _ _).trans hsectors,
      (Device.sectorSize_put _ _ _).trans hsectorSize⟩

namespace Boot

variable {path : String} {img : Image} {sectors : Nat} {format : Bool}

theorem volume_mounts (path : String) : Still (volume path false) :=
  (Still.note _).bind fun _ => Volume.mount_still

theorem volume_onlyWrites (path : String) (formatting : Bool) :
    OnlyWrites (volume path formatting) := by
  cases formatting with
  | false => exact (volume_mounts path).onlyWrites
  | true => exact (Still.note _).onlyWrites.bind fun _ => Volume.format_onlyWrites

theorem start_drive (path : String) (file : Option Image) (sectors : Nat) (format : Bool) :
    (start path file sectors format).drive = driveAfter (volume path
      ((openImage path file sectors Layout.imageSectorSize).2 || format)
      (openImage path file sectors Layout.imageSectorSize).1) := by
  unfold start
  dsimp only
  split
  · rename_i h
    rw [h]
    rfl
  · rename_i h
    rw [h]
    rfl

theorem start_outcome {file : Option Image} {v : Volume}
    (h : (start path file sectors format).outcome = .ok v) : volume path
      ((openImage path file sectors Layout.imageSectorSize).2 || format)
      (openImage path file sectors Layout.imageSectorSize).1 =
        .ok v (start path file sectors format).drive := by
  unfold start at h ⊢
  dsimp only at h ⊢
  split at h
  · rename_i hv
    rw [hv]
    cases h
    rfl
  · cases h

theorem openImage_long (h : sectors * Layout.imageSectorSize ≤ img.size) :
    openImage path (some img) sectors Layout.imageSectorSize =
      ({ device := ⟨sectors, Layout.imageSectorSize, .image img⟩ }, false) := by
  unfold openImage
  rw [Device.ofImage_eq h]
  rfl

theorem openImage_short (h : img.size < sectors * Layout.imageSectorSize) :
    openImage path (some img) sectors Layout.imageSectorSize =
      ({ device := ⟨sectors, Layout.imageSectorSize,
           .image (img.resize (sectors * Layout.imageSectorSize))⟩,
         notes := #[.imageExtended (sectors * Layout.imageSectorSize) path] }, true) := by
  simp [openImage, Device.ofImage, h]

/-- The drive that is formatted when an image file is too short. -/
def extended (path : String) (img : Image) (sectors : Nat) : Drive where
  device := ⟨sectors, Layout.imageSectorSize,
    .image (img.resize (sectors * Layout.imageSectorSize))⟩
  notes := #[.imageExtended (sectors * Layout.imageSectorSize) path, .formattingImage path]

theorem faultFree_extended (path : String) (img : Image) (sectors : Nat) :
    (extended path img sectors).FaultFree := ⟨Nat.le_refl _, rfl⟩

theorem volume_short (h : img.size < sectors * Layout.imageSectorSize) (format : Bool) :
    volume path ((openImage path (some img) sectors Layout.imageSectorSize).2 || format)
        (openImage path (some img) sectors Layout.imageSectorSize).1 =
      Volume.format (extended path img sectors) := by
  rw [openImage_short h]
  rfl

/-- **An image file that is long enough stays as it is**, whether the start succeeds or fails. -/
theorem start_kept (h : sectors * Layout.imageSectorSize ≤ img.size) :
    (start path (some img) sectors false).drive.device.image? = some img := by
  rw [start_drive, openImage_long h]
  have hstill := (volume_mounts path { device := ⟨sectors, Layout.imageSectorSize, .image img⟩ }).1
  exact congrArg Device.image? hstill

/-- **An image file that is too short is formatted**, asked for or not. -/
theorem start_short (h : img.size < sectors * Layout.imageSectorSize) :
    start path (some img) sectors false = start path (some img) sectors true := by
  unfold start
  rw [openImage_short h]
  rfl

/-- It then has just the bytes of its sectors. -/
theorem start_short_image (path : String) (format : Bool)
    (h : img.size < sectors * Layout.imageSectorSize) : ∃ img' : Image,
    (start path (some img) sectors format).drive.device =
      ⟨sectors, Layout.imageSectorSize, .image img'⟩ ∧
    img'.size = sectors * Layout.imageSectorSize := by
  rw [start_drive, openImage_short h]
  exact (volume_onlyWrites path _).onImage ⟨_, rfl, rfl⟩

/-- A volume that comes of it is empty. -/
theorem start_short_empty (h : img.size < sectors * Layout.imageSectorSize)
    (hlimit : sectors ≤ Link.limit) {v : Volume}
    (hv : (start path (some img) sectors format).outcome = .ok v) :
    ∃ inv, (start path (some img) sectors format).drive.FaultFree ∧
      v.Consistent (start path (some img) sectors format).drive.disk inv ∧
      inv.slots = List.replicate Layout.directorySlots none := by
  have hvolume := start_outcome hv
  rw [volume_short h] at hvolume
  obtain ⟨inv, hfree, hcons, hslots, -⟩ :=
    Volume.exists_inventory_of_format (faultFree_extended path img sectors) hlimit hvolume
  exact ⟨inv, hfree, hcons, hslots⟩

/-- With room for an empty volume there is one. -/
theorem start_short_ok (path : String) (format : Bool)
    (h : img.size < sectors * Layout.imageSectorSize) (hlimit : sectors ≤ Link.limit)
    (hroom : Volume.minimalSectors (extended path img sectors).disk ≤ sectors) :
    ∃ v, (start path (some img) sectors format).outcome = .ok v := by
  have hsize : Layout.headerSize ≤ Layout.imageSectorSize := by decide
  obtain ⟨v, d, hv⟩ :=
    (Volume.format_ok_iff (faultFree_extended path img sectors)
      (Nat.le_trans hlimit (by decide))).mpr ⟨hsize, hroom⟩
  rw [← volume_short h format] at hv
  refine ⟨v, ?_⟩
  unfold start
  dsimp only
  rw [hv]

/-- **A start that is not asked to format** leaves every byte of an image file that has room for
the sectors, whether it succeeds or fails. A shorter one is made longer and formatted, just as if
that had been asked for: no file that was on it is left. -/
theorem start_unasked (path : String) (img : Image) (sectors : Nat) :
    (sectors * Layout.imageSectorSize ≤ img.size →
      (start path (some img) sectors false).drive.device.image? = some img) ∧
    (img.size < sectors * Layout.imageSectorSize →
      start path (some img) sectors false = start path (some img) sectors true ∧
      (∃ img', (start path (some img) sectors false).drive.device.image? = some img' ∧
        img'.size = sectors * Layout.imageSectorSize) ∧
      (sectors ≤ Link.limit → ∀ v, (start path (some img) sectors false).outcome = .ok v →
        ∃ inv, v.Consistent (start path (some img) sectors false).drive.disk inv ∧
          inv.slots = List.replicate Layout.directorySlots none)) := by
  refine ⟨start_kept, fun h => ⟨start_short h, ?_, fun hlimit v hv => ?_⟩⟩
  · obtain ⟨img', hdevice, hsize⟩ := start_short_image path false h
    exact ⟨img', congrArg Device.image? hdevice, hsize⟩
  · obtain ⟨inv, -, hcons, hslots⟩ := start_short_empty h hlimit hv
    exact ⟨inv, hcons, hslots⟩

/-- The image of one byte, and one that is long enough. -/
theorem start_unasked_both :
    (start "disk.img" (some (.resize .empty 8192)) 64 false).drive.device.image? =
      some (.resize .empty 8192) ∧
    start "disk.img" (some (.ofBytes #[1])) 64 false =
      start "disk.img" (some (.ofBytes #[1])) 64 true :=
  ⟨(start_unasked "disk.img" _ 64).1 (by decide),
    ((start_unasked "disk.img" _ 64).2 (by decide)).1⟩

/-- The image of a volume begins with the length of the free map file. -/
theorem first_byte {d : Drive} {v : Volume} {inv : Inventory} {img : Image} {n : Nat}
    (hdevice : d.device = ⟨n, Layout.imageSectorSize, .image img⟩)
    (hsize : img.size = n * Layout.imageSectorSize) (hv : v.Consistent d.disk inv) (hn : 0 < n) :
    img.get? 0 = some (UInt8.ofNat (UInt32.ofNat (Layout.freeMapSize n)).toNat) := by
  have hsectors : d.disk.sectors = n := congrArg Device.sectors hdevice
  have hlength := hv.map_file.length_content hv.dataSize_pos
  rw [hv.map_length, hsectors] at hlength
  obtain ⟨-, rest, hbytes⟩ := hv.map_file.header
  rw [hv.map_sector] at hbytes
  have hfirst : (d.device.bytesAt 0)[0]? =
      some (UInt8.ofNat (UInt32.ofNat (Layout.freeMapSize n)).toNat) := by
    rw [show d.device.bytesAt 0 = _ from hbytes, Header.encode, ← hlength]
    rfl
  rwa [hdevice, Device.getElem?_bytesAt_image (Nat.le_of_eq hsize.symm) hn (by decide),
    Nat.zero_mul] at hfirst

/-- The only byte of an image file is overwritten by a start that was not asked to format. -/
theorem start_erases : ∃ img',
    (start "disk.img" (some (.ofBytes #[1])) 64 false).drive.device.image? = some img' ∧
      (Image.ofBytes #[1]).get? 0 = some 1 ∧ img'.get? 0 = some 8 := by
  have hshort : (Image.ofBytes #[1]).size < 64 * Layout.imageSectorSize := by decide
  obtain ⟨v, hv⟩ := start_short_ok "disk.img" false hshort (by decide) (by decide)
  obtain ⟨img', hdevice, hsize⟩ := start_short_image "disk.img" false hshort
  obtain ⟨inv, -, hcons, -⟩ := start_short_empty hshort (by decide) hv
  exact ⟨img', congrArg Device.image? hdevice, rfl, first_byte hdevice hsize hcons (by decide)⟩

end Boot

end SectorChain
