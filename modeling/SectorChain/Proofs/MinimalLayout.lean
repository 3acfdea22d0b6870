import SectorChain.Proofs.Attempts
import SectorChain.Proofs.SafeRemoval
import SectorChain.Proofs.StaleData

/-!
# The layout of an empty volume

A format puts the free map file and the root directory into the first sectors: the two headers, the
blocks of the map, and those of the root. It needs these and no others, so it succeeds just if there
are as many, and what it answers and writes is determined by the size of the device.

* `Volume.mapBlocks k`, `Volume.rootBlocks k`: the numbers of blocks of the two files.
* `Usage.Minimal u map root`: the volume in use is empty, and lies in the first sectors, with `map`
  blocks of the free map and `root` blocks of the root directory.

Results:
* `exists_chains_of_format`: the two chains of a volume that was just made.
* `format_attempts`: a format writes to the first sectors only.
* `format_minimal`: when a format succeeds, and what it makes.
-/

namespace SectorChain

namespace Volume

variable {F : Faults} {k : Disk}

/-! ## The two chains -/

/-- The number of blocks of the free map file. -/
def mapBlocks (k : Disk) : Nat := Layout.blocksFor (Layout.freeMapSize k.sectors) k.dataSize

/-- The number of blocks of the root directory. -/
def rootBlocks (k : Disk) : Nat := Layout.blocksFor Layout.directorySize k.dataSize

theorem minimalSectors_eq (k : Disk) : minimalSectors k = 2 + mapBlocks k + rootBlocks k := rfl

theorem mapChain_eq (hroom : minimalSectors k ≤ k.sectors) :
    mapChain k = List.range' 2 (mapBlocks k) := by
  rw [minimalSectors_eq] at hroom
  rw [mapChain, FreeMap.free_reserved]
  exact List.take_range'_of_length_ge (by unfold mapBlocks at hroom; omega)

theorem rootChain_eq (hroom : minimalSectors k ≤ k.sectors) :
    rootChain k = List.range' (2 + mapBlocks k) (rootBlocks k) := by
  rw [minimalSectors_eq] at hroom
  rw [rootChain, FreeMap.free_reserved, List.drop_range', Nat.mul_one]
  exact List.take_range'_of_length_ge (by unfold mapBlocks rootBlocks at hroom; omega)

/-- **The chains of a volume that was just made** lie behind the two headers, the free map first. -/
theorem exists_chains_of_format {d : Drive} (hd : d.FaultFree)
    (hlimit : d.device.sectors ≤ Link.limit) (hsize : Layout.headerSize ≤ d.disk.sectorSize)
    (hroom : minimalSectors d.disk ≤ d.disk.sectors) :
    ∃ v d' inv, format d = .ok v d' ∧ d'.FaultFree ∧ d.disk.SameSize d'.disk ∧
      v.Consistent d'.disk inv ∧ v.Settled inv ∧
      inv.slots = List.replicate Layout.directorySlots none ∧
      v.openFiles = .empty Layout.maxOpen ∧
      inv.mapFile.place.chain = List.range' 2 (mapBlocks d.disk) ∧
      inv.root.chain = List.range' (2 + mapBlocks d.disk) (rootBlocks d.disk) := by
  obtain ⟨v, k', inv, hy, hv, hslots, hopen, hsame, hsectors⟩ := format_yields hlimit hsize hroom
  obtain ⟨d', hformat, hd', rfl⟩ := hy d hd rfl
  have hnone : Slots.sectors inv.slots = [] := by
    rw [hslots]
    exact Slots.sectors_replicate_none _
  have hlength : inv.mapFile.place.chain.length = (mapChain d.disk).length := by
    rw [mapChain_eq hroom, List.length_range', hv.map_file.blocks,
      ← hv.map_file.length_content hv.dataSize_pos, hv.map_length, hsame.sectors, hsame.dataSize]
    rfl
  rw [inv.sectors_eq, hnone, List.append_nil] at hsectors
  obtain ⟨-, htail⟩ := List.cons.inj hsectors
  obtain ⟨hmap, hroot⟩ := List.append_inj htail hlength
  refine ⟨v, d', inv, hformat, hd', hsame, hv, settled_of_format hformat hv hopen, hslots, hopen,
    hmap.trans (mapChain_eq hroom), (List.cons.inj hroot).2.trans (rootChain_eq hroom)⟩

end Volume

/-- **The volume in use is an empty one of the least size.** What there is of it is read from the
device: the map with the sectors in use, the two chains, and a root without entries; mounting
answers the volume itself. -/
structure Usage.Minimal (u : Usage) (map root : Nat) : Prop where
  freeMap : ∃ m, u.ask u.volume.freeMap = .ok m ∧ ∀ s, m.isUsed s = true ↔ s < 2 + map + root
  numFree : u.ask u.volume.numFree = .ok (u.drive.device.sectors - (2 + map + root))
  mapChain : u.ask u.volume.freeMapFile.header.chain = .ok (List.range' 2 map)
  rootChain : u.ask u.volume.rootFile.header.chain = .ok (List.range' (2 + map) root)
  empty : ∃ table, u.ask u.volume.root = .ok table ∧
    table.slots.length = Layout.directorySlots ∧ ∀ e ∈ table.slots, e.inUse = false
  mounts : u.ask Volume.mount = .ok u.volume

namespace Volume

/-- What a format answers is such a volume. -/
theorem Consistent.minimal {v : Volume} {d : Drive} {inv : Inventory} (hd : d.FaultFree)
    (h : v.Consistent d.disk inv) (hsettled : v.Settled inv)
    (hslots : inv.slots = List.replicate Layout.directorySlots none)
    (hopen : v.openFiles = .empty Layout.maxOpen) {map root : Nat}
    (hmap : inv.mapFile.place.chain = List.range' 2 map)
    (hroot : inv.root.chain = List.range' (2 + map) root) :
    ({ drive := d, volume := v } : Usage).Minimal map root := by
  obtain ⟨table, htable, hshows, -⟩ := h.exists_table
  have hnone : Slots.sectors inv.slots = [] := by
    rw [hslots]
    exact Slots.sectors_replicate_none _
  have hsectors : inv.sectors = 0 :: (List.range' 2 map ++ 1 :: List.range' (2 + map) root) := by
    rw [inv.sectors_eq, hnone, List.append_nil, Place.sectors, Place.sectors, hmap, hroot,
      h.map_sector, h.root_sector]
    rfl
  have hcount := h.numFree_add
  rw [hsectors, List.length_cons, List.length_append, List.length_cons, List.length_range',
    List.length_range'] at hcount
  refine ⟨⟨_, Usage.ask_eq hd h.freeMap_yields, fun s => ?_⟩, ?_, ?_, ?_,
    ⟨table, Usage.ask_eq hd (h.root_yields htable), htable.length_slots, fun e he => ?_⟩, ?_⟩
  · rw [h.used s, hsectors]
    simp only [List.mem_cons, List.mem_append, List.mem_range'_1]
    omega
  · refine (Usage.ask_eq hd h.numFree_yields).trans (congrArg Except.ok ?_)
    show _ = d.disk.sectors - _
    omega
  · rw [← hmap]
    refine Usage.ask_eq hd (Disk.Chained.chain_yields ?_)
    exact h.map_header.symm ▸ h.map_file.chained
  · rw [← hroot]
    refine Usage.ask_eq hd (Disk.Chained.chain_yields ?_)
    exact h.root_header.symm ▸ htable.file.chained
  · cases hused : e.inUse with
    | false => rfl
    | true =>
      obtain ⟨i, hi⟩ := List.getElem?_of_mem he
      obtain ⟨t, ht⟩ := hshows.exists_tree hi hused
      rw [hslots] at ht
      cases List.eq_of_mem_replicate ht
  · refine (Usage.ask_eq hd h.mount_yields.2).trans (congrArg Except.ok ?_)
    exact (hsettled.eq_mounted fun id => by rw [hopen, HandleTable.get?_empty]).symm

/-! ## What a format writes -/

/-- **A format writes to the first sectors only.** -/
theorem format_attempts (hF : F = fun _ _ => false) (hlimit : k.sectors ≤ Link.limit)
    (hsize : Layout.headerSize ≤ k.sectorSize) (hroom : minimalSectors k ≤ k.sectors) :
    Attempts F format k fun _ w _ => ∀ y ∈ w, y.1 < minimalSectors k := by
  have hk := Disk.dataSize_pos hsize
  obtain ⟨h₀, h₁, k₁, k₂, k₃, k₄, hy₁, hy₂, hy₃, hy₄, hsame₁, -, -, hsame₄, hfile₀, hfile₁⟩ :=
    reserve_yields (Nat.le_trans hlimit (by decide)) hsize hk hroom
  have hk₄ : 0 < k₄.dataSize := hsame₄.dataSize.symm ▸ hk
  let p₀ : Place := ⟨Layout.freeMapSector, h₀, mapChain k⟩
  let p₁ : Place := ⟨Layout.rootSector, h₁, rootChain k⟩
  -- both chains are in the first sectors
  have hmapChain : ∀ s ∈ mapChain k, s < minimalSectors k := fun s hs => by
    rw [mapChain_eq hroom, List.mem_range'_1] at hs
    rw [minimalSectors_eq]
    omega
  have hrootChain : ∀ s ∈ rootChain k, s < minimalSectors k := fun s hs => by
    rw [rootChain_eq hroom, List.mem_range'_1] at hs
    rw [minimalSectors_eq]
    omega
  have hheader : ∀ (k' : Disk) (h : Header) (s : Nat), s < 2 →
      Attempts F (h.store s) k' fun _ w _ => ∀ y ∈ w, y.1 < minimalSectors k :=
    fun k' h s hs => (Disk.storeHeader_attempts h s).mono fun r w k'' _ horder y hy => by
      rw [List.mem_singleton.mp (horder.mem hy), minimalSectors_eq]
      omega
  have hnone : ∀ e : VolumeError, ∀ y ∈ ([] : List (Nat × Bool)), y.1 < minimalSectors k :=
    fun _ y hy => by cases hy
  unfold format
  refine Attempts.read checkGeometry_candid (checkGeometry_yields hsize) hnone ?_
  refine Attempts.read Candid.sectors (Yields.sectors k) hnone ?_
  refine Attempts.read Candid.sectorSize (Yields.sectorSize k) hnone ?_
  refine Attempts.read (Candid.note _) (Yields.note _ k) hnone ?_
  refine Attempts.within_ok (p := (· < minimalSectors k)) ((Disk.allocate_attempts _ _).mono
    fun r w k' _ hw y hy => hmapChain _ (hw y hy)) hF hy₁ ?_
  refine Attempts.read (Candid.ofExcept _) (Yields.pure h₀ k₁) hnone ?_
  refine Attempts.within_ok (p := (· < minimalSectors k)) ((Disk.allocate_attempts _ _).mono
    fun r w k' _ hw y hy => hrootChain _ ?_) hF hy₂ ?_
  · have hmem := hw y hy
    have hfree : ((mapChain k).foldl FreeMap.mark (.reserved k.sectors)).free =
        (FreeMap.reserved k.sectors).free.drop (mapBlocks k) := FreeMap.free_foldl_mark _ _
    rwa [hfree, hsame₁.dataSize] at hmem
  refine Attempts.read (Candid.ofExcept _) (Yields.pure h₁ k₂) hnone ?_
  refine Attempts.within_ok (p := (· < minimalSectors k)) (hheader k₂ h₀ _ (by decide)) hF hy₃ ?_
  refine Attempts.within_ok (p := (· < minimalSectors k)) (hheader k₃ h₁ _ (by decide)) hF hy₄ ?_
  have hopened : Yields opened k₄ (.ok ⟨p₀.handle, p₁.handle, .empty Layout.maxOpen⟩) k₄ :=
    hfile₀.open_yields.bind (hfile₁.open_yields.bind (Yields.pure _ k₄))
  refine Attempts.read ((Handle.fetch_candid _).bind fun _ => (Handle.fetch_candid _).bind
    fun _ => Candid.pure _) hopened hnone ?_
  have hlength : ((initialMap k).firstBytes (min (initialMap k).stored p₀.handle.length)).length =
      (Bytes.zeros (Layout.freeMapSize k.sectors)).length := by
    have hheader₀ : p₀.handle.length = Layout.freeMapSize k.sectors :=
      (hfile₀.length_content hk₄).symm.trans (Bytes.length_zeros _)
    rw [FreeMap.length_firstBytes, hheader₀, stored_initialMap, Nat.min_self, Bytes.length_zeros]
  obtain ⟨k₅, hy₅, hkeep₅, -⟩ := hfile₀.overwrite_yields (f := p₀.handle) hk₄ rfl
    (notMem_mapChain (s := 0) (by decide)) hlength
  refine Attempts.within_ok (p := (· < minimalSectors k))
    ((hfile₀.overwrite_attempts hk₄ rfl hlength).mono
      fun r w k' _ horder y hy => hmapChain _ (horder.mem hy)) hF hy₅ ?_
  have hroot₅ := hfile₁.keeps hkeep₅ fun s hs => root_notMem_mapChain hs
  have hempty : (Directory.empty Layout.directorySlots).encode.length =
      (Bytes.zeros Layout.directorySize).length := by
    rw [Bytes.length_zeros, Directory.length_encode_empty]
  refine Attempts.within (p := (· < minimalSectors k))
    ((hroot₅.overwrite_attempts (hkeep₅.dataSize ▸ hk₄) rfl hempty).mono
      fun r w k' _ horder y hy => hrootChain _ (horder.mem hy)) fun _ k' => ?_
  exact Attempts.pure fun y hy => by cases hy

/-- **A format makes the least layout, whatever is on the device.** On a device without faults with
`n` sectors that are large enough, let `least` be the number of sectors of two headers, of the free
map and of the root directory. With fewer than `least` sectors the format is refused. Otherwise it
succeeds, and makes an empty volume in just the first `least` sectors. No other sector is written,
and the volume that is answered, and all that is in these sectors, is the same on every device of
this size. -/
theorem format_minimal {d : Drive} (hd : d.FaultFree) (hlimit : d.device.sectors ≤ Link.limit)
    (hsize : Layout.headerSize ≤ d.device.sectorSize) :
    let data := Layout.dataSize d.device.sectorSize
    let map := Layout.blocksFor (Layout.freeMapSize d.device.sectors) data
    let root := Layout.blocksFor Layout.directorySize data
    let least := 2 + map + root
    (d.device.sectors < least → ∃ d', format d = .error .outOfSpace d') ∧
    (least ≤ d.device.sectors → ∃ v d', format d = .ok v d' ∧
      ({ drive := d', volume := v } : Usage).Minimal map root ∧
      d'.device.sectors = d.device.sectors ∧
      (∃ l, d'.accesses.toList = d.accesses.toList ++ l ∧ ∀ s, .write s ∈ l → s < least) ∧
      (∀ s, least ≤ s → d'.device.sector? s = d.device.sector? s) ∧
      ∀ d₂ : Drive, d₂.FaultFree → d₂.device.sectors = d.device.sectors →
        d₂.device.sectorSize = d.device.sectorSize → ∃ d₂', format d₂ = .ok v d₂' ∧
          ∀ s < least, d₂'.device.sector? s = d'.device.sector? s) := by
  intro data map root least
  refine ⟨fun hfull => ?_, fun hroom => ?_⟩
  · obtain ⟨k', hy⟩ := format_full (k := d.disk) (Nat.le_trans hlimit (by decide)) hsize hfull
    obtain ⟨d', hrun, -⟩ := hy d hd rfl
    exact ⟨d', hrun⟩
  obtain ⟨v, d', inv, hformat, hd', hsame, hv, hsettled, hslots, hopen, hmap, hroot⟩ :=
    exists_chains_of_format hd hlimit hsize hroom
  obtain ⟨r, d₁, l, hrun, -, -, hlog, hkeep, hwrites⟩ :=
    format_attempts (k := d.disk) hd.no_faults hlimit hsize hroom d hd.reliable rfl rfl
  obtain ⟨-, rfl⟩ := ended_eq_ok (hrun.symm.trans hformat)
  refine ⟨v, d₁, hformat, hv.minimal hd' hsettled hslots hopen hmap hroot, hsame.sectors,
    ⟨l, hlog.accesses, fun s hs => ?_⟩, fun s hs => ?_, fun d₂ hd₂ hsectors hsectorSize => ?_⟩
  · obtain ⟨passed, hmem⟩ := Faults.mem_writes hs
    exact hwrites _ hmem
  · refine hkeep.sector?_eq hd hd' fun hmem => ?_
    exact absurd (hwrites _ hmem) (Nat.not_lt.mpr hs)
  · obtain ⟨r, d', d₂', hrun', hrun₂, -, hd₂', hagree⟩ := format_depends (k := d.disk) hlimit hsize
      hroom d d₂ hd hd₂ rfl ⟨hsectors, hsectorSize, fun _ hs => hs.elim⟩
    obtain ⟨rfl, rfl⟩ := ended_eq_ok (hrun'.symm.trans hformat)
    refine ⟨d₂', hrun₂, fun s hs => hagree.sector?_eq hd' hd₂' ?_⟩
    rw [mapChain_eq (k := d.disk) hroom, rootChain_eq (k := d.disk) hroom]
    simp only [List.mem_cons, List.mem_append, List.mem_range'_1]
    have hleast : s < 2 + mapBlocks d.disk + rootBlocks d.disk := hs
    omega

/-- Fourteen sectors of 128 bytes are enough: two headers, a block of the map and eleven of the
root. Thirteen are not, and neither is a device without sectors. -/
theorem format_minimal_sizes :
    (∃ d', format { device := .blank 0 128 } = .error .outOfSpace d') ∧
    (∃ d', format { device := .blank 13 128 } = .error .outOfSpace d') ∧
    ∃ v d', format { device := .blank 14 128 } = .ok v d' ∧
      ({ drive := d', volume := v } : Usage).Minimal 1 11 := by
  refine ⟨?_, ?_, ?_⟩
  · exact (format_minimal (Drive.faultFree_blank 0 128) (by decide) (by decide)).1 (by decide)
  · exact (format_minimal (Drive.faultFree_blank 13 128) (by decide) (by decide)).1 (by decide)
  · obtain ⟨v, d', hformat, hminimal, -⟩ :=
      (format_minimal (Drive.faultFree_blank 14 128) (by decide) (by decide)).2 (by decide)
    exact ⟨v, d', hformat, hminimal⟩

end Volume

end SectorChain
