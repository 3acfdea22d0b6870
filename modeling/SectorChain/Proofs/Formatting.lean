import SectorChain.Proofs.OpenFiles

/-!
# Formatting

Formatting makes the free map file and the root directory in the first free sectors behind the two
that are reserved for their headers. Nothing of what was on the device before matters.

Results:
* `free_reserved`: before formatting, all sectors but the reserved ones are free.
* `format_made`: with room for both files they are on the disk, and the map has just their sectors
  in use.
* `format_yields`: the volume is consistent then, and empty.
* `mount_yields`: a consistent volume is mounted again.
* `format_full`, `format_refused`: without room, or on sectors that are too small, it fails.
* `format_ok_iff`: in all other cases it does not.
* `exists_inventory_of_format`: whatever a successful format was begun on, the volume it answers is
  consistent.
-/

namespace SectorChain

/-- The free map before formatting: the two reserved sectors are in use. -/
def FreeMap.reserved (sectors : Nat) : FreeMap :=
  ((FreeMap.empty sectors).mark Layout.freeMapSector).mark Layout.rootSector

namespace FreeMap

@[simp] theorem size_reserved (n : Nat) : (reserved n).size = n := by
  unfold reserved
  rw [size_mark, size_mark]
  rfl

@[simp] theorem stored_reserved (n : Nat) : (reserved n).stored = Layout.freeMapSize n := by
  unfold reserved
  rw [stored_mark, stored_mark]
  rfl

theorem isUsed_reserved (n s : Nat) : (reserved n).isUsed s = true ↔ s < 2 ∧ s < n := by
  have hempty : (FreeMap.empty n).isUsed s = false := by
    unfold isUsed empty
    rw [Marks.contains_empty, Bool.and_false]
  unfold reserved
  have hsize : (FreeMap.empty n).size = n := rfl
  rw [isUsed_mark, isUsed_mark, size_mark, hempty, hsize, Bool.or_false, Bool.or_eq_true,
    decide_eq_true_eq, decide_eq_true_eq]
  unfold Layout.rootSector Layout.freeMapSector
  omega

theorem free_reserved (n : Nat) : (reserved n).free = List.range' 2 (n - 2) := by
  have hsorted : (List.range' 2 (n - 2)).Pairwise (· < ·) := List.pairwise_lt_range'
  refine List.Perm.eq_of_pairwise (fun a b _ _ h h' => absurd h (Nat.lt_asymm h'))
    (sorted_free _) hsorted ((List.perm_ext_iff_of_nodup (nodup_free _)
      (List.nodup_range' 1)).mpr fun s => ?_)
  rw [mem_free, List.mem_range'_1, size_reserved, Bool.eq_false_iff, ne_eq, isUsed_reserved]
  omega

end FreeMap

/-- A file has no more blocks than bytes. -/
theorem Layout.blocksFor_le (size : Nat) {data : Nat} (hdata : 0 < data) :
    blocksFor size data ≤ size := by
  unfold blocksFor
  rw [Nat.div_le_iff_le_mul_add_pred hdata]
  have := Nat.mul_le_mul_right size hdata
  omega

theorem Layout.blocksFor_pos {data : Nat} (hdata : 0 < data) :
    0 < blocksFor directorySize data := Nat.div_pos (by
  unfold directorySize directorySlots entrySize
  omega) hdata

/-- Slots without a tree have no sectors. -/
theorem Slots.sectors_replicate_none (n : Nat) :
    sectors (List.replicate n none : NodeSlots) = [] := by
  unfold sectors nodes children
  rw [List.reduceOption_replicate_none]
  rfl

theorem HandleTable.get?_empty (capacity id : Nat) : (empty capacity).get? id = none := by
  unfold get? empty
  rw [List.getElem?_replicate]
  split <;> rfl

namespace Volume

variable {k : Disk}

/-- The number of sectors that an empty volume takes. -/
def minimalSectors (k : Disk) : Nat :=
  2 + Layout.blocksFor (Layout.freeMapSize k.sectors) k.dataSize +
    Layout.blocksFor Layout.directorySize k.dataSize

/-- The first room is for the free map file, the next for the root directory. -/
theorem fits_of_minimal (hlimit : k.sectors ≤ 0x100000000) (hk : 0 < k.dataSize)
    (hroom : minimalSectors k ≤ k.sectors) :
    Disk.Fits k (FreeMap.reserved k.sectors) (Layout.freeMapSize k.sectors) ∧
      ∀ (k' : Disk) (m : FreeMap), k'.dataSize = k.dataSize → m.free =
          (FreeMap.reserved k.sectors).free.drop
            (Layout.blocksFor (Layout.freeMapSize k.sectors) k.dataSize) →
        Disk.Fits k' m Layout.directorySize := by
  have hmap := Layout.blocksFor_le (Layout.freeMapSize k.sectors) hk
  have hroot := Layout.blocksFor_le Layout.directorySize hk
  have hsize : Layout.freeMapSize k.sectors < 0x80000000 := by
    unfold Layout.freeMapSize
    omega
  have hdir : Layout.directorySize < 0x80000000 := by decide
  unfold minimalSectors at hroom
  refine ⟨⟨hsize, Nat.lt_of_le_of_lt hmap hsize, ?_⟩, fun k' m hk' hm =>
    ⟨hdir, hk' ▸ Nat.lt_of_le_of_lt hroot hdir, ?_⟩⟩
  · rw [FreeMap.free_reserved, List.length_range']
    omega
  · rw [hm, hk', FreeMap.free_reserved, List.length_drop, List.length_range']
    omega

theorem checkGeometry_yields (h : Layout.headerSize ≤ k.sectorSize) :
    Yields checkGeometry k (.ok ()) k := by
  rintro d hd rfl
  have hsize : ¬(d.device.sectorSize ≤ Layout.linkSize ∨
      d.device.sectorSize < Layout.headerSize) := by
    have : Layout.headerSize ≤ d.device.sectorSize := h
    unfold Layout.linkSize Layout.headerSize at *
    omega
  have hcheck : d.device.checkGeometry = .ok () := if_neg hsize
  refine ⟨d, ?_, hd, rfl⟩
  simp only [checkGeometry, bind, EStateM.bind, Drive.get_eq, hcheck]
  rfl

theorem checkGeometry_refused (h : k.sectorSize < Layout.headerSize) :
    Yields checkGeometry k (.error (.io (.sectorTooSmall k.sectorSize))) k := by
  rintro d hd rfl
  have hcheck : d.device.checkGeometry = .error (.sectorTooSmall d.device.sectorSize) :=
    if_pos (.inr h)
  refine ⟨d, ?_, hd, rfl⟩
  simp only [checkGeometry, bind, EStateM.bind, Drive.get_eq, hcheck]
  rfl

/-- The chains of the free map file and of the root directory on an empty volume. -/
def mapChain (k : Disk) : List Nat :=
  (FreeMap.reserved k.sectors).free.take
    (Layout.blocksFor (Layout.freeMapSize k.sectors) k.dataSize)

def rootChain (k : Disk) : List Nat :=
  ((FreeMap.reserved k.sectors).free.drop
    (Layout.blocksFor (Layout.freeMapSize k.sectors) k.dataSize)).take
      (Layout.blocksFor Layout.directorySize k.dataSize)

/-- The two chains take the first sectors behind the reserved ones. -/
theorem chains_eq (k : Disk) :
    mapChain k ++ rootChain k = (FreeMap.reserved k.sectors).free.take
      (Layout.blocksFor (Layout.freeMapSize k.sectors) k.dataSize +
        Layout.blocksFor Layout.directorySize k.dataSize) := by
  unfold mapChain rootChain
  rw [List.take_add]

theorem mem_chains {s : Nat} (h : s ∈ mapChain k ++ rootChain k) : 2 ≤ s ∧ s < k.sectors := by
  rw [chains_eq, FreeMap.free_reserved] at h
  have := List.mem_range'_1.mp (List.mem_of_mem_take h)
  omega

/-- However many sectors there are, links lead to those of the two chains. -/
theorem chains_lt_limit (hlimit : k.sectors ≤ 0x100000000) (hk : 0 < k.dataSize) {s : Nat}
    (h : s ∈ mapChain k ++ rootChain k) : s < Link.limit := by
  have hmap := Layout.blocksFor_le (Layout.freeMapSize k.sectors) hk
  have hroot := Layout.blocksFor_le Layout.directorySize hk
  have hdir : Layout.directorySize = 1216 := rfl
  have hbytes : Layout.freeMapSize k.sectors ≤ 0x20000000 := by
    unfold Layout.freeMapSize
    omega
  rw [chains_eq, FreeMap.free_reserved] at h
  obtain ⟨i, hi, rfl⟩ := List.getElem_of_mem h
  rw [List.length_take] at hi
  rw [List.getElem_take, List.getElem_range']
  unfold Link.limit
  omega

theorem nodup_chains (k : Disk) : (mapChain k ++ rootChain k).Nodup := by
  rw [chains_eq]
  exact (FreeMap.nodup_free _).sublist (List.take_sublist _ _)

/-- The two headers are in neither chain. -/
theorem notMem_mapChain {s : Nat} (hs : s < 2) : s ∉ mapChain k := fun hmem =>
  absurd (mem_chains (List.mem_append_left _ hmem)).1 (by omega)

theorem notMem_rootChain {s : Nat} (hs : s < 2) : s ∉ rootChain k := fun hmem =>
  absurd (mem_chains (List.mem_append_right _ hmem)).1 (by omega)

/-- The file of the root directory is apart from the chain of the free map. -/
theorem root_notMem_mapChain {s : Nat} (hs : s ∈ Layout.rootSector :: rootChain k) :
    s ∉ mapChain k := fun hmem => by
  rcases List.mem_cons.mp hs with rfl | hs
  · exact notMem_mapChain (by decide) hmem
  · exact (List.nodup_append.mp (nodup_chains k)).2.2 s hmem s hs rfl

/-- The two files that every volume has are allocated, and their headers are stored. -/
theorem reserve_yields (hlimit : k.sectors ≤ 0x100000000)
    (hsize : Layout.headerSize ≤ k.sectorSize) (hk : 0 < k.dataSize)
    (hroom : minimalSectors k ≤ k.sectors) :
    ∃ h₀ h₁ : Header, ∃ k₁ k₂ k₃ k₄ : Disk,
      Yields (Header.allocate (.reserved k.sectors) (Layout.freeMapSize k.sectors)) k
        (.ok ((mapChain k).foldl FreeMap.mark (.reserved k.sectors), .ok h₀)) k₁ ∧
      Yields (Header.allocate ((mapChain k).foldl FreeMap.mark (.reserved k.sectors))
        Layout.directorySize) k₁ (.ok ((rootChain k).foldl FreeMap.mark
          ((mapChain k).foldl FreeMap.mark (.reserved k.sectors)), .ok h₁)) k₂ ∧
      Yields (h₀.store Layout.freeMapSector) k₂ (.ok ()) k₃ ∧
      Yields (h₁.store Layout.rootSector) k₃ (.ok ()) k₄ ∧
      k.SameSize k₁ ∧ k.SameSize k₂ ∧ k.SameSize k₃ ∧ k.SameSize k₄ ∧
      k₄.HasFile ⟨Layout.freeMapSector, h₀, mapChain k⟩
        (Bytes.zeros (Layout.freeMapSize k.sectors)) ∧
      k₄.HasFile ⟨Layout.rootSector, h₁, rootChain k⟩ (Bytes.zeros Layout.directorySize) := by
  obtain ⟨hfits₀, hfits₁⟩ := fits_of_minimal hlimit hk hroom
  have hnodup := nodup_chains k
  obtain ⟨-, -, hdisjoint⟩ := List.nodup_append.mp hnodup
  have hmin : 2 < k.sectors := by
    have : 0 < Layout.blocksFor Layout.directorySize k.dataSize := Layout.blocksFor_pos hk
    unfold minimalSectors at hroom
    omega
  obtain ⟨k₁, h₀, hy₁, hlen₀, hcount₀, hkeep₁, hchained₀, hzeros₀⟩ :=
    Disk.allocate_yields hk (FreeMap.size_reserved _) hfits₀ fun s hs =>
      chains_lt_limit hlimit hk (List.mem_append_left _ hs)
  have hdata₁ := hkeep₁.dataSize
  have hfree₁ : ((mapChain k).foldl FreeMap.mark (.reserved k.sectors)).free =
      (FreeMap.reserved k.sectors).free.drop
        (Layout.blocksFor (Layout.freeMapSize k.sectors) k.dataSize) := FreeMap.free_foldl_mark _ _
  obtain ⟨k₂, h₁, hy₂, hlen₁, hcount₁, hkeep₂, hchained₁, hzeros₁⟩ :=
    Disk.allocate_yields (k := k₁) (hdata₁ ▸ hk)
      (by rw [FreeMap.size_foldl_mark, FreeMap.size_reserved, hkeep₁.sectors])
      (hfits₁ k₁ _ hdata₁ hfree₁) fun s hs => chains_lt_limit hlimit hk (List.mem_append_right _ (by
        rwa [hfree₁, hdata₁] at hs))
  rw [hfree₁, hdata₁] at hy₂ hcount₁ hkeep₂ hchained₁ hzeros₁
  have hsectors₂ : k₂.sectors = k.sectors := hkeep₂.sectors.trans hkeep₁.sectors
  have hsize₂ : Layout.headerSize ≤ k₂.sectorSize :=
    hkeep₂.sectorSize.symm ▸ hkeep₁.sectorSize.symm ▸ hsize
  have hdata₂ : k₂.dataSize = k.dataSize := hkeep₂.dataSize.trans hdata₁
  have hapart : ∀ s ∈ mapChain k, s ∉ rootChain k := fun s hs hmem => hdisjoint s hs s hmem rfl
  -- the header of the free map file, then that of the root directory
  let k₃ := k₂.putHeader Layout.freeMapSector h₀
  let k₄ := k₃.putHeader Layout.rootSector h₁
  have hfile₀ : k₃.HasFile ⟨Layout.freeMapSector, h₀, mapChain k⟩ (k₂.content h₀ (mapChain k)) :=
    Disk.hasFile_putHeader hsize₂ (by rw [hsectors₂]; exact Nat.zero_lt_of_lt hmin)
      (notMem_mapChain (by decide)) (hchained₀.keeps hkeep₂ hapart)
      (by rw [hlen₀, hdata₂]; exact hcount₀)
  have hchained₁' : k₃.Chained h₁ (rootChain k) :=
    hchained₁.keeps (Disk.keeps_putHeader k₂ _ h₀) fun s hs heq => by
      rw [heq] at hs
      exact notMem_rootChain (by decide) hs
  have hfile₁ : k₄.HasFile ⟨Layout.rootSector, h₁, rootChain k⟩ (k₃.content h₁ (rootChain k)) :=
    Disk.hasFile_putHeader hsize₂ (by
        show 1 < k₂.sectors
        omega)
      (notMem_rootChain (by decide)) hchained₁' (by
        rw [hlen₁]
        exact hcount₁.trans (congrArg _ hdata₂.symm))
  have hcontent₀ : k₂.content h₀ (mapChain k) = Bytes.zeros (Layout.freeMapSize k.sectors) := by
    rw [Disk.content_keeps hkeep₂ hapart]
    exact hzeros₀
  have hcontent₁ : k₃.content h₁ (rootChain k) = Bytes.zeros Layout.directorySize := by
    refine (Disk.content_keeps (Disk.keeps_putHeader k₂ _ h₀) (fun s hs heq => ?_) h₁).trans hzeros₁
    rw [heq] at hs
    exact notMem_rootChain (by decide) hs
  rw [hcontent₀] at hfile₀
  rw [hcontent₁] at hfile₁
  have hsame₂ : k.SameSize k₂ := hkeep₁.sameSize.trans hkeep₂.sameSize
  refine ⟨h₀, h₁, k₁, k₂, k₃, k₄, hy₁, hy₂, ?_, ?_, hkeep₁.sameSize, hsame₂,
    ⟨hsame₂.sectors, hsame₂.sectorSize, fun _ hs => hs.elim⟩,
    ⟨hsame₂.sectors, hsame₂.sectorSize, fun _ hs => hs.elim⟩, ?_, hfile₁⟩
  · exact Disk.storeHeader_yields (by rw [hsectors₂]; exact Nat.zero_lt_of_lt hmin) h₀
  · refine Disk.storeHeader_yields ?_ h₁
    show 1 < k₂.sectors
    omega
  · refine hfile₀.keeps (Disk.keeps_putHeader k₃ _ h₁) fun s hs heq => ?_
    rw [heq] at hs
    rcases List.mem_cons.mp hs with hs | hs
    · cases hs
    · exact notMem_mapChain (by decide) hs

/-- The map that has the chains of an empty volume in use. -/
def initialMap (k : Disk) : FreeMap :=
  (rootChain k).foldl FreeMap.mark ((mapChain k).foldl FreeMap.mark (.reserved k.sectors))

@[simp] theorem size_initialMap (k : Disk) : (initialMap k).size = k.sectors := by
  unfold initialMap
  rw [FreeMap.size_foldl_mark, FreeMap.size_foldl_mark, FreeMap.size_reserved]

@[simp] theorem stored_initialMap (k : Disk) :
    (initialMap k).stored = Layout.freeMapSize k.sectors := by
  unfold initialMap
  rw [FreeMap.stored_foldl_mark, FreeMap.stored_foldl_mark, FreeMap.stored_reserved]

theorem isUsed_initialMap (h : 2 ≤ k.sectors) (s : Nat) :
    (initialMap k).isUsed s = true ↔ s < 2 ∨ s ∈ mapChain k ∨ s ∈ rootChain k := by
  have hmap : ∀ s ∈ mapChain k, s < (FreeMap.reserved k.sectors).size := fun s hs => by
    rw [FreeMap.size_reserved]
    exact (mem_chains (List.mem_append_left _ hs)).2
  have hroot : ∀ s ∈ rootChain k,
      s < ((mapChain k).foldl FreeMap.mark (.reserved k.sectors)).size := fun s hs => by
    rw [FreeMap.size_foldl_mark, FreeMap.size_reserved]
    exact (mem_chains (List.mem_append_right _ hs)).2
  unfold initialMap
  rw [FreeMap.isUsed_foldl_mark hroot, FreeMap.isUsed_foldl_mark hmap, FreeMap.isUsed_reserved,
    and_iff_left_of_imp fun hs => Nat.lt_of_lt_of_le hs h, or_assoc]

/-- **What formatting makes**: the free map file and the table of the root directory, without an
entry, in the first free sectors. The map has just their sectors in use. -/
theorem format_made (hlimit : k.sectors ≤ 0x100000000) (hsize : Layout.headerSize ≤ k.sectorSize)
    (hroom : minimalSectors k ≤ k.sectors) :
    ∃ (h₀ h₁ : Header) (content : Bytes) (k' : Disk),
      let map : Place := ⟨Layout.freeMapSector, h₀, mapChain k⟩
      let root : Place := ⟨Layout.rootSector, h₁, rootChain k⟩
      Yields format k (.ok ⟨map.handle, root.handle, .empty Layout.maxOpen⟩) k' ∧ k.SameSize k' ∧
        k'.HasFile map content ∧ content.length = Layout.freeMapSize k.sectors ∧
        k'.HasTable root (.empty Layout.directorySlots) ∧
        ∀ s, (FreeMap.ofBytes k.sectors content).isUsed s = true ↔
          s ∈ map.sectors ∨ s ∈ root.sectors := by
  have hk := Disk.dataSize_pos hsize
  obtain ⟨h₀, h₁, k₁, k₂, k₃, k₄, hy₁, hy₂, hy₃, hy₄, -, -, -, hkeep, hfile₀, hfile₁⟩ :=
    reserve_yields hlimit hsize hk hroom
  have hk₄ : 0 < k₄.dataSize := hkeep.dataSize ▸ hk
  let map : Place := ⟨Layout.freeMapSector, h₀, mapChain k⟩
  let root : Place := ⟨Layout.rootSector, h₁, rootChain k⟩
  obtain ⟨-, -, hdisjoint⟩ := List.nodup_append.mp (nodup_chains k)
  have hopened : Yields opened k₄ (.ok ⟨map.handle, root.handle, .empty Layout.maxOpen⟩) k₄ :=
    hfile₀.open_yields.bind (hfile₁.open_yields.bind (Yields.pure _ k₄))
  obtain ⟨k₅, content, hy₅, hkeep₅, hmapFile, hlength, hsame⟩ := Disk.storeMap_yields
    (f := map.handle) (m := initialMap k) hfile₀ hk₄ rfl (notMem_mapChain (s := 0) (by decide))
    (by rw [Bytes.length_zeros, size_initialMap]) (by rw [stored_initialMap, size_initialMap])
  have hroot₅ := hfile₁.keeps hkeep₅ fun s hs => root_notMem_mapChain hs
  have hempty : (Directory.empty Layout.directorySlots).encode.length =
      (Bytes.zeros Layout.directorySize).length := by
    rw [Bytes.length_zeros, Directory.length_encode_empty]
  obtain ⟨k₆, hy₆, hkeep₆, htable⟩ := hroot₅.overwrite_yields (f := root.handle)
    (hkeep₅.dataSize ▸ hk₄) rfl (notMem_rootChain (s := 1) (by decide)) hempty
  have hmap₆ := hmapFile.keeps hkeep₆ fun s hs hmem => by
    rcases List.mem_cons.mp hs with rfl | hs
    · exact notMem_rootChain (s := 0) (by decide) hmem
    · exact hdisjoint s hs s hmem rfl
  have hmin : 2 ≤ k.sectors := by
    unfold minimalSectors at hroom
    omega
  rw [size_initialMap] at hlength hsame
  refine ⟨h₀, h₁, content, k₆, ?_, hkeep.trans (hkeep₅.sameSize.trans hkeep₆.sameSize), hmap₆,
    hlength, ⟨htable, List.length_replicate⟩, fun s => ?_⟩
  · exact (checkGeometry_yields hsize).bind ((Yields.sectors k).bind ((Yields.sectorSize k).bind
      ((Yields.note _ k).bind (hy₁.bind ((Yields.pure _ k₁).bind (hy₂.bind ((Yields.pure _ k₂).bind
        (hy₃.bind (hy₄.bind (hopened.bind (hy₅.bind (hy₆.bind (Yields.pure _ k₆)))))))))))))
  · have htwo : s < 2 ↔ s = 0 ∨ s = 1 := by omega
    rw [hsame s, isUsed_initialMap hmin, htwo]
    unfold Place.sectors
    rw [List.mem_cons, List.mem_cons, or_assoc, or_assoc, or_left_comm (a := s = 1)]
    rfl

/-- The sectors of an empty volume belong to one file each. -/
theorem nodup_made (k : Disk) :
    (Layout.freeMapSector :: (mapChain k ++ Layout.rootSector :: rootChain k)).Nodup := by
  rw [List.nodup_cons, List.nodup_middle, List.nodup_cons]
  refine ⟨fun hmem => ?_, fun hmem => ?_, nodup_chains k⟩
  · rcases List.mem_append.mp hmem with hmem | hmem
    · exact notMem_mapChain (by decide) hmem
    · rcases List.mem_cons.mp hmem with hmem | hmem
      · cases hmem
      · exact notMem_rootChain (by decide) hmem
  · exact absurd (mem_chains hmem).1 (by decide)

/-- **An empty volume**: with room for it, formatting makes the volume that has the free map file
and the root directory in the first free sectors, and nothing else. -/
theorem format_yields (hlimit : k.sectors ≤ Link.limit) (hsize : Layout.headerSize ≤ k.sectorSize)
    (hroom : minimalSectors k ≤ k.sectors) :
    ∃ v k' inv, Yields format k (.ok v) k' ∧ v.Consistent k' inv ∧
      inv.slots = List.replicate Layout.directorySlots none ∧
      v.openFiles = .empty Layout.maxOpen ∧ k.SameSize k' ∧
      inv.sectors = 0 :: (mapChain k ++ 1 :: rootChain k) := by
  obtain ⟨h₀, h₁, content, k', hy, hsame, hmap, hlength, htable, hused⟩ :=
    format_made (Nat.le_trans hlimit (by decide)) hsize hroom
  let map : Place := ⟨Layout.freeMapSector, h₀, mapChain k⟩
  let root : Place := ⟨Layout.rootSector, h₁, rootChain k⟩
  let inv : Inventory := ⟨⟨map, content⟩, root, List.replicate Layout.directorySlots none⟩
  have hnone : Slots.sectors inv.slots = [] := Slots.sectors_replicate_none _
  have hinv : inv.sectors = map.sectors ++ root.sectors := by
    rw [inv.sectors_eq, hnone, List.append_nil]
  refine ⟨_, k', inv, hy, ⟨⟨⟨hsame.sectorSize ▸ hsize, hmap, hsame.sectors ▸ hlength, rfl, rfl, rfl,
    rfl⟩, hsame.sectors ▸ hlimit, ?_⟩, ?_, fun s => ?_, fun id f hf => ?_⟩, rfl, rfl, hsame, hinv⟩
  · exact .directory _ htable (Directory.shows_empty _)
      fun e t ht => by cases List.eq_of_mem_replicate ht
  · rw [hinv]
    exact nodup_made k
  · rw [hinv, List.mem_append, hsame.sectors]
    exact hused s
  · rw [HandleTable.get?_empty] at hf
    cases hf

/-- The sectors of a volume that is empty. -/
theorem Consistent.length_sectors_empty {v : Volume} {inv : Inventory}
    (h : v.Consistent k inv) (hslots : inv.slots = List.replicate Layout.directorySlots none) :
    inv.sectors.length = 2 + Layout.blocksFor (Layout.freeMapSize k.sectors) k.dataSize +
      Layout.blocksFor Layout.directorySize k.dataSize := by
  have hk := h.dataSize_pos
  obtain ⟨table, htable, -, -⟩ := h.exists_table
  have hmap := h.map_file.blocks
  have hroot := htable.file.blocks
  rw [← h.map_file.length_content hk, h.map_length] at hmap
  rw [← htable.file.length_content hk, htable.length_encode] at hroot
  have hnone : Slots.sectors inv.slots = [] := by
    rw [hslots]
    exact Slots.sectors_replicate_none _
  rw [inv.sectors_eq, hnone, List.append_nil, List.length_append]
  unfold Place.sectors
  rw [List.length_cons, List.length_cons, hmap, hroot]
  omega

/-- A volume is mounted again with the two files that it has, and with no file open by id. -/
theorem Grounded.mount_yields {v : Volume} {mapFile : Stored} {root : Place}
    (h : v.Grounded k mapFile root) (hroot : k.HasHeader root.sector root.header) :
    Grounded ⟨mapFile.place.handle, root.handle, .empty Layout.maxOpen⟩ k mapFile root ∧
      Yields mount k (.ok ⟨mapFile.place.handle, root.handle, .empty Layout.maxOpen⟩) k := by
  have hmap := h.map_file.open_yields
  have hroot : Yields (Handle.fetch root.sector) k (.ok root.handle) k := hroot.open_yields
  rw [h.map_sector] at hmap
  rw [h.root_sector] at hroot
  have hlength : mapFile.place.handle.length = Layout.freeMapSize k.sectors :=
    (h.map_file.length_content h.dataSize_pos).symm.trans h.map_length
  have hopened : Yields Volume.opened k
      (.ok ⟨mapFile.place.handle, root.handle, .empty Layout.maxOpen⟩) k :=
    hmap.bind (hroot.bind (Yields.pure _ k))
  refine ⟨⟨h.headerSize_le, h.map_file, h.map_length, h.map_sector, rfl, h.root_sector, rfl⟩, ?_⟩
  refine (checkGeometry_yields h.headerSize_le).bind (hopened.bind ((Yields.sectors k).bind ?_))
  dsimp only
  rw [if_neg (not_not_intro hlength)]
  exact (Yields.note _ k).bind (Yields.pure _ k)

/-- A consistent volume is mounted again as it is. -/
theorem Consistent.mount_yields {v : Volume} {inv : Inventory} (h : v.Consistent k inv) :
    Consistent ⟨inv.mapFile.place.handle, inv.root.handle, .empty Layout.maxOpen⟩ k inv ∧
      Yields mount k
        (.ok ⟨inv.mapFile.place.handle, inv.root.handle, .empty Layout.maxOpen⟩) k := by
  obtain ⟨table, htable, -, -⟩ := h.exists_table
  obtain ⟨hground, hy⟩ := h.toGrounded.mount_yields htable.file.header
  refine ⟨⟨⟨hground, h.sectors_le, h.held⟩, h.nodup, h.used, fun id f hf => ?_⟩, hy⟩
  rw [HandleTable.get?_empty] at hf
  cases hf

/-! ## When formatting fails -/

/-- Too small sectors are refused. -/
theorem format_refused (h : k.sectorSize < Layout.headerSize) :
    Yields format k (.error (.io (.sectorTooSmall k.sectorSize))) k :=
  (checkGeometry_refused h).bind_error

/-- Without room for the free map file and the root directory no volume is made. -/
theorem format_full (hlimit : k.sectors ≤ 0x100000000) (hsize : Layout.headerSize ≤ k.sectorSize)
    (hfull : k.sectors < minimalSectors k) :
    ∃ k', Yields format k (.error .outOfSpace) k' := by
  have hk := Disk.dataSize_pos hsize
  by_cases hfits : Disk.Fits k (.reserved k.sectors) (Layout.freeMapSize k.sectors)
  · obtain ⟨k₁, h₀, hy₁, -, -, hkeep₁, -, -⟩ :=
      Disk.allocate_yields hk (FreeMap.size_reserved _) hfits fun s hs =>
        chains_lt_limit hlimit hk (List.mem_append_left _ hs)
    refine ⟨k₁, (checkGeometry_yields hsize).bind ((Yields.sectors k).bind
      ((Yields.sectorSize k).bind ((Yields.note _ k).bind (hy₁.bind ((Yields.pure _ k₁).bind
        ((Disk.allocate_full fun hfits₁ => ?_).bind (Yields.throw _ k₁).bind_error))))))⟩
    have hfree₀ := hfits.free
    have hfree₁ := hfits₁.free
    rw [FreeMap.free_foldl_mark, List.length_drop, hkeep₁.dataSize] at hfree₁
    rw [FreeMap.free_reserved, List.length_range'] at hfree₀ hfree₁
    have hpos : 0 < Layout.blocksFor Layout.directorySize k.dataSize := Layout.blocksFor_pos hk
    unfold minimalSectors at hfull
    omega
  · exact ⟨k, (checkGeometry_yields hsize).bind ((Yields.sectors k).bind ((Yields.sectorSize k).bind
      ((Yields.note _ k).bind ((Disk.allocate_full hfits).bind (Yields.throw _ k).bind_error))))⟩

/-- **Formatting succeeds** just if the sectors are large enough and there are enough of them. -/
theorem format_ok_iff {d : Drive} (hd : d.FaultFree)
    (hlimit : d.device.sectors ≤ 0x100000000) :
    (∃ v d', format d = .ok v d') ↔
      Layout.headerSize ≤ d.disk.sectorSize ∧ minimalSectors d.disk ≤ d.disk.sectors := by
  constructor
  · rintro ⟨v, d', h⟩
    by_contra hfit
    by_cases hsize : Layout.headerSize ≤ d.disk.sectorSize
    · have hroom : d.disk.sectors < minimalSectors d.disk :=
        Nat.not_le.mp fun hle => hfit ⟨hsize, hle⟩
      obtain ⟨k', hy⟩ := format_full hlimit hsize hroom
      obtain ⟨d₁, h₁, -, -⟩ := hy d hd rfl
      rw [h] at h₁
      cases h₁
    · obtain ⟨d₁, h₁, -, -⟩ := format_refused (Nat.not_le.mp hsize) d hd rfl
      rw [h] at h₁
      cases h₁
  · rintro ⟨hsize, hroom⟩
    obtain ⟨h₀, h₁, -, k', hy, -⟩ := format_made hlimit hsize hroom
    obtain ⟨d', h, -, -⟩ := hy d hd rfl
    exact ⟨_, d', h⟩

/-- **Every format that succeeds** makes an empty volume, whatever was on the device. -/
theorem exists_inventory_of_format {d d' : Drive} {v : Volume} (hd : d.FaultFree)
    (hlimit : d.device.sectors ≤ Link.limit) (h : format d = .ok v d') :
    ∃ inv, d'.FaultFree ∧ v.Consistent d'.disk inv ∧
      inv.slots = List.replicate Layout.directorySlots none ∧
      v.openFiles = .empty Layout.maxOpen ∧ d.disk.SameSize d'.disk := by
  obtain ⟨hsize, hroom⟩ := (format_ok_iff hd (Nat.le_trans hlimit (by decide))).mp ⟨v, d', h⟩
  obtain ⟨v', k', inv, hy, hv, hslots, hopen, hsame, -⟩ := format_yields hlimit hsize hroom
  obtain ⟨d₁, h₁, hd₁, rfl⟩ := hy d hd rfl
  rw [h] at h₁
  cases h₁
  exact ⟨inv, hd₁, hv, hslots, hopen, hsame⟩

end Volume

/-- A blank device in memory keeps what is written. -/
theorem Drive.faultFree_blank (sectors sectorSize : Nat) :
    FaultFree { device := .blank sectors sectorSize } where
  reliable := trivial
  no_faults := rfl

end SectorChain
