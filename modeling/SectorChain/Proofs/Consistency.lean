import SectorChain.Proofs.Release

/-!
# Consistent volumes

An `Inventory` is everything on a volume: the free map file, the root directory, and the nodes in
its slots. `Volume.Consistent v k inv` says that the disk `k` has just that: every file is there,
no sector belongs to two of them, the free map marks the sectors that belong to one, and the files
open by id are among them.

Results:
* `Consistent.survey_yields`: reading everything from the device gives the inventory.
* `Consistent.numFree_add`: the free sectors are those that belong to no file.
* `Consistent.findEntry_yields`, `list_yields`: paths are found as they are in the slots.
* `Grounded.commit_yields`: storing the root table and the free map completes a change.
-/

namespace SectorChain

/-- What is on a volume: the free map file, the place of the root directory, and what is in its
slots. -/
structure Inventory where
  mapFile : Stored
  root : Place
  slots : NodeSlots

namespace Inventory

/-- The root directory, with everything below it. -/
def tree (inv : Inventory) : Node := .directory inv.root inv.slots

/-- All files and directories, the free map file first. -/
def nodes (inv : Inventory) : List (Stored ⊕ Place) := .inl inv.mapFile :: inv.tree.nodes

/-- The sectors of all files and directories. -/
def sectors (inv : Inventory) : List Nat := sectorsOf inv.nodes

/-- The free map in the free map file. -/
def freeMap (inv : Inventory) (sectors : Nat) : FreeMap := .ofBytes sectors inv.mapFile.content

/-- What is at the end of a path. The path of the root leads nowhere. -/
def find (inv : Inventory) (path : String) : Except VolumeError (Entry × Node) :=
  Slots.follow Entry.name path (.ofPath path) inv.slots

/-- The slots with a node put at the end of a path. -/
def insert (inv : Inventory) (path : String) (t : Node) : Except VolumeError NodeSlots :=
  Slots.change Entry.name path
    (Slots.insert Entry.name path (fun n => .ofFile n t.kind t.place.sector) t) (.ofPath path)
    inv.slots

/-- The slots without the node at the end of a path. -/
def erase (inv : Inventory) (path : String) : Except VolumeError NodeSlots :=
  Slots.change Entry.name path (Slots.erase Entry.name path) (.ofPath path) inv.slots

theorem nodes_eq (inv : Inventory) :
    inv.nodes = .inl inv.mapFile :: .inr inv.root :: Slots.nodes inv.slots := by
  unfold nodes tree
  rw [Tree.nodes_directory]

theorem sectors_eq (inv : Inventory) :
    inv.sectors = inv.mapFile.place.sectors ++ (inv.root.sectors ++ Slots.sectors inv.slots) := by
  unfold sectors
  rw [nodes_eq]
  rfl

theorem tree_nodes (inv : Inventory) : inv.tree.nodes = .inr inv.root :: Slots.nodes inv.slots :=
  Tree.nodes_directory _ _

variable {inv : Inventory} {path : String} {e : Entry} {t : Node} {slots : NodeSlots} {s : Nat}

theorem mem_of_map (h : s ∈ inv.mapFile.place.sectors) : s ∈ inv.sectors :=
  inv.sectors_eq ▸ List.mem_append_left _ h

theorem mem_of_root (h : s ∈ inv.root.sectors) : s ∈ inv.sectors :=
  inv.sectors_eq ▸ List.mem_append_right _ (List.mem_append_left _ h)

theorem mem_of_slots (h : s ∈ Slots.sectors inv.slots) : s ∈ inv.sectors :=
  inv.sectors_eq ▸ List.mem_append_right _ (List.mem_append_right _ h)

theorem mem_of_tree (h : s ∈ inv.tree.sectors) : s ∈ inv.sectors := List.mem_append_right _ h

theorem mem_of_node {x : Stored ⊕ Place} (hx : x ∈ inv.tree.nodes)
    (h : s ∈ (placeOf x).sectors) : s ∈ inv.sectors :=
  mem_of_tree (mem_sectorsOf.mpr ⟨x, hx, h⟩)

/-- The sectors of the free map are apart from those of the tree. -/
theorem nodup_split (h : inv.sectors.Nodup) :
    inv.mapFile.place.sectors.Nodup ∧ inv.tree.sectors.Nodup ∧
      ∀ s ∈ inv.mapFile.place.sectors, s ∉ inv.tree.sectors := by
  obtain ⟨hmap, htree, hapart⟩ := List.nodup_append.mp h
  exact ⟨hmap, htree, fun s hs hmem => hapart s hs s hmem rfl⟩

theorem find_nodes (h : inv.find path = .ok (e, t)) : t.nodes ⊆ inv.tree.nodes := fun x hx => by
  rw [tree_nodes]
  exact List.mem_cons_of_mem _ (Slots.follow_nodes h hx)

/-- With a node put into the slots, there is what there was before and what is in the node. -/
theorem insert_nodes (h : inv.insert path t = .ok slots) (f : Stored) :
    (⟨f, inv.root, slots⟩ : Inventory).tree.nodes.Perm (inv.tree.nodes ++ t.nodes) := by
  rw [tree_nodes, tree_nodes]
  exact (Slots.change_insert_nodes h).cons _

theorem insert_sectors (h : inv.insert path t = .ok slots) (content : Bytes) :
    (⟨⟨inv.mapFile.place, content⟩, inv.root, slots⟩ : Inventory).sectors.Perm
      (inv.sectors ++ t.sectors) := by
  have hperm := sectorsOf_perm (insert_nodes h ⟨inv.mapFile.place, content⟩)
  rw [sectorsOf_append] at hperm
  exact (hperm.append_left inv.mapFile.place.sectors).trans
    (.of_eq (List.append_assoc _ _ _).symm)

/-- A found node can be erased. What there was is what stays and what is in the erased node. -/
theorem erase_ok (hfind : inv.find path = .ok (e, t)) : ∃ slots, inv.erase path = .ok slots :=
  Slots.change_erase_ok hfind

theorem erase_nodes (h : inv.erase path = .ok slots) (hfind : inv.find path = .ok (e, t))
    (f : Stored) :
    inv.tree.nodes.Perm ((⟨f, inv.root, slots⟩ : Inventory).tree.nodes ++ t.nodes) := by
  rw [tree_nodes, tree_nodes]
  exact (Slots.change_erase_nodes h hfind).cons _

theorem erase_sectors (h : inv.erase path = .ok slots) (hfind : inv.find path = .ok (e, t))
    (content : Bytes) :
    inv.sectors.Perm ((⟨⟨inv.mapFile.place, content⟩, inv.root, slots⟩ : Inventory).sectors ++
      t.sectors) := by
  have hperm := sectorsOf_perm (erase_nodes h hfind ⟨inv.mapFile.place, content⟩)
  rw [sectorsOf_append] at hperm
  exact (hperm.append_left inv.mapFile.place.sectors).trans
    (.of_eq (List.append_assoc _ _ _).symm)

theorem sector_mem {x : Stored ⊕ Place} (hx : x ∈ inv.tree.nodes) :
    (placeOf x).sector ∈ inv.sectors :=
  mem_of_node hx List.mem_cons_self

/-- What was put into the slots has sectors that belonged to no file. -/
theorem insert_fresh {content : Bytes} (h : inv.insert path t = .ok slots)
    (hnodup : (⟨⟨inv.mapFile.place, content⟩, inv.root, slots⟩ : Inventory).sectors.Nodup)
    {s : Nat} (hs : s ∈ t.sectors) : s ∉ inv.sectors := fun hmem =>
  (List.nodup_append.mp ((insert_sectors h content).nodup_iff.mp hnodup)).2.2 s hmem s hs rfl

/-- What stays and what was erased have different headers. -/
theorem erase_apart {f : Stored} (h : inv.erase path = .ok slots)
    (hfind : inv.find path = .ok (e, t)) (hnodup : inv.sectors.Nodup) {x y : Stored ⊕ Place}
    (hx : x ∈ (⟨f, inv.root, slots⟩ : Inventory).tree.nodes) (hy : y ∈ t.nodes) :
    (placeOf x).sector ≠ (placeOf y).sector := by
  have hsectors := (erase_sectors h hfind f.content).nodup_iff.mp hnodup
  have hx' : x ∈ (⟨⟨inv.mapFile.place, f.content⟩, inv.root, slots⟩ : Inventory).tree.nodes := hx
  exact (List.nodup_append.mp hsectors).2.2 _ (sector_mem hx') _
    (mem_sectorsOf.mpr ⟨y, hy, List.mem_cons_self⟩)

end Inventory

/-! ## The invariant -/

/-- Every open file is one of these, with the same header. -/
def HandleTable.OpenIn (t : HandleTable) (l : List (Stored ⊕ Place)) : Prop :=
  ∀ id f, t.get? id = some f →
    ∃ x ∈ l, (placeOf x).sector = f.sector ∧ (placeOf x).header = f.header

theorem HandleTable.holds_of_get? {t : HandleTable} {id : Nat} {f : Handle}
    (h : t.get? id = some f) : t.holds f.sector = true := by
  have hmem : some f ∈ t.slots := List.mem_of_getElem? (Option.join_eq_some_iff.mp h)
  exact List.any_eq_true.mpr ⟨some f, hmem, beq_self_eq_true f.sector⟩

namespace Volume

/-- The sectors of the disk are fit for a volume, the free map file is on it, and the volume has
the headers of the free map file and of the root directory. -/
structure Grounded (v : Volume) (k : Disk) (mapFile : Stored) (root : Place) : Prop where
  headerSize_le : Layout.headerSize ≤ k.sectorSize
  map_file : k.HasFile mapFile.place mapFile.content
  map_length : mapFile.content.length = Layout.freeMapSize k.sectors
  map_sector : mapFile.place.sector = Layout.freeMapSector
  map_header : v.freeMapFile.header = mapFile.place.header
  root_sector : root.sector = Layout.rootSector
  root_header : v.rootFile.header = root.header

/-- The disk has what is in the inventory, and can be read: links can name all of its sectors. -/
structure Legible (v : Volume) (k : Disk) (inv : Inventory) : Prop
    extends Grounded v k inv.mapFile inv.root where
  sectors_le : k.sectors ≤ Link.limit
  held : k.Holds inv.tree

/-- **The disk has just what is in the inventory.** -/
structure Consistent (v : Volume) (k : Disk) (inv : Inventory) : Prop extends Legible v k inv where
  nodup : inv.sectors.Nodup
  used : ∀ s, (inv.freeMap k.sectors).isUsed s = true ↔ s ∈ inv.sectors
  open_files : v.openFiles.OpenIn inv.tree.nodes

/-- The entry at a path, as it is on the device. The root has none. -/
def findEntry (v : Volume) (path : String) : DriveM Entry := do (← v.root).findEntry path

/-- What is on the device, read from the two reserved headers on. -/
def survey : DriveM Inventory := do
  let map ← Place.fetch Layout.freeMapSector
  let content ← map.handle.readAt map.header.length 0
  let root ← Place.fetch Layout.rootSector
  let dir ← Directory.fetch root.handle
  let slots ← Node.surveySlots (Node.survey Directory.depthLimit) dir
  return { mapFile := { place := map, content }, root, slots }

variable {v : Volume} {k k' : Disk} {inv : Inventory} {mapFile : Stored} {root : Place}

namespace Grounded

theorem dataSize_pos (h : v.Grounded k mapFile root) : 0 < k.dataSize :=
  Disk.dataSize_pos h.headerSize_le

theorem keeps {q : Nat → Prop} (h : v.Grounded k mapFile root) (hk : k.Keeps k' q)
    (hq : ∀ s ∈ mapFile.place.sectors, q s) : v.Grounded k' mapFile root where
  headerSize_le := hk.sectorSize ▸ h.headerSize_le
  map_file := h.map_file.keeps hk hq
  map_length := hk.sectors ▸ h.map_length
  map_sector := h.map_sector
  map_header := h.map_header
  root_sector := h.root_sector
  root_header := h.root_header

theorem withOpen (h : v.Grounded k mapFile root) (t : HandleTable) :
    { v with openFiles := t }.Grounded k mapFile root :=
  ⟨h.headerSize_le, h.map_file, h.map_length, h.map_sector, h.map_header, h.root_sector,
    h.root_header⟩

theorem freeMap_yields (h : v.Grounded k mapFile root) :
    Yields v.freeMap k (.ok (.ofBytes k.sectors mapFile.content)) k :=
  (Yields.sectors k).bind
    (Disk.fetchMap_yields h.map_file h.dataSize_pos h.map_header h.map_length)

theorem root_yields (h : v.Grounded k mapFile root) {table : Directory}
    (ht : k.HasTable root table) : Yields v.root k (.ok table) k :=
  ht.fetch_yields h.dataSize_pos h.root_header

end Grounded

/-! ## Looking at a legible volume -/

namespace Legible

/-- The table of the root directory. -/
theorem exists_table (h : v.Legible k inv) :
    ∃ table : Directory, k.HasTable inv.root table ∧ table.Shows inv.slots ∧
      k.HoldsAll inv.slots := by
  cases h.held with
  | directory table htable hshows hall => exact ⟨table, htable, hshows, hall⟩

theorem freeMap_yields (h : v.Legible k inv) :
    Yields v.freeMap k (.ok (inv.freeMap k.sectors)) k := h.toGrounded.freeMap_yields

/-- **An entry is found** at a path just if there is one in the inventory. -/
theorem findEntry_table (h : v.Legible k inv) {table : Directory} (hshows : table.Shows inv.slots)
    (hall : k.HoldsAll inv.slots) (path : String) :
    Yields (table.findEntry path) k ((inv.find path).map Prod.fst) k :=
  Disk.findEntry_yields h.dataSize_pos hshows hall path

theorem findEntry_yields (h : v.Legible k inv) (path : String) :
    Yields (v.findEntry path) k ((inv.find path).map Prod.fst) k := by
  obtain ⟨table, htable, hshows, hall⟩ := h.exists_table
  exact (h.root_yields htable).bind (h.findEntry_table hshows hall path)

/-- What is found is on the disk, and its entry leads there. -/
theorem found (h : v.Legible k inv) {path : String} {e : Entry} {t : Node}
    (hfind : inv.find path = .ok (e, t)) :
    k.Holds t ∧ e.kind = t.kind ∧ e.sector? = some t.place.sector ∧
      e.name = Slots.lastName (.ofPath path) := by
  obtain ⟨table, -, hshows, hall⟩ := h.exists_table
  exact Disk.follow_found hshows hall hfind

/-- **The whole volume is listed** by the labels of its slots. -/
theorem list_yields (h : v.Legible k inv)
    (hdepth : (Slots.nodes inv.slots).length < Directory.depthLimit) (recursive : Bool) :
    Yields (v.list "/" recursive) k
      (.ok (if recursive then Slots.lines inv.slots 0
        else (Slots.children inv.slots).map fun p => p.1.name)) k := by
  obtain ⟨table, htable, hshows, hall⟩ := h.exists_table
  unfold Volume.list
  refine (h.root_yields htable).bind ?_
  rw [if_pos rfl]
  exact Disk.list_yields h.dataSize_pos hshows hall hdepth recursive

end Legible

/-! ## Counting sectors -/

theorem length_le_sectorsOf (l : List (Stored ⊕ Place)) : l.length ≤ (sectorsOf l).length := by
  unfold sectorsOf
  induction l with
  | nil => exact Nat.le_refl _
  | cons x rest ih =>
    rw [List.flatMap_cons, List.length_append, List.length_cons, Place.sectors, List.length_cons]
    omega

theorem length_le_of_nodup {l : List Nat} {n : Nat} (h : l.Nodup) (hlt : ∀ s ∈ l, s < n) :
    l.length ≤ n := by
  have := (List.subperm_of_subset h fun s hs => List.mem_range.mpr (hlt s hs)).length_le
  rwa [List.length_range] at this

namespace Consistent

theorem lt_sectors (h : v.Consistent k inv) {s : Nat} (hs : s ∈ inv.sectors) : s < k.sectors := by
  rcases List.mem_append.mp (inv.sectors_eq ▸ hs) with hs | hs
  · exact h.map_file.lt_sectors hs
  · refine h.held.lt_sectors ?_
    unfold Inventory.tree
    rwa [Tree.sectors_directory]

theorem length_sectors_le (h : v.Consistent k inv) : inv.sectors.length ≤ k.sectors :=
  length_le_of_nodup h.nodup fun _ hs => h.lt_sectors hs

/-- **The free sectors** are those that belong to no file. -/
theorem numFree_add (h : v.Consistent k inv) :
    (inv.freeMap k.sectors).numFree + inv.sectors.length = k.sectors := by
  have hperm : (inv.freeMap k.sectors).used.Perm inv.sectors :=
    (List.perm_ext_iff_of_nodup (FreeMap.nodup_used _) h.nodup).mpr fun s =>
      FreeMap.mem_used.trans (h.used s)
  have hle := h.length_sectors_le
  unfold FreeMap.numFree
  rw [hperm.length_eq]
  show k.sectors - inv.sectors.length + inv.sectors.length = k.sectors
  omega

theorem mem_free (h : v.Consistent k inv) {s : Nat} :
    s ∈ (inv.freeMap k.sectors).free ↔ s < k.sectors ∧ s ∉ inv.sectors := by
  rw [FreeMap.mem_free, ← h.used s, Bool.not_eq_true]
  rfl

/-- Directories are nested less deeply than a search goes. -/
theorem length_nodes_lt (h : v.Consistent k inv) :
    (Slots.nodes inv.slots).length < Directory.depthLimit := by
  have h₁ := length_le_sectorsOf inv.nodes
  have h₂ := h.length_sectors_le
  have h₃ := h.sectors_le
  rw [Inventory.nodes_eq, List.length_cons, List.length_cons, ← Inventory.nodes_eq] at h₁
  unfold Inventory.sectors at h₂
  unfold Directory.depthLimit
  omega

/-- The sectors of the free map, of the root directory and of the nodes in its slots. -/
theorem nodup_parts (h : v.Consistent k inv) :
    inv.mapFile.place.sectors.Nodup ∧ inv.root.sectors.Nodup ∧ (Slots.sectors inv.slots).Nodup ∧
      (∀ s ∈ inv.root.sectors, s ∉ inv.mapFile.place.sectors) ∧
      (∀ s ∈ Slots.sectors inv.slots, s ∉ inv.mapFile.place.sectors) ∧
      ∀ s ∈ Slots.sectors inv.slots, s ∉ inv.root.sectors := by
  have hnodup := h.nodup
  rw [Inventory.sectors_eq] at hnodup
  obtain ⟨hmap, hrest, hmapOut⟩ := List.nodup_append.mp hnodup
  obtain ⟨hroot, hslots, hrootOut⟩ := List.nodup_append.mp hrest
  exact ⟨hmap, hroot, hslots,
    fun s hs hmem => hmapOut s hmem s (List.mem_append_left _ hs) rfl,
    fun s hs hmem => hmapOut s hmem s (List.mem_append_right _ hs) rfl,
    fun s hs hmem => hrootOut s hmem s hs rfl⟩

/-- Outside the sectors of the files, the disk may change. -/
theorem keeps {q : Nat → Prop} (h : v.Consistent k inv) (hk : k.Keeps k' q)
    (hq : ∀ s ∈ inv.sectors, q s) : v.Consistent k' inv := by
  have hq' := inv.sectors_eq ▸ hq
  refine ⟨⟨h.toGrounded.keeps hk fun s hs => hq' s (List.mem_append_left _ hs),
    hk.sectors ▸ h.sectors_le,
    h.held.keeps hk fun s hs => hq' s (List.mem_append_right _ ?_)⟩, h.nodup,
    by rw [hk.sectors]; exact h.used, h.open_files⟩
  unfold Inventory.tree at hs
  rwa [Tree.sectors_directory] at hs

/-! ## Looking at a consistent volume -/

theorem numFree_yields (h : v.Consistent k inv) :
    Yields v.numFree k (.ok (inv.freeMap k.sectors).numFree) k :=
  h.freeMap_yields.bind (Yields.pure _ k)

/-- **Reading everything** from the device gives the inventory. -/
theorem survey_yields (h : v.Consistent k inv) : Yields Volume.survey k (.ok inv) k := by
  obtain ⟨table, htable, hshows, hall⟩ := h.exists_table
  have hk := h.dataSize_pos
  have hmap := h.map_file.place_yields
  have hroot := htable.file.place_yields
  rw [h.map_sector] at hmap
  rw [h.root_sector] at hroot
  have hread := h.map_file.read_yields hk (f := inv.mapFile.place.handle) rfl
    inv.mapFile.place.header.length 0
  rw [List.drop_zero,
    List.take_of_length_le (Nat.le_of_eq (h.map_file.length_content hk))] at hread
  have hslots := Disk.surveySlots_yields (k := k) hshows fun e t ht =>
    (hall e t ht).survey_yields hk (Nat.le_of_lt (Nat.lt_of_le_of_lt (Slots.length_nodes_le ht)
      h.length_nodes_lt))
  exact hmap.bind (hread.bind (hroot.bind ((htable.fetch_yields hk rfl).bind
    (hslots.bind (Yields.pure _ k)))))

/-- So what is on a drive has only one inventory. -/
theorem unique {v' : Volume} {inv' : Inventory} {d : Drive} (hd : d.FaultFree)
    (h : v.Consistent d.disk inv) (h' : v'.Consistent d.disk inv') : inv = inv' := by
  obtain ⟨d₁, h₁, -, -⟩ := h.survey_yields d hd rfl
  obtain ⟨d₂, h₂, -, -⟩ := h'.survey_yields d hd rfl
  rw [h₁] at h₂
  cases h₂
  rfl

end Consistent

/-! ## Completing a change -/

/-- **Storing the root table and the free map** completes a change: the slots that the table shows
are held, and the map marks what belongs to a file then. -/
theorem Grounded.commit_yields {slots : NodeSlots} {table dir : Directory} {m : FreeMap}
    (h : v.Grounded k mapFile root) (hlimit : k.sectors ≤ Link.limit)
    (htable : k.HasTable root table) (hshows : dir.Shows slots)
    (hlen : dir.slots.length = Layout.directorySlots) (hall : k.HoldsAll slots)
    (hsize : m.size = k.sectors) (hstored : m.stored = Layout.freeMapSize k.sectors)
    (hnodup : (⟨mapFile, root, slots⟩ : Inventory).sectors.Nodup)
    (hused : ∀ s, m.isUsed s = true ↔ s ∈ (⟨mapFile, root, slots⟩ : Inventory).sectors)
    (hopen : v.openFiles.OpenIn (.inr root :: Slots.nodes slots)) :
    ∃ k₁ k₂ content, Yields (dir.store v.rootFile) k (.ok ()) k₁ ∧
      Yields (m.store v.freeMapFile) k₁ (.ok ()) k₂ ∧ k.SameSize k₂ ∧
      v.Consistent k₂ ⟨⟨mapFile.place, content⟩, root, slots⟩ := by
  have hk := h.dataSize_pos
  rw [Inventory.sectors_eq] at hnodup
  obtain ⟨hmap, hrest, hmapOut⟩ := List.nodup_append.mp hnodup
  obtain ⟨hroot, -, hrootOut⟩ := List.nodup_append.mp hrest
  obtain ⟨k₁, hy₁, hkeep₁, hheld⟩ := Disk.storeRoot_yields htable hk h.root_header
    (List.nodup_cons.mp hroot).1 hshows hlen hall
    fun s hs hmem => hrootOut s (List.mem_cons_of_mem _ hs) s hmem rfl
  have h₁ := h.keeps hkeep₁ fun s hs hmem =>
    hmapOut s hs s (List.mem_append_left _ (List.mem_cons_of_mem _ hmem)) rfl
  have hsectors : m.size = k₁.sectors := hsize.trans hkeep₁.sectors.symm
  have hstored' : m.stored = Layout.freeMapSize m.size := by rw [hstored, hsize]
  have hlength : mapFile.content.length = Layout.freeMapSize m.size := by rw [h.map_length, hsize]
  obtain ⟨k₂, content, hy₂, hkeep₂, hfile, hlength', hsame⟩ := Disk.storeMap_yields h₁.map_file
    h₁.dataSize_pos h₁.map_header (List.nodup_cons.mp hmap).1 hlength hstored'
  have hsize₂ : k₂.sectors = m.size := hkeep₂.sectors.trans hsectors.symm
  have hheld₂ : k₂.Holds (.directory root slots) := hheld.keeps hkeep₂ fun s hs hmem => by
    rw [Tree.sectors_directory] at hs
    exact hmapOut s (List.mem_cons_of_mem _ hmem) s hs rfl
  refine ⟨k₁, k₂, content, hy₁, hy₂, hkeep₁.sameSize.trans hkeep₂.sameSize, ⟨⟨?_, hfile, ?_,
    h.map_sector, h.map_header, h.root_sector, h.root_header⟩, ?_, hheld₂⟩, ?_, fun s => ?_, ?_⟩
  · exact hkeep₂.sectorSize ▸ h₁.headerSize_le
  · rw [hlength', hsize₂]
  · exact hkeep₂.sectors ▸ hkeep₁.sectors ▸ hlimit
  · rw [Inventory.sectors_eq]
    exact hnodup
  · rw [hsize₂]
    exact (Eq.congr_left (hsame s)).trans (hused s)
  · unfold Inventory.tree
    rw [Tree.nodes_directory]
    exact hopen

end Volume

end SectorChain
