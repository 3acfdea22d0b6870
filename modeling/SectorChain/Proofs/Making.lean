import SectorChain.Proofs.Consistency
import SectorChain.Proofs.Names

/-!
# Making files and directories

A new file or directory takes the first free sector for its header and the next ones for its
chain. Its sectors are written first; then its entry is added, which may fail; the free map is
stored last.

Results:
* `writeNew_yields`, `newNode_yields`: a new node in the first free sectors, and nothing else
  written.
* `make_refused`, `make_exists`, `make_full`: what is refused before anything is written.
* `enroll_fails`: an entry that cannot be added is not, and nothing more is written.
* `make_yields`: with room, a new node in the first free sectors is put into the slots and all else
  is as before; or the slots refuse it, and only free sectors have new bytes.
* `make_cases`: all ways in which making may end.
* `make_in_root`: with an unused slot in the root, a new name and room, a new node is made there.
-/

namespace SectorChain

namespace Node

/-- A new file or directory: zeros, or a table without an entry in use. -/
def blank (kind : Kind) (p : Place) (size : Nat) : Node :=
  match kind with
  | .file => .file ⟨p, Bytes.zeros size⟩
  | .directory => .directory p (List.replicate Layout.directorySlots none)

@[simp] theorem kind_blank (kind : Kind) (p : Place) (size : Nat) :
    (blank kind p size).kind = kind := by
  cases kind <;> rfl

@[simp] theorem place_blank (kind : Kind) (p : Place) (size : Nat) :
    (blank kind p size).place = p := by
  cases kind <;> rfl

/-- There is nothing below what is new. -/
theorem nodes_blank (kind : Kind) (p : Place) (size : Nat) :
    ∃ x, (blank kind p size).nodes = [x] ∧ placeOf x = p ∧ kindOf x = kind ∧
      ∀ s : Stored, x = .inl s → s.content = Bytes.zeros size := by
  cases kind with
  | file =>
    refine ⟨.inl ⟨p, Bytes.zeros size⟩, Tree.nodes_file _, rfl, rfl, ?_⟩
    rintro s ⟨⟩
    rfl
  | directory =>
    refine ⟨.inr p, ?_, rfl, rfl, by rintro s ⟨⟩⟩
    show (Tree.directory p _ : Node).nodes = _
    rw [Tree.nodes_directory]
    unfold Slots.nodes Slots.children
    rw [List.reduceOption_replicate_none]
    rfl

@[simp] theorem sectors_blank (kind : Kind) (p : Place) (size : Nat) :
    (blank kind p size).sectors = p.sectors := by
  obtain ⟨x, hx, hp, -⟩ := nodes_blank kind p size
  unfold Tree.sectors sectorsOf
  rw [hx, List.flatMap_singleton, hp]

end Node

theorem Directory.shows_empty (n : Nat) : (Directory.empty n).Shows (List.replicate n none) where
  labels := by
    unfold Directory.labels Directory.empty Slots.labels
    rw [List.map_replicate, List.map_replicate]
    rfl
  leads := fun e t ht => by cases List.eq_of_mem_replicate ht

namespace Volume

/-! ## The stages of `make` -/

/-- Store the header of a new file, and for a directory its table without an entry. -/
def writeNew (kind : Kind) (s : Nat) (h : Header) : DriveM Unit := do
  h.store s
  if kind = .directory then (Directory.empty Layout.directorySlots).store (← Handle.fetch s)

/-- Add the entry of a new file, and store the free map. -/
def enroll (v : Volume) (path : String) (kind : Kind) (size s : Nat) (root : Directory)
    (m : FreeMap) : DriveM Unit := do
  match ← Drive.attempt (root.add path kind s) with
  | .error e =>
    Drive.note (.rollingBack path e)
    throw e
  | .ok root =>
    root.store v.rootFile
    m.store v.freeMapFile
    Drive.note (.created kind path size s)

/-- Take the first free sectors for a new file, write it to them and enroll it. -/
def occupy (v : Volume) (path : String) (kind : Kind) (size : Nat) (root : Directory)
    (m : FreeMap) : DriveM Unit :=
  match m.claim? with
  | none => throw .outOfSpace
  | some (s, m) => do
    let (m, header) ← Header.allocate m size
    let header ← Drive.ofExcept header
    writeNew kind s header
    v.enroll path kind size s root m

theorem make_eq (v : Volume) (path : String) (kind : Kind) (size : Nat) :
    v.make path kind size = (do
      checkPath path (.alreadyExists path)
      let m ← v.freeMap
      let root ← v.root
      match ← Drive.attempt (root.findEntry path) with
      | .ok _ => throw (.alreadyExists path)
      | .error _ => v.occupy path kind size root m) := by
  refine bind_congr fun _ => bind_congr fun m => bind_congr fun root => bind_congr fun found => ?_
  cases found with
  | ok e => rfl
  | error e =>
    unfold occupy
    cases m.claim? with
    | none => rfl
    | some claimed =>
      refine bind_congr fun allocated => bind_congr fun header => ?_
      unfold writeNew
      rw [bind_assoc]
      refine bind_congr fun _ => ?_
      cases kind with
      | file => rfl
      | directory =>
        rw [if_pos rfl, if_pos rfl, bind_assoc]
        rfl

end Volume

namespace Disk

variable {k : Disk} {m : FreeMap}

/-- **The header and the first table** of a new file are written to its own sectors, and the node is
there then. -/
theorem writeNew_yields (hsize : Layout.headerSize ≤ k.sectorSize) (hk : 0 < k.dataSize)
    {kind : Kind} {s : Nat} {h : Header} {c : List Nat} {size : Nat} (hs : s < k.sectors)
    (hsc : s ∉ c) (hc : k.Chained h c) (hblocks : c.length = Layout.blocksFor h.length k.dataSize)
    (hzeros : k.content h c = Bytes.zeros size)
    (hdir : kind = .directory → size = Layout.directorySize) :
    ∃ k', Yields (Volume.writeNew kind s h) k (.ok ()) k' ∧ k.Keeps k' (· ∉ s :: c) ∧
      k'.Holds (Node.blank kind ⟨s, h, c⟩ size) := by
  have hfile := hasFile_putHeader hsize hs hsc hc hblocks
  rw [hzeros] at hfile
  have hstore := storeHeader_yields hs h
  have hput : k.Keeps (k.putHeader s h) (· ∉ s :: c) :=
    (keeps_putHeader k s h).mono fun t ht heq => ht (heq ▸ List.mem_cons_self)
  cases kind with
  | file => exact ⟨k.putHeader s h, hstore.bind (Yields.pure _ _), hput, .file hfile⟩
  | directory =>
    have hempty : (Directory.empty Layout.directorySlots).encode.length =
        (Bytes.zeros size).length := by
      rw [Bytes.length_zeros, hdir rfl, Directory.length_encode_empty]
    obtain ⟨k', hy, hkeep, htable⟩ := hfile.overwrite_yields hk
      (f := Place.handle ⟨s, h, _⟩) rfl hsc hempty
    refine ⟨k', hstore.bind (hfile.open_yields.bind hy), ?_, ?_⟩
    · exact hput.trans (hkeep.mono fun t ht hmem => ht (List.mem_cons_of_mem _ hmem))
    · exact .directory _ ⟨htable, List.length_replicate⟩ (Directory.shows_empty _)
        fun e t ht => by cases List.eq_of_mem_replicate ht

/-- **A new node** in the first free sectors of a map, header first; no other sector is written. -/
theorem newNode_yields (hsize : Layout.headerSize ≤ k.sectorSize)
    (hk : 0 < k.dataSize) (hsectors : m.size = k.sectors) {s : Nat} {rest : List Nat}
    (hfree : m.free = s :: rest) {kind : Kind} {size : Nat} (hfits : Fits k (m.mark s) size)
    (hlinks : ∀ t ∈ rest.take (Layout.blocksFor size k.dataSize), t < Link.limit)
    (hdir : kind = .directory → size = Layout.directorySize) :
    ∃ k₁ k₂ h, h.length = size ∧
      Yields (Header.allocate (m.mark s) size) k (.ok
        ((s :: rest.take (Layout.blocksFor size k.dataSize)).foldl FreeMap.mark m, .ok h)) k₁ ∧
      Yields (Volume.writeNew kind s h) k₁ (.ok ()) k₂ ∧
      k₁.Chained h (rest.take (Layout.blocksFor size k.dataSize)) ∧
      k.Keeps k₁ (· ∉ rest.take (Layout.blocksFor size k.dataSize)) ∧
      k.Keeps k₂ (· ∉ s :: rest.take (Layout.blocksFor size k.dataSize)) ∧
      k₂.Holds (Node.blank kind ⟨s, h, rest.take (Layout.blocksFor size k.dataSize)⟩ size) := by
  obtain ⟨hs, hbehind⟩ := FreeMap.lt_of_free_cons hfree
  have hmark : (m.mark s).free = rest := FreeMap.free_mark_head hfree
  have hmarkSize : (m.mark s).size = k.sectors := (FreeMap.size_mark m s).trans hsectors
  obtain ⟨k₁, h, hy₁, hlen, hcount, hkeep₁, hchained, hzeros⟩ :=
    allocate_yields hk hmarkSize hfits (hmark ▸ hlinks)
  rw [hmark] at hy₁ hcount hkeep₁ hchained hzeros
  have hsc : s ∉ rest.take (Layout.blocksFor size k.dataSize) := fun hmem =>
    absurd (hbehind s (List.mem_of_mem_take hmem)) (Nat.lt_irrefl s)
  obtain ⟨k₂, hy₂, hkeep₂, hheld⟩ := writeNew_yields (hkeep₁.sectorSize ▸ hsize)
    (hkeep₁.dataSize ▸ hk) (hkeep₁.sectors.symm ▸ hsectors ▸ hs) hsc hchained
    (by rw [hcount, hlen, hkeep₁.dataSize]) hzeros hdir
  exact ⟨k₁, k₂, h, hlen, hy₁, hy₂, hchained, hkeep₁,
    (hkeep₁.mono fun t ht hmem => ht (List.mem_cons_of_mem _ hmem)).trans hkeep₂, hheld⟩

end Disk

namespace Volume

variable {v : Volume} {k : Disk} {inv : Inventory} {path : String} {kind : Kind} {size : Nat}

/-! ## What is refused -/

/-- A path that is no path, or that of the root, is refused. -/
theorem checkPath_fails {atRoot e : VolumeError} (k : Disk)
    (h : Path.validate path = .error e ∨ path = "/" ∧ e = atRoot) :
    Yields (checkPath path atRoot) k (.error e) k := by
  unfold checkPath
  rcases h with h | ⟨rfl, rfl⟩
  · rw [h]
    exact (Yields.throw e k).bind_error
  · exact (Yields.pure _ k).bind (Yields.throw _ k)

theorem checkPath_yields (atRoot : VolumeError) (k : Disk) (h : Path.validate path = .ok ())
    (hroot : path ≠ "/") : Yields (checkPath path atRoot) k (.ok ()) k := by
  unfold checkPath
  rw [h, if_neg hroot]
  exact (Yields.pure _ k).bind (Yields.pure _ k)

theorem make_refused {e : VolumeError} (k : Disk)
    (h : Path.validate path = .error e ∨ path = "/" ∧ e = .alreadyExists path) :
    Yields (v.make path kind size) k (.error e) k := by
  rw [make_eq]
  exact (checkPath_fails k h).bind_error

namespace Consistent

/-- What there is already is not made. -/
theorem make_exists (h : v.Consistent k inv) (hpath : Path.validate path = .ok ())
    (hroot : path ≠ "/") {p : Entry × Node} (hfind : inv.find path = .ok p) :
    Yields (v.make path kind size) k (.error (.alreadyExists path)) k := by
  obtain ⟨table, htable, hshows, hall⟩ := h.exists_table
  have hentry := h.findEntry_table hshows hall path
  rw [hfind] at hentry
  rw [make_eq]
  refine (checkPath_yields _ k hpath hroot).bind (h.freeMap_yields.bind
    ((h.root_yields htable).bind (hentry.attempt.bind ?_)))
  exact Yields.throw _ k

/-- What there is not yet gets sectors. -/
theorem make_of_occupy (h : v.Consistent k inv) (hpath : Path.validate path = .ok ())
    (hroot : path ≠ "/") {x : VolumeError} (hfind : inv.find path = .error x) {table : Directory}
    (htable : k.HasTable inv.root table) (hshows : table.Shows inv.slots)
    (hall : k.HoldsAll inv.slots) {r : Except VolumeError Unit} {k' : Disk}
    (hoccupy : Yields (v.occupy path kind size table (inv.freeMap k.sectors)) k r k') :
    Yields (v.make path kind size) k r k' := by
  have hentry := h.findEntry_table hshows hall path
  rw [hfind] at hentry
  rw [make_eq]
  exact (checkPath_yields _ k hpath hroot).bind (h.freeMap_yields.bind
    ((h.root_yields htable).bind (hentry.attempt.bind hoccupy)))

/-- Without room nothing is made. -/
theorem make_full (h : v.Consistent k inv) (hpath : Path.validate path = .ok ())
    (hroot : path ≠ "/") {x : VolumeError} (hfind : inv.find path = .error x)
    (hfull : ∀ s rest, (inv.freeMap k.sectors).free = s :: rest →
      ¬Disk.Fits k ((inv.freeMap k.sectors).mark s) size) :
    Yields (v.make path kind size) k (.error .outOfSpace) k := by
  obtain ⟨table, htable, hshows, hall⟩ := h.exists_table
  refine h.make_of_occupy hpath hroot hfind htable hshows hall ?_
  unfold occupy
  rw [FreeMap.claim?_eq]
  cases hfree : (inv.freeMap k.sectors).free with
  | nil => exact Yields.throw _ k
  | cons s rest =>
    exact (Disk.allocate_full (hfull s rest hfree)).bind (Yields.throw _ k).bind_error

/-! ## What is made -/

/-- The parts of making that come before the entry is added. -/
theorem make_of_enroll (h : v.Consistent k inv) (hpath : Path.validate path = .ok ())
    (hroot : path ≠ "/") {x : VolumeError} (hfind : inv.find path = .error x) {table : Directory}
    (htable : k.HasTable inv.root table) (hshows : table.Shows inv.slots)
    (hall : k.HoldsAll inv.slots) {s : Nat} {rest : List Nat}
    (hfree : (inv.freeMap k.sectors).free = s :: rest) {m : FreeMap} {header : Header}
    {k₁ k₂ k₃ : Disk} {r : Except VolumeError Unit}
    (hallocate : Yields (Header.allocate ((inv.freeMap k.sectors).mark s) size) k
      (.ok (m, .ok header)) k₁)
    (hwrite : Yields (writeNew kind s header) k₁ (.ok ()) k₂)
    (henroll : Yields (v.enroll path kind size s table m) k₂ r k₃) :
    Yields (v.make path kind size) k r k₃ := by
  refine h.make_of_occupy hpath hroot hfind htable hshows hall ?_
  unfold occupy
  rw [FreeMap.claim?_eq, hfree]
  exact hallocate.bind ((Yields.pure header k₁).bind (hwrite.bind henroll))

/-- An entry that cannot be added is not, and nothing is written. -/
theorem enroll_fails (h : v.Consistent k inv) {table : Directory} (hshows : table.Shows inv.slots)
    (hall : k.HoldsAll inv.slots) {t : Node} (hlt : t.place.sector < Link.limit) (m : FreeMap)
    (size : Nat) {e : VolumeError} (hinsert : inv.insert path t = .error e) :
    Yields (v.enroll path t.kind size t.place.sector table m) k (.error e) k := by
  have hchange := Disk.change_fails h.dataSize_pos
    (Directory.insert_implements path rfl rfl hlt _) hshows hall hinsert
  rw [← Directory.add_eq] at hchange
  exact hchange.attempt.bind ((Yields.note _ k).bind (Yields.throw e k))

/-- **An entry is added** for a node that is on the disk, in sectors that belonged to no file. -/
theorem enroll_yields (h : v.Consistent k inv) {table : Directory}
    (htable : k.HasTable inv.root table) (hshows : table.Shows inv.slots)
    (hall : k.HoldsAll inv.slots) {t : Node} (ht : k.Holds t)
    (hfresh : ∀ s ∈ t.sectors, s ∉ inv.sectors) (hnodup : t.sectors.Nodup)
    (hlt : t.place.sector < Link.limit) (size : Nat) {m : FreeMap} (hsize : m.size = k.sectors)
    (hstored : m.stored = Layout.freeMapSize k.sectors)
    (hused : ∀ s, m.isUsed s = true ↔ s ∈ inv.sectors ∨ s ∈ t.sectors) {slots : NodeSlots}
    (hinsert : inv.insert path t = .ok slots) :
    ∃ k' content, Yields (v.enroll path t.kind size t.place.sector table m) k (.ok ()) k' ∧
      k.SameSize k' ∧ v.Consistent k' ⟨⟨inv.mapFile.place, content⟩, inv.root, slots⟩ := by
  obtain ⟨-, -, hslotsNodup, -, hslotsMap, hslotsRoot⟩ := h.nodup_parts
  have hsectors := Inventory.insert_sectors hinsert inv.mapFile.content
  obtain ⟨dir, k₁, hy₁, hkeep₁, hshows₁, hlen₁, hall₁, -⟩ := Disk.change_yields
    (· ∈ t.sectors) h.dataSize_pos (Directory.insert_implements path rfl rfl hlt _)
    (fun {s s' e t'} hok ht' => (Slots.mem_insert hok ht').imp_right (by
      rintro rfl
      exact ⟨ht, fun _ => id⟩))
    hshows hall hslotsNodup (fun s hs hmem => hfresh s hmem (Inventory.mem_of_slots hs)) hinsert
  rw [← Directory.add_eq] at hy₁
  have hout : ∀ s, s ∉ Slots.sectors inv.slots → s ∉ Slots.tables inv.slots :=
    fun s hs hmem => hs (Slots.tables_subset hmem)
  have hground := h.toGrounded.keeps hkeep₁ fun s hs => hout s fun hmem => hslotsMap s hmem hs
  have htable₁ := htable.keeps hkeep₁ fun s hs => hout s fun hmem => hslotsRoot s hmem hs
  obtain ⟨k₂, k₃, content, hy₂, hy₃, hsame, hconsistent⟩ := hground.commit_yields
    (hkeep₁.sectors ▸ h.sectors_le) htable₁ hshows₁ (hlen₁.trans htable.length_slots) hall₁
    (hsize.trans hkeep₁.sectors.symm) (hkeep₁.sectors.symm ▸ hstored)
    (hsectors.nodup_iff.mpr (List.nodup_append.mpr ⟨h.nodup, hnodup, fun s hs s' hs' heq =>
      hfresh s' hs' (heq ▸ hs)⟩))
    (fun s => (hused s).trans (List.mem_append.symm.trans hsectors.mem_iff.symm))
    (fun id f hf => by
      obtain ⟨x, hx, hopen⟩ := h.open_files id f hf
      have hx' := (Inventory.insert_nodes hinsert inv.mapFile).mem_iff.mpr
        (List.mem_append_left _ hx)
      rw [Inventory.tree_nodes] at hx'
      exact ⟨x, hx', hopen⟩)
  exact ⟨k₃, content, hy₁.attempt.bind (hy₂.bind (hy₃.bind (Yields.note _ k₃))),
    hkeep₁.sameSize.trans hsame, hconsistent⟩

/-- The new sectors belong to no file before. -/
theorem fresh_of_free (h : v.Consistent k inv) {s : Nat} {rest : List Nat}
    (hfree : (inv.freeMap k.sectors).free = s :: rest) (n : Nat) :
    (∀ t ∈ s :: rest.take n, t < k.sectors ∧ t ∉ inv.sectors) ∧ (s :: rest.take n).Nodup := by
  have hsub : (s :: rest.take n) = (inv.freeMap k.sectors).free.take (n + 1) := by
    rw [hfree, List.take_succ_cons]
  rw [hsub]
  exact ⟨fun t ht => h.mem_free.mp (List.mem_of_mem_take ht),
    (FreeMap.nodup_free _).sublist (List.take_sublist _ _)⟩

/-- Links lead to all free sectors. -/
theorem links_of_free (h : v.Consistent k inv) {s : Nat} {rest : List Nat}
    (hfree : (inv.freeMap k.sectors).free = s :: rest) (n : Nat) :
    ∀ t ∈ rest.take n, t < Link.limit := fun t ht => by
  have hmem : t ∈ (inv.freeMap k.sectors).free := hfree ▸ List.mem_cons_of_mem s
    (List.mem_of_mem_take ht)
  exact Nat.lt_of_lt_of_le (h.mem_free.mp hmem).1 h.sectors_le

/-- **With room for it**, a new node is made in the first free sectors: it is put into its slot, or
the error of the slots is reported and no sector of a file has changed. -/
theorem make_yields (h : v.Consistent k inv) (hpath : Path.validate path = .ok ())
    (hroot : path ≠ "/") {x : VolumeError} (hfind : inv.find path = .error x) {s : Nat}
    {rest : List Nat} (hfree : (inv.freeMap k.sectors).free = s :: rest)
    (hroom : Disk.Fits k ((inv.freeMap k.sectors).mark s) size)
    (hdir : kind = .directory → size = Layout.directorySize) :
    ∃ header : Header, header.length = size ∧
      let p : Place := ⟨s, header, rest.take (Layout.blocksFor size k.dataSize)⟩
      match inv.insert path (Node.blank kind p size) with
      | .error e => ∃ k', Yields (v.make path kind size) k (.error e) k' ∧
          k.Keeps k' (· ∈ inv.sectors)
      | .ok slots => ∃ k' content, Yields (v.make path kind size) k (.ok ()) k' ∧
          k.SameSize k' ∧ v.Consistent k' ⟨⟨inv.mapFile.place, content⟩, inv.root, slots⟩ := by
  obtain ⟨table, htable, hshows, hall⟩ := h.exists_table
  obtain ⟨k₁, k₂, header, hlen, hy₁, hy₂, -, -, hkeep, hheld⟩ := Disk.newNode_yields
    h.headerSize_le h.dataSize_pos rfl hfree hroom (h.links_of_free hfree _) hdir
  obtain ⟨hfresh, hnodup⟩ := h.fresh_of_free hfree (Layout.blocksFor size k.dataSize)
  have hin : k.Keeps k₂ (· ∈ inv.sectors) := hkeep.mono fun t ht hmem => (hfresh t hmem).2 ht
  have hv : v.Consistent k₂ inv := h.keeps hin fun _ hs => hs
  have htable₂ := htable.keeps hin fun _ => Inventory.mem_of_root
  have hall₂ := hall.keeps hin fun _ => Inventory.mem_of_slots
  refine ⟨header, hlen, ?_⟩
  intro p
  have hplace : (Node.blank kind p size).place = p := Node.place_blank kind p size
  have hnode : (Node.blank kind p size).sectors = p.sectors := Node.sectors_blank kind p size
  have hlt : (Node.blank kind p size).place.sector < Link.limit := by
    rw [hplace]
    exact Nat.lt_of_lt_of_le (hfresh s List.mem_cons_self).1 h.sectors_le
  cases hinsert : inv.insert path (Node.blank kind p size) with
  | error e =>
    have hy := hv.enroll_fails hshows hall₂ hlt
      ((s :: rest.take (Layout.blocksFor size k.dataSize)).foldl FreeMap.mark
        (inv.freeMap k.sectors)) size hinsert
    rw [Node.kind_blank, hplace] at hy
    exact ⟨k₂, h.make_of_enroll hpath hroot hfind htable hshows hall hfree hy₁ hy₂ hy, hin⟩
  | ok slots =>
    have hstored : (inv.freeMap k.sectors).stored = Layout.freeMapSize k.sectors :=
      FreeMap.stored_ofBytes h.map_length
    have hy := hv.enroll_yields htable₂ hshows hall₂ hheld
      (fun t ht => (hfresh t (by rwa [hnode] at ht)).2) (hnode ▸ hnodup) hlt size
      (m := (s :: rest.take (Layout.blocksFor size k.dataSize)).foldl FreeMap.mark
        (inv.freeMap k.sectors))
      (by rw [FreeMap.size_foldl_mark, hkeep.sectors]; rfl)
      (by rw [FreeMap.stored_foldl_mark, hkeep.sectors, hstored])
      (fun t => by
        rw [FreeMap.isUsed_foldl_mark fun t ht => (hfresh t ht).1, h.used t, hnode]
        rfl)
      hinsert
    rw [Node.kind_blank, hplace] at hy
    obtain ⟨k₃, content, hy, hsame, hconsistent⟩ := hy
    exact ⟨k₃, content, h.make_of_enroll hpath hroot hfind htable hshows hall hfree hy₁ hy₂ hy,
      hkeep.sameSize.trans hsame, hconsistent⟩

/-- A name that is new in the root is made there, when there is an unused slot and room for it. -/
theorem make_in_root (h : v.Consistent k inv) {n : String} (hroute : Route.ofPath path = .last n)
    (hnew : Slots.find? Entry.name inv.slots n = none) {i : Nat}
    (hslot : inv.slots.findIdx? Option.isNone = some i) (hsize : size < 0x80000000)
    (hroom : inv.sectors.length + (1 + Layout.blocksFor size k.dataSize) ≤ k.sectors)
    (hdir : kind = .directory → size = Layout.directorySize) :
    ∃ k', Yields (v.make path kind size) k (.ok ()) k' := by
  have hfault : (Route.ofPath path).fault? = none := by
    rw [hroute]
    rfl
  have hpath := Path.validate_of_fault? hfault
  have hroot := Route.ne_root_of_fault? hfault
  have hfind : inv.find path = .error (.notFound path) := by
    unfold Inventory.find
    rw [hroute, Slots.follow, hnew]
  have hinsert : ∀ t : Node, ∃ slots, inv.insert path t = .ok slots := by
    intro t
    unfold Inventory.insert
    rw [hroute, Slots.change, Slots.insert, hnew, hslot]
    exact ⟨_, rfl⟩
  have hnumFree := h.numFree_add
  rw [FreeMap.numFree_eq] at hnumFree
  cases hfree : (inv.freeMap k.sectors).free with
  | nil =>
    rw [hfree, List.length_nil] at hnumFree
    omega
  | cons s rest =>
    rw [hfree, List.length_cons] at hnumFree
    have hlimit : k.sectors ≤ 0x80000000 := h.sectors_le
    have hfits : Disk.Fits k ((inv.freeMap k.sectors).mark s) size := by
      refine ⟨hsize, by omega, ?_⟩
      rw [FreeMap.free_mark_head hfree]
      omega
    obtain ⟨header, -, hmake⟩ := h.make_yields hpath hroot hfind hfree hfits hdir
    obtain ⟨slots, hslots⟩ := hinsert (.blank kind
      ⟨s, header, rest.take (Layout.blocksFor size k.dataSize)⟩ size)
    dsimp only at hmake
    rw [hslots] at hmake
    obtain ⟨k', content, hy, -⟩ := hmake
    exact ⟨k', hy⟩

/-- **In any case**, making fails without a change in what belongs to a file and for no fault of the
device, or it puts a new node into the slots. -/
theorem make_cases (h : v.Consistent k inv) (path : String) (kind : Kind) (size : Nat)
    (hdir : kind = .directory → size = Layout.directorySize) :
    (∃ e k', e.isDamage = false ∧ Yields (v.make path kind size) k (.error e) k' ∧
      k.Keeps k' (· ∈ inv.sectors)) ∨
      ∃ p slots k' content, p.header.length = size ∧
        inv.insert path (Node.blank kind p size) = .ok slots ∧
        Yields (v.make path kind size) k (.ok ()) k' ∧ k.SameSize k' ∧
        v.Consistent k' ⟨⟨inv.mapFile.place, content⟩, inv.root, slots⟩ := by
  cases hpath : Path.validate path with
  | error e =>
    exact .inl ⟨e, k, Path.isDamage_of_validate hpath, make_refused k (.inl hpath),
      Disk.Keeps.refl _ _⟩
  | ok =>
    by_cases hroot : path = "/"
    · exact .inl ⟨_, k, rfl, make_refused k (.inr ⟨hroot, rfl⟩), Disk.Keeps.refl _ _⟩
    cases hfind : inv.find path with
    | ok p => exact .inl ⟨_, k, rfl, h.make_exists hpath hroot hfind, Disk.Keeps.refl _ _⟩
    | error x =>
      by_cases hroom : ∃ s rest, (inv.freeMap k.sectors).free = s :: rest ∧
          Disk.Fits k ((inv.freeMap k.sectors).mark s) size
      · obtain ⟨s, rest, hfree, hfits⟩ := hroom
        obtain ⟨header, hlen, hmake⟩ := h.make_yields hpath hroot hfind hfree hfits hdir
        dsimp only at hmake
        split at hmake
        · rename_i e herror
          obtain ⟨k', hy, hkeep⟩ := hmake
          exact .inl ⟨e, k', Slots.isDamage_of_change Slots.isDamage_of_insert herror, hy, hkeep⟩
        · rename_i slots hslots
          obtain ⟨k', content, hy, hsame, hconsistent⟩ := hmake
          exact .inr ⟨_, slots, k', content, hlen, hslots, hy, hsame, hconsistent⟩
      · refine .inl ⟨_, k, rfl, h.make_full hpath hroot hfind fun s rest hfree hfits => ?_,
          Disk.Keeps.refl _ _⟩
        exact hroom ⟨s, rest, hfree, hfits⟩

end Consistent

end Volume

end SectorChain
