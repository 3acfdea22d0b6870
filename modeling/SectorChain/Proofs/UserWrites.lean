import SectorChain.Proofs.Upkeep

/-!
# What a write by id may change

A write through an id changes the sectors of one chain only, its `footprint`: that of the file or
directory which the id is open on. So the free map stays as it is, and so do the tables of all
directories but the one that is written to. Through the id of a regular file no table is written,
and all names stay.

Directories are meant here as the entries lead to them (`Usage.HasDirectory`), whether or not a path
does: one whose name is cut short by a zero byte may be hidden behind another of the same name.

The root can be opened like any other path, for a directory is a file too, and so its table can be
written to. Whoever does so can make entries that lead to any sector: then the path of what looks
like a regular file leads to the free map.

Results:
* `Managed.write_keeps`: what is not in the footprint stays.
* `Managed.exists_owner`: every directory that entries lead to has an owner in the estate.
* `reached_write`: so it is in every state of a run.
* `write_root`: what becomes of names and free map after a write to the root.
-/

namespace SectorChain

/-- The table of the directory with its header in a sector. -/
def Directory.fetchAt (sector : Nat) : DriveM Directory := do
  Directory.fetch (← Handle.fetch sector)

/-- A table is read from the sector of its header. -/
theorem Disk.Tabled.fetchAt_yields {k : Disk} {v : Visit} (h : k.Tabled v) :
    Yields (Directory.fetchAt v.place.sector) k (.ok v.table) k :=
  h.lies.header.open_yields.bind (h.fetch_yields rfl)

namespace Usage

/-- **The directories on the drive**, by the sectors of their headers: the root, and what an entry
in use for a directory leads to. -/
inductive HasDirectory (u : Usage) : Nat → Prop
  | root : HasDirectory u Layout.rootSector
  | child {s s' : Nat} {table : Directory} {e : Entry} (h : HasDirectory u s)
      (htable : u.ask (Directory.fetchAt s) = .ok table) (he : e ∈ table.entries)
      (hkind : e.kind = .directory) (hs : e.sector? = some s') : HasDirectory u s'

variable {u : Usage} {A : Estate} {mapFile : Stored} {root : Place} {id : Nat}

/-- The sectors that a write to an id may change: the chain of what the id is open on. -/
def footprint (u : Usage) (A : Estate) (id i : Nat) : Prop :=
  ∃ f, u.volume.openFiles.get? id = some f ∧
    ∃ x ∈ A.owners, x.place.sector = f.sector ∧ i ∈ x.place.chain

namespace Managed

/-- **A write by id** changes its footprint only, and of a regular file only the bytes. -/
theorem write_keeps (h : u.Managed A mapFile root) (id : Nat) (bytes : Bytes) :
    (u.call (.writeId id bytes)).2.drive.FaultFree ∧
      (∃ t, (u.call (.writeId id bytes)).2.volume = { u.volume with openFiles := t }) ∧
      u.drive.disk.Keeps (u.call (.writeId id bytes)).2.drive.disk (¬ u.footprint A id ·) ∧
      (u.opened id = some .file → (u.call (.writeId id bytes)).2.drive.disk.Supports A) := by
  cases hf : u.volume.openFiles.get? id with
  | none =>
    have hperform : Yields ((Request.writeId id bytes).perform u.volume) u.drive.disk
        (.error (.notOpen id)) u.drive.disk := (Volume.writeId_fails hf bytes _).bind_error
    obtain ⟨d, hd, hk, hcall⟩ := call_error h.fault_free hperform
    rw [hcall]
    exact ⟨hd, ⟨u.volume.openFiles, rfl⟩, hk.symm ▸ Disk.Keeps.refl _ _,
      fun _ => hk.symm ▸ h.owns.supports⟩
  | some f =>
    obtain ⟨x, hx, hsector, -, k', hkeep, hlinked, hends⟩ := h.owns.writeId_cases hf bytes
    have hkeep' : u.drive.disk.Keeps k' (¬ u.footprint A id ·) :=
      hkeep.mono fun i hi hmem => hi ⟨f, hf, x, hx, hsector, hmem⟩
    have hsupports : u.opened id = some .file → k'.Supports A := fun hid =>
      h.owns.supports.written h.owns.ordered hx
        (Option.some.inj ((h.opened id f hf x hx hsector).symm.trans hid)) hkeep hlinked
    rcases hends with ⟨e, hy⟩ | ⟨n, hy⟩
    · have hperform : Yields ((Request.writeId id bytes).perform u.volume) u.drive.disk (.error e)
          k' := hy.bind_error
      obtain ⟨d, hd, rfl, hcall⟩ := call_error h.fault_free hperform
      rw [hcall]
      exact ⟨hd, ⟨u.volume.openFiles, rfl⟩, hkeep', hsupports⟩
    · obtain ⟨u', hcall, hd, rfl, hvolume, -⟩ := call_writeId h.fault_free hy
      rw [hcall]
      exact ⟨hd, ⟨_, hvolume⟩, hkeep', hsupports⟩

/-- No other file has sectors in the footprint. -/
theorem not_footprint (h : u.Managed A mapFile root) {y : Owner} (hy : y ∈ A.owners)
    (hne : ∀ f, u.volume.openFiles.get? id = some f → y.place.sector ≠ f.sector) {i : Nat}
    (hi : i ∈ y.place.sectors) : ¬ u.footprint A id i := by
  rintro ⟨f, hf, x, hx, hsector, hmem⟩
  refine h.owns.ordered.chain_apart hx hy ?_ hi hmem
  rintro rfl
  exact hne f hf hsector

/-- No id is open on the free map file. -/
theorem map_ne (h : u.Managed A mapFile root) (f : Handle)
    (hf : u.volume.openFiles.get? id = some f) : mapFile.place.sector ≠ f.sector := by
  obtain ⟨-, -, -, -, hmap⟩ := h.owns.open_files id f hf
  rw [h.owns.map_sector]
  exact Nat.ne_of_lt hmap

theorem fetchAt_yields (h : u.Managed A mapFile root) {p : Place}
    (hp : ⟨.directory, p⟩ ∈ A.owners) :
    Yields (Directory.fetchAt p.sector) u.drive.disk (.ok (A.tableOf p)) u.drive.disk :=
  (h.owns.supports.tabled p hp).fetchAt_yields

/-- **Every directory has an owner.** -/
theorem exists_owner (h : u.Managed A mapFile root) {s : Nat} (hs : u.HasDirectory s) :
    ∃ p, ⟨.directory, p⟩ ∈ A.owners ∧ p.sector = s := by
  induction hs with
  | root => exact ⟨root, h.owns.root_owner, h.owns.root_sector⟩
  | @child s s' table e _ htable he hkind hs ih =>
    obtain ⟨p, hp, rfl⟩ := ih
    cases htable.symm.trans (ask_eq h.fault_free (h.fetchAt_yields hp))
    obtain ⟨hmem, hused⟩ := List.mem_filter.mp he
    obtain ⟨i, hi⟩ := List.getElem?_of_mem hmem
    obtain ⟨-, q, hq, howner⟩ := h.owns.ordered.leads ⟨hp, hi, hused⟩ hs
    exact ⟨q, hkind ▸ howner, hq⟩

end Managed

end Usage

/-! ## Directories as files -/

/-- An entry that leads to the free map file. -/
def Entry.forged : Entry := .ofFile "x" .file Layout.freeMapSector

theorem Entry.name_forged : Entry.forged.name = "x" := NameField.text_ofName (by decide) (by decide)

/-- An entry written over the first one of a table. -/
theorem Directory.splice_encode (e e' : Entry) (rest : List Entry) :
    Bytes.splice (⟨e :: rest⟩ : Directory).encode 0 e'.encode =
      (⟨e' :: rest⟩ : Directory).encode := by
  unfold Bytes.splice Directory.encode
  rw [List.take_zero, List.nil_append, Nat.zero_add, List.flatMap_cons, List.flatMap_cons,
    List.drop_append_of_le_length (by simp), List.drop_of_length_le (by simp), List.nil_append]

theorem FreeMap.isUsed_zero_ofBytes (n : Nat) (bytes : Bytes) :
    (FreeMap.ofBytes n (0 :: bytes)).isUsed 0 = false := by
  unfold isUsed ofBytes
  rw [Marks.contains_ofBits]
  exact Bool.and_false _

/-- The only tree in the slots is in the first one. -/
theorem Slots.children_single (e : Entry) (t : Node) (n : Nat) :
    children (some (e, t) :: List.replicate n none) = [(e, t)] := by
  unfold children
  rw [List.reduceOption_cons_of_some, List.reduceOption_replicate_none]

/-- The forged entry is found by its name. -/
theorem Inventory.locate_forged (f : Stored) (root : Place) (rest : NodeSlots) :
    (⟨f, root, some (.forged, .file f) :: rest⟩ : Inventory).locate "/x" =
      .ok (.file, f.place) := by
  have hroute : Route.ofPath "/x" = .last "x" := by decide
  have hfind : Slots.find? Entry.name (some (Entry.forged, (.file f : Node)) :: rest) "x" =
      some (0, .forged, .file f) := by
    unfold Slots.find?
    rw [List.findIdx?_cons, Slots.isFor, if_pos (by simp [Entry.name_forged])]
    rfl
  unfold locate find
  rw [if_neg (by decide), hroute, Slots.follow, hfind]
  rfl

namespace Volume.Consistent

variable {v : Volume} {k : Disk} {inv : Inventory} {id : Nat} {f : Handle}

/-- **A write to the root** may put an entry into an unused slot that leads to the free map. -/
theorem forge_yields (h : v.Consistent k inv) {rest : NodeSlots} (hslots : inv.slots = none :: rest)
    (hf : v.openFiles.get? id = some f) (hheader : f.header = inv.root.header)
    (hposition : f.position = 0) :
    ∃ k', Yields (v.writeId id Entry.forged.encode) k
        (.ok (Layout.entrySize, v.setOpen id (f.seek Layout.entrySize))) k' ∧ k.SameSize k' ∧
      (v.setOpen id (f.seek Layout.entrySize)).Legible k'
        ⟨inv.mapFile, inv.root, some (.forged, .file inv.mapFile) :: rest⟩ := by
  have hk := h.dataSize_pos
  obtain ⟨⟨slots⟩, htable, hshows, hall⟩ := h.exists_table
  obtain ⟨hmap, hroot, -, hrootOut, hslotsMap, hslotsRoot⟩ := h.nodup_parts
  have hlabels := hshows.labels
  rw [hslots] at hshows hall hlabels hslotsRoot
  cases slots with
  | nil => cases hlabels
  | cons e slots =>
    have hlen := htable.length_encode
    obtain ⟨k', hy, hkeep, hfile⟩ := htable.file.write_yields hk hheader
      (List.nodup_cons.mp hroot).1 Entry.forged.encode f.position
    have htake : Entry.forged.encode.take ((⟨e :: slots⟩ : Directory).encode.length - 0) =
        Entry.forged.encode := List.take_of_length_le (by rw [hlen, Entry.length_encode]; decide)
    have hwrite := Volume.writeId_of_writeAt hf hy
    rw [hposition, htake, Entry.length_encode, Nat.zero_add] at hwrite
    rw [hposition, htake, Directory.splice_encode] at hfile
    have hmapOut : ∀ s ∈ inv.mapFile.place.sectors, s ∉ inv.root.chain := fun s hs hmem =>
      hrootOut s (List.mem_cons_of_mem _ hmem) hs
    have hshows' : (⟨.forged :: slots⟩ : Directory).Shows
        (some (.forged, .file inv.mapFile) :: rest) := by
      refine ⟨congrArg (some Entry.forged :: ·) (List.cons.inj hlabels).2, fun e' t ht => ?_⟩
      rcases List.mem_cons.mp ht with heq | ht
      · cases heq
        refine ⟨rfl, ?_⟩
        show _ = some inv.mapFile.place.sector
        rw [h.map_sector]
        rfl
      · exact hshows.leads e' t (List.mem_cons_of_mem _ ht)
    refine ⟨k', hwrite, hkeep.sameSize, (h.toGrounded.keeps hkeep hmapOut).withOpen _,
      hkeep.sectors ▸ h.sectors_le,
      .directory _ ⟨hfile, htable.length_slots⟩ hshows' fun e' t ht => ?_⟩
    rcases List.mem_cons.mp ht with heq | ht
    · cases heq
      exact .file (h.map_file.keeps hkeep hmapOut)
    · have ht' := List.mem_cons_of_mem none ht
      exact (hall e' t ht').keeps hkeep fun s hs hmem =>
        hslotsRoot s (Slots.mem_sectors.mpr ⟨e', t, ht', hs⟩) (List.mem_cons_of_mem _ hmem)

end Volume.Consistent

namespace Volume.Legible

variable {v : Volume} {k : Disk} {inv : Inventory} {id : Nat} {f : Handle}

/-- **A write to the free map** may take sectors out of use that belong to files. -/
theorem release_yields (h : v.Legible k inv) (hf : v.openFiles.get? id = some f)
    (hheader : f.header = inv.mapFile.place.header) (hposition : f.position = 0)
    (hchain : inv.mapFile.place.sector ∉ inv.mapFile.place.chain) (hpos : 0 < k.sectors) :
    ∃ k' m, Yields (v.writeId id [0]) k (.ok (1, v.setOpen id (f.seek 1))) k' ∧
      Yields (v.setOpen id (f.seek 1)).freeMap k' (.ok m) k' ∧ m.isUsed 0 = false := by
  obtain ⟨k', hy, hkeep, hfile⟩ :=
    h.map_file.write_yields h.dataSize_pos hheader hchain [0] f.position
  have hwrite := Volume.writeId_of_writeAt hf hy
  have hlength := h.map_length
  cases hcontent : inv.mapFile.content with
  | nil =>
    rw [hcontent] at hlength
    unfold Layout.freeMapSize at hlength
    rw [List.length_nil] at hlength
    omega
  | cons b bytes =>
    have htake : ([0] : Bytes).take ((b :: bytes).length - 0) = [0] := by simp
    rw [hposition, hcontent, htake] at hwrite hfile
    rw [hcontent] at hlength
    have hground : v.Grounded k' ⟨inv.mapFile.place, 0 :: bytes⟩ inv.root :=
      ⟨hkeep.sectorSize ▸ h.headerSize_le, hfile, hkeep.sectors ▸ hlength, h.map_sector,
        h.map_header, h.root_sector, h.root_header⟩
    exact ⟨k', _, hwrite, (hground.withOpen _).freeMap_yields,
      FreeMap.isUsed_zero_ofBytes _ bytes⟩

end Volume.Legible

/-! ## Runs -/

namespace Usage

variable {blank : Drive} {u : Usage}

/-- **Writes by users stay in their file.** In every state of a run, a write to any id leaves the
free map as it is, and the tables of all directories that the id is not open on. An id that was
opened on a regular file is open on no directory; a write to it leaves the listing of the whole
volume, and what every path leads to. -/
theorem reached_write (hblank : blank.FaultFree) (hlimit : blank.device.sectors ≤ 0x100000000)
    (h : Reached blank u) (id : Nat) (bytes : Bytes) :
    let u' := (u.call (.writeId id bytes)).2
    (∃ m, u.ask u.volume.freeMap = .ok m ∧ u'.ask u'.volume.freeMap = .ok m) ∧
      (∀ s, u.HasDirectory s → (∀ f, u.volume.openFiles.get? id = some f → s ≠ f.sector) →
        ∃ table, u.ask (Directory.fetchAt s) = .ok table ∧
          u'.ask (Directory.fetchAt s) = .ok table) ∧
      (u.opened id = some .file →
        (∀ s, u.HasDirectory s → ∀ f, u.volume.openFiles.get? id = some f → s ≠ f.sector) ∧
        (∃ lines, u.ask (u.volume.list "/" true) = .ok lines ∧
          u'.ask (u'.volume.list "/" true) = .ok lines) ∧
        ∀ path, u'.ask (u'.volume.findEntry path) = u.ask (u.volume.findEntry path)) := by
  intro u'
  obtain ⟨A, mapFile, root, hu⟩ := h.managed hblank hlimit
  obtain ⟨hd', ⟨t, ht⟩, hkeep, hsupports⟩ := hu.write_keeps id bytes
  have ht' : u'.volume = { u.volume with openFiles := t } := ht
  refine ⟨?_, fun s hs hne => ?_, fun hid => ⟨fun s hs f hf heq => ?_, ?_, fun path => ?_⟩⟩
  · have hmap := ((hu.owns.toGrounded.keeps hkeep fun i hi =>
      hu.not_footprint hu.owns.map_owner hu.map_ne hi).withOpen t).freeMap_yields
    rw [hkeep.sectors, ← ht] at hmap
    exact ⟨_, ask_eq hu.fault_free hu.owns.freeMap_yields, ask_eq hd' hmap⟩
  · obtain ⟨p, hp, rfl⟩ := hu.exists_owner hs
    have htable := (hu.owns.supports.tabled p hp).keeps hkeep fun i hi =>
      hu.not_footprint hp hne hi
    exact ⟨_, ask_eq hu.fault_free (hu.fetchAt_yields hp), ask_eq hd' htable.fetchAt_yields⟩
  · obtain ⟨p, hp, rfl⟩ := hu.exists_owner hs
    cases (hu.opened id f hf _ hp heq).symm.trans hid
  · obtain ⟨lines, hlines⟩ := hu.owns.exists_list
    refine ⟨lines, ask_eq hu.fault_free (hlines u.volume.openFiles _ hu.owns.supports), ?_⟩
    rw [ht']
    exact ask_eq hd' (hlines t _ (hsupports hid))
  · obtain ⟨res, hres⟩ := hu.owns.exists_found path
    rw [ask_eq hu.fault_free (hres u.volume.openFiles _ hu.owns.supports), ht']
    exact ask_eq hd' (hres t _ (hsupports hid))

theorem reached_write_open : ∃ u : Usage, u.opened 0 = some .file ∧
    (∃ lines, u.ask (u.volume.list "/" true) = .ok lines ∧
      (u.call (.writeId 0 [1, 2, 3])).2.ask
        ((u.call (.writeId 0 [1, 2, 3])).2.volume.list "/" true) = .ok lines) := by
  obtain ⟨u, f, hu, -, hid⟩ := Reached.exists_open
  obtain ⟨-, -, hfile⟩ :=
    reached_write (Drive.faultFree_blank 64 128) (by decide) hu 0 [1, 2, 3]
  exact ⟨u, hid, (hfile hid).2.1⟩

/-- **A directory is a file too**, and a write to the root is a write to names. The entry that is
written here leads to the free map file as if it were a regular file: the listing has a new name,
and a write to what this name leads to takes the sectors of the free map out of use. -/
theorem write_root : ∃ v d, Volume.format { device := .blank 64 128 } = .ok v d ∧
    let u₀ : Usage := { drive := d, volume := v }
    let u₁ := (u₀.call (.openId "/")).2
    let u₂ := (u₁.call (.writeId 0 Entry.forged.encode)).2
    let u₃ := (u₂.call (.openId "/x")).2
    let u₄ := (u₃.call (.writeId 1 [0])).2
    (u₀.call (.openId "/")).1 = .ok (.id 0) ∧
      u₁.ask (u₁.volume.list "/" true) = .ok [] ∧
      u₂.ask (u₂.volume.list "/" true) = .ok ["[F] x"] ∧
      (u₂.call (.openId "/x")).1 = .ok (.id 1) ∧ u₃.opened 1 = some .file ∧
      ∃ m m', u₃.ask u₃.volume.freeMap = .ok m ∧ m.isUsed 0 = true ∧
        u₄.ask u₄.volume.freeMap = .ok m' ∧ m'.isUsed 0 = false := by
  have hblank := Drive.faultFree_blank 64 128
  obtain ⟨v, d, hformat⟩ := (Volume.format_ok_iff hblank (by decide)).mpr (by decide)
  obtain ⟨inv, hd, hv, hslots, hopen, hsame⟩ :=
    Volume.exists_inventory_of_format hblank (by decide) hformat
  refine ⟨v, d, hformat, ?_⟩
  dsimp only
  generalize hu₀ : ({ drive := d, volume := v } : Usage) = u₀
  have hd₀ : u₀.drive.FaultFree := hu₀ ▸ hd
  have hv₀ : u₀.volume.Consistent u₀.drive.disk inv := hu₀ ▸ hv
  have hopen₀ : u₀.volume.openFiles = .empty Layout.maxOpen := hu₀ ▸ hopen
  -- the root is opened
  have hlocate₁ : inv.locate "/" = .ok (.directory, inv.root) := if_pos rfl
  have hinsert₁ : u₀.volume.openFiles.insert inv.root.handle =
      .ok (0, (HandleTable.empty Layout.maxOpen).set 0 (some inv.root.handle)) := by
    rw [hopen₀]
    rfl
  obtain ⟨u₁, hcall₁, hd₁, hk₁, hvolume₁, -, -⟩ :=
    call_openId hd₀ hv₀.toLegible hlocate₁ hinsert₁
  have hv₁ := hv₀.opened hlocate₁ hinsert₁
  rw [← hk₁, ← hvolume₁] at hv₁
  have hlist₁ := hv₁.list_yields hv₁.length_nodes_lt true
  rw [hslots] at hlist₁
  -- an entry is written to its table
  have hget₁ : u₁.volume.openFiles.get? 0 = some inv.root.handle := by
    rw [hvolume₁]
    rfl
  have hcons : inv.slots = none :: List.replicate 63 none := hslots
  obtain ⟨k₂, hy₂, hsame₂, hv₂⟩ := hv₁.forge_yields hcons hget₁ rfl rfl
  obtain ⟨u₂, hcall₂, hd₂, rfl, hvolume₂, -⟩ := call_writeId hd₁ hy₂
  rw [← hvolume₂] at hv₂
  have hchildren := Slots.children_single Entry.forged (.file inv.mapFile) 63
  have hdepth : (Slots.nodes (some (Entry.forged, (.file inv.mapFile : Node)) ::
      List.replicate 63 none)).length < Directory.depthLimit := by
    unfold Slots.nodes
    rw [hchildren, List.flatMap_singleton, Tree.nodes_file, List.length_singleton]
    decide
  have hlist₂ := hv₂.list_yields hdepth true
  -- what the entry leads to is opened
  have hlocate₃ := Inventory.locate_forged inv.mapFile inv.root (List.replicate 63 none)
  have hinsert₃ : u₂.volume.openFiles.insert inv.mapFile.place.handle = .ok (1,
      ((HandleTable.empty Layout.maxOpen).set 0 (some (inv.root.handle.seek
        Layout.entrySize))).set 1 (some inv.mapFile.place.handle)) := by
    rw [hvolume₂]
    unfold Volume.setOpen
    rw [hvolume₁]
    rfl
  obtain ⟨u₃, hcall₃, hd₃, hk₃, hvolume₃, hopened₃, -⟩ := call_openId hd₂ hv₂ hlocate₃ hinsert₃
  have hv₃ := hv₂.withOpen (((HandleTable.empty Layout.maxOpen).set 0 (some (inv.root.handle.seek
    Layout.entrySize))).set 1 (some inv.mapFile.place.handle))
  rw [← hk₃, ← hvolume₃] at hv₃
  -- and so the free map is written to
  have hget₃ : u₃.volume.openFiles.get? 1 = some inv.mapFile.place.handle := by
    rw [hvolume₃]
    rfl
  have hmap : 0 ∈ inv.sectors := by
    have hsector : inv.mapFile.place.sector = 0 := hv₀.map_sector
    exact Inventory.mem_of_map (List.mem_cons.mpr (.inl hsector.symm))
  have hpos : 0 < u₃.drive.disk.sectors := by
    rw [hk₃, hsame₂.sectors]
    exact hv₁.lt_sectors hmap
  obtain ⟨k₄, m', hy₄, hmap₄, hfree⟩ := hv₃.release_yields hget₃ rfl rfl
    (hv₀.sector_not_mem_chain (x := .inl inv.mapFile) List.mem_cons_self) hpos
  obtain ⟨u₄, hcall₄, hd₄, rfl, hvolume₄, -⟩ := call_writeId hd₃ hy₄
  rw [← hvolume₄] at hmap₄
  rw [hcall₁]
  dsimp only
  rw [hcall₂]
  dsimp only
  rw [hcall₃]
  dsimp only
  rw [hcall₄]
  refine ⟨rfl, ask_eq hd₁ hlist₁, (ask_eq hd₂ hlist₂).trans ?_, rfl, ?_, _, m',
    ask_eq hd₃ hv₃.freeMap_yields, ?_, ask_eq hd₄ hmap₄, hfree⟩
  · rw [if_pos rfl]
    unfold Slots.lines
    rw [hchildren, List.flatMap_singleton, Directory.treeLine, Entry.name_forged]
    show Except.ok [String.join [] ++ Kind.file.tag ++ " " ++ "x"] = _
    decide
  · rw [hopened₃]
    exact Function.update_self _ _ _
  · rw [hk₃, hsame₂.sectors]
    exact (hv₁.used 0).mpr hmap

end Usage

end SectorChain
