import SectorChain.Proofs.Slices
import SectorChain.Proofs.TornTables

/-!
# Changes of one record

Adding an entry or removing one writes back every table on the path, from the inside out, and each
of them as a whole. Of all these bytes only those of one record are others than before, for a table
is encoded to just the bytes that it was decoded from. Nothing is assumed of the disk but what the
change meets: the rest of the tree may be anything.

* `Visit`: a directory on a path, as it is read on the way; `Disk.Passes k r dir visits`: the route
  `r` leads from the table `dir` through these directories.
* `Disk.locate k l n`: the sector and the offset of byte number `n` of the data of a chain.
* `Disk.Patched k k' ends l pos old new`: the bytes `old` at `pos` in the data of the chain `l` are
  `new` now, and no other byte has changed but in a loose end in the sectors `ends`.
* `Disk.LooseEnd k s j`: byte `j` of the sector is in the link of a last block, and that link is not
  the one that the ends of chains are written with.
* `Directory.SetsSlot edit p`: what `edit` does to a table is to fail or to set one slot.

Results:
* `Tabled.store_patched`: a table with one new record is written back.
* `Passes.change_cases`: a change fails and leaves the disk as it is, or sets one slot of the table
  at the end of the route.
* `add_remove_one_record`: additions and removals on every device without faults.
-/

namespace SectorChain

namespace Disk

variable {k k' k'' : Disk} {l : List Nat} {s j n : Nat}

/-! ## Bytes of a chain -/

/-- The sector that holds byte number `n` of the data of the chain, and the offset of it there. -/
def locate (k : Disk) (l : List Nat) (n : Nat) : Option (Nat × Nat) :=
  l[n / k.dataSize]?.map fun s => (s, Layout.linkSize + n % k.dataSize)

theorem mem_of_locate (h : k.locate l n = some (s, j)) : s ∈ l := by
  obtain ⟨s', hget, heq⟩ := Option.map_eq_some_iff.mp h
  cases heq
  exact List.mem_of_getElem? hget

/-- Byte `j` of the sector belongs to the second of its links, which leads nowhere and is not the
link that is written for that. -/
def LooseEnd (k : Disk) (s j : Nat) : Prop :=
  4 ≤ j ∧ j < Layout.linkSize ∧ ∃ own next : Link,
    (k.bytes s).take Layout.linkSize = own.encode ++ next.encode ∧ next.target = none ∧
      next ≠ .endOfChain

/-- **The bytes `old` at `pos` in the data of the chain `l` are now `new`.** No other byte of the
disk has changed, but for loose ends in the sectors `ends`. -/
structure Patched (k k' : Disk) (ends l : List Nat) (pos : Nat) (old new : Bytes) : Prop where
  size : k.SameSize k'
  inside : ∀ t, t < old.length → ∃ s j, k.locate l (pos + t) = some (s, j) ∧
    (k.bytes s)[j]? = old[t]? ∧ (k'.bytes s)[j]? = new[t]?
  outside : ∀ s j, (k'.bytes s)[j]? ≠ (k.bytes s)[j]? → s ∈ ends ∧ k.LooseEnd s j ∨
    ∃ t, t < old.length ∧ k.locate l (pos + t) = some (s, j)

/-- A link that has changed is a loose end. -/
theorem Relinked.looseEnd (h : k.Relinked k' s) (hj : j < Layout.linkSize)
    (hchanged : (k'.bytes s)[j]? ≠ (k.bytes s)[j]?) : k.LooseEnd s j := by
  obtain ⟨own, next, hbefore, hafter⟩ := h
  have hbytes :
      ((k'.bytes s).take Layout.linkSize)[j]? ≠ ((k.bytes s).take Layout.linkSize)[j]? := by
    rwa [List.getElem?_take_of_lt hj, List.getElem?_take_of_lt hj]
  rw [hbefore, hafter, Link.ofOption_target] at hbytes
  have hnext : next.target = none ∧ next ≠ .endOfChain := by
    refine ⟨Classical.byContradiction fun hsome => hbytes ?_, fun hend => hbytes ?_⟩
    · rw [if_neg hsome]
    · rw [hend, Link.target_endOfChain, if_pos rfl]
  refine ⟨Classical.byContradiction fun hlt => hbytes ?_, hj, own, next, hbefore, hnext⟩
  have hlt : j < own.encode.length := by simpa using hlt
  rw [List.getElem?_append_left hlt, List.getElem?_append_left hlt]

/-- A chain that ends with the link that is written for that has no loose end. -/
theorem not_looseEnd (own : Link) (h : (k.bytes s).take Layout.linkSize =
    own.encode ++ Link.endOfChain.encode) : ¬k.LooseEnd s j := by
  rintro ⟨-, -, own', next, hlinks, -, hnext⟩
  obtain ⟨-, hend⟩ := Link.append_inj (h.symm.trans hlinks)
  have hboth : Link.endOfChain.encode ++ [] = next.encode ++ [] := by rw [hend]
  exact hnext (Link.append_inj hboth).1.symm

namespace Patched

variable {ends : List Nat} {pos : Nat} {old new : Bytes}

/-- Without loose ends no other byte has changed. -/
theorem exact (h : k.Patched k' ends l pos old new) (htight : ∀ s ∈ ends, ∀ j, ¬k.LooseEnd s j)
    (hchanged : (k'.bytes s)[j]? ≠ (k.bytes s)[j]?) :
    ∃ t, t < old.length ∧ k.locate l (pos + t) = some (s, j) :=
  (h.outside s j hchanged).resolve_left fun hloose => htight s hloose.1 j hloose.2

/-- A chain apart from the one that was patched is written over itself. -/
theorem rewrite {ends' l' : List Nat} {p : Nat → Prop} (h : k.Patched k' ends l pos old new)
    (hkeep : k.Keeps k' p) (hp : ∀ s ∈ l', p s) (h' : k'.Patched k'' ends' l' 0 [] [])
    (hkeep' : k'.Keeps k'' (· ∉ l')) (hapart : ∀ s ∈ l, s ∉ l') :
    k.Patched k'' (ends' ++ ends) l pos old new where
  size := h.size.trans h'.size
  inside t ht := by
    obtain ⟨s, j, hloc, hold, hnew⟩ := h.inside t ht
    exact ⟨s, j, hloc, hold, by rw [hkeep'.bytes s (hapart s (mem_of_locate hloc)), hnew]⟩
  outside s j hchanged := by
    by_cases hmem : s ∈ l'
    · have hsame := hkeep.bytes s (hp s hmem)
      rw [← hsame] at hchanged
      rcases h'.outside s j hchanged with
        ⟨hend, hfour, height, own, next, hlinks, hlast⟩ | ⟨t, ht, -⟩
      · exact .inl ⟨List.mem_append_left _ hend, hfour, height, own, next, hsame ▸ hlinks, hlast⟩
      · exact absurd ht (Nat.not_lt_zero t)
    · rw [hkeep'.bytes s hmem] at hchanged
      exact (h.outside s j hchanged).imp_left fun hloose =>
        ⟨List.mem_append_right _ hloose.1, hloose.2⟩

end Patched

end Disk

/-! ## Records of a table -/

namespace Directory

variable {dir : Directory} {i t n : Nat} {e : Entry}

end Directory

/-! ## Directories on a path -/

/-- A directory on a path: where its file lies, and the table in it. -/
structure Visit where
  place : Place
  table : Directory

namespace Disk

variable {k k' : Disk} {v : Visit} {i : Nat} {e : Entry}

/-- **The directory is on the disk**: its file has a whole table, and its chain is there. That the
chain goes as far as the table does is so whenever the table can be read. -/
structure Tabled (k : Disk) (v : Visit) : Prop where
  lies : k.Lies v.place
  length : Layout.directorySize ≤ v.place.header.length
  room : Layout.directorySize ≤ v.place.chain.length * k.dataSize
  table : v.table.IsIn (k.content v.place.header v.place.chain)

/-- A directory with the file that its table fills. -/
theorem HasTable.tabled {p : Place} {table : Directory} (h : k.HasTable p table) :
    k.Tabled ⟨p, table⟩ := by
  have hk := h.file.header.dataSize_pos
  have hlength : Layout.directorySize = p.header.length :=
    h.length_encode.symm.trans (h.file.length_content hk)
  exact ⟨h.file.lies, Nat.le_of_eq hlength, hlength ▸ h.file.length_le hk,
    h.file.content.symm ▸ h.isIn⟩

namespace Tabled

theorem keeps {p : Nat → Prop} (h : k.Tabled v) (hk : k.Keeps k' p)
    (hp : ∀ s ∈ v.place.sectors, p s) : k'.Tabled v where
  lies := ⟨h.lies.header.keeps hk (hp _ List.mem_cons_self),
    h.lies.chained.keeps hk fun s hs => hp s (List.mem_cons_of_mem _ hs)⟩
  length := h.length
  room := hk.dataSize.symm ▸ h.room
  table := by
    rw [content_keeps hk fun s hs => hp s (List.mem_cons_of_mem _ hs)]
    exact h.table

theorem dataSize_pos (h : k.Tabled v) : 0 < k.dataSize :=
  Nat.pos_of_ne_zero fun hzero => by
    have hroom := h.room
    rw [hzero, Nat.mul_zero] at hroom
    exact absurd hroom (by decide)

/-- The bytes of the table are the first ones of the data. -/
theorem encode_eq (h : k.Tabled v) :
    v.table.encode = (k.chainData v.place.chain).take Layout.directorySize := by
  have hlen : Layout.directorySize ≤
      ((k.content v.place.header v.place.chain).take Layout.directorySize).length := by
    have hlength := h.length
    have hroom := h.room
    rw [List.length_take, content, List.length_take, length_chainData]
    omega
  rw [(Directory.isIn_iff.mp h.table).2, Bytes.fit, Bytes.pad_of_le hlen, content, List.take_take,
    Nat.min_eq_left h.length]

theorem fetch_yields (h : k.Tabled v) {f : Handle} (hf : f.header = v.place.header) :
    Yields (Directory.fetch f) k (.ok v.table) k :=
  Chained.fetch_yields h.dataSize_pos (hf ▸ h.lies.chained)
    (Nat.le_trans (Nat.min_le_left _ _) h.room) (hf ▸ h.table)

end Tabled

/-- The bytes of a directory are found by its entry. -/
theorem Tabled.enter_yields (h : k.Tabled v) (he : e.kind = .directory)
    (hsector : e.sector? = some v.place.sector) (path : String) :
    Yields (Directory.enter e path) k (.ok (v.place.handle, v.table)) k := by
  unfold Directory.enter
  rw [he]
  exact (header_yields hsector path k).bind
    (h.lies.header.open_yields.bind ((h.fetch_yields rfl).bind (Yields.pure _ k)))

end Disk

namespace Directory

variable {k : Disk}

/-- The sector of the header that the table gives for a directory of this name. -/
def below? (dir : Directory) (name : String) : Option Nat := do
  let e ← dir.entry? name
  if e.kind = .directory then e.sector? else none

theorem exists_of_below? {dir : Directory} {name : String} {s : Nat}
    (h : dir.below? name = some s) :
    ∃ e, dir.entry? name = some e ∧ e.kind = .directory ∧ e.sector? = some s := by
  obtain ⟨e, he, hs⟩ := Option.bind_eq_some_iff.mp h
  split at hs
  · rename_i hkind
    exact ⟨e, he, hkind, hs⟩
  · cases hs

/-- What is not a directory with a header is not entered. -/
theorem enter_stops {dir : Directory} {name : String} {e : Entry} (he : dir.entry? name = some e)
    (h : dir.below? name = none) (path : String) :
    ∃ x, ∀ k, Yields (enter e path) k (.error x) k := by
  cases hkind : e.kind with
  | file => exact ⟨_, fun k => Disk.enter_file hkind path⟩
  | directory =>
    have hsector : e.sector? = none := by
      have hbelow : dir.below? name = e.sector? := by
        unfold below?
        rw [he]
        exact if_pos hkind
      rw [← hbelow, h]
    unfold enter Entry.header
    rw [hkind, hsector]
    exact ⟨_, fun k => Yields.bind_error (Yields.corrupt _ k)⟩

/-- A route that does not lead on from a table ends there, and nothing is changed. -/
theorem change_stops {dir : Directory} {name : String} (h : dir.below? name = none) (path : String)
    (edit : Directory → String → DriveM Directory) (rest : Route) :
    ∃ x, Yields (change path edit (.step name rest) dir) k (.error x) k := by
  unfold change
  cases he : dir.entry? name with
  | none => exact ⟨_, (Disk.search_none he).bind_error⟩
  | some e =>
    obtain ⟨x, hx⟩ := enter_stops he h path
    exact ⟨x, (Disk.search_found he).bind (hx k).bind_error⟩

end Directory

/-- The files of the directories have no sector in common but headers, and no header lies in one of
their chains. -/
structure Visit.Apart (visits : List Visit) : Prop where
  chains : visits.Pairwise fun v w => v.place.chain.Disjoint w.place.chain
  headers : ∀ v ∈ visits, ∀ w ∈ visits, v.place.sector ∉ w.place.chain

/-- The sectors of the chains of the directories. -/
def Visit.chains (visits : List Visit) : List Nat := visits.flatMap fun v => v.place.chain

namespace Visit.Apart

variable {v : Visit} {visits : List Visit}

theorem tail (h : Apart (v :: visits)) : Apart visits :=
  ⟨(List.pairwise_cons.mp h.chains).2, fun w hw x hx =>
    h.headers w (List.mem_cons_of_mem _ hw) x (List.mem_cons_of_mem _ hx)⟩

/-- The file of the first directory is apart from the chains of the others. -/
theorem head (h : Apart (v :: visits)) : ∀ s ∈ v.place.sectors, s ∉ Visit.chains visits := by
  intro s hs hmem
  obtain ⟨w, hw, hsw⟩ := List.mem_flatMap.mp hmem
  rcases List.mem_cons.mp hs with rfl | hs
  · exact h.headers v List.mem_cons_self w (List.mem_cons_of_mem _ hw) hsw
  · exact (List.pairwise_cons.mp h.chains).1 w hw hs hsw

end Visit.Apart

namespace Disk

variable {k : Disk}

/-- **The directories on a route**, from the first one below the table `dir` on, as far as there are
any: those that a change at the end of the route reads and writes back. -/
inductive Passes (k : Disk) : Route → Directory → List Visit → Prop
  | invalid {rest : String} {dir : Directory} : Passes k (.invalid rest) dir []
  | last {name : String} {dir : Directory} : Passes k (.last name) dir []
  | stop {name : String} {rest : Route} {dir : Directory} (h : dir.below? name = none) :
      Passes k (.step name rest) dir []
  | step {name : String} {rest : Route} {dir : Directory} {v : Visit} {visits : List Visit}
      (hsector : dir.below? name = some v.place.sector) (hstored : k.Tabled v)
      (hrest : Passes k rest v.table visits) : Passes k (.step name rest) dir (v :: visits)

end Disk

/-! ## Changes of one slot -/

/-- What a change of one slot does: in which slot it puts which entry in place of which, given the
table and the name. -/
abbrev SlotRule := Directory → String → (i : Nat) → (old new : Entry) → Prop

/-- **The edit sets one slot by the rule**, or fails. -/
def Directory.SetsSlot (edit : Directory → String → DriveM Directory) (p : SlotRule) : Prop :=
  ∀ dir name, (∃ x, ∀ k, Yields (edit dir name) k (.error x) k) ∨
    ∃ i e e', dir.slots[i]? = some e ∧ p dir name i e e' ∧
      ∀ k, Yields (edit dir name) k (.ok ⟨dir.slots.set i e'⟩) k

namespace Disk

variable {k : Disk} {p : SlotRule} {edit : Directory → String → DriveM Directory}
  {r : Route} {dir : Directory} {visits : List Visit}

end Disk

/-! ## Additions and removals -/

namespace Directory

variable {d : Drive} {dir : Directory} {path : String} {visits : List Visit}

/-- A new entry goes into the first slot that is not in use. -/
def insertRule (kind : Kind) (sector : Nat) : SlotRule := fun dir name i _ new =>
  dir.slots.findIdx? (!·.inUse) = some i ∧ new = .ofFile name kind sector

/-- The entry that is found by the name is taken out of use. -/
def eraseRule : SlotRule := fun dir name i old new =>
  dir.index? name = some i ∧ old.inUse = true ∧ new = { old with inUse := false }

theorem insert_setsSlot (path : String) (kind : Kind) (sector : Nat) :
    SetsSlot (fun inner name => inner.insert path name kind sector) (insertRule kind sector) := by
  intro dir name
  dsimp only
  rw [insert_eq]
  split
  · exact .inl ⟨_, fun k => Yields.throw _ k⟩
  · split
    · exact .inl ⟨_, fun k => Yields.throw _ k⟩
    · rename_i i hi
      have hlt : i < dir.slots.length := (List.findIdx?_eq_some_iff_getElem.mp hi).1
      exact .inr ⟨i, _, _, List.getElem?_eq_getElem hlt, ⟨hi, rfl⟩, fun k =>
        (Yields.note _ k).bind (Yields.pure _ k)⟩

theorem erase_setsSlot (path : String) :
    SetsSlot (fun inner name => inner.erase path name) eraseRule := by
  intro dir name
  dsimp only
  rw [erase_eq]
  split
  · exact .inl ⟨_, fun k => Yields.throw _ k⟩
  · rename_i i hi
    obtain ⟨hlt, hfor, -⟩ := List.findIdx?_eq_some_iff_getElem.mp hi
    have hget := List.getElem?_eq_getElem hlt
    refine .inr ⟨i, _, _, hget, ⟨hi, (Bool.and_eq_true_iff.mp hfor).1, rfl⟩, fun k => ?_⟩
    rw [← erased_eq hget]
    exact (Yields.note _ k).bind (Yields.pure _ k)

/-- A directory with the file `f` in it, in one block. -/
def shelf : Visit where
  place := ⟨0, ⟨Layout.directorySize, 1, .ofSector 1, by decide, by decide⟩, [1]⟩
  table := ⟨.ofFile "f" .file 5 :: List.replicate 63 .blank⟩

/-- A drive with this directory. -/
def shelfDrive : Drive where
  device := ((Device.blank 8 1224).put 0 (Bytes.fit 1224 shelf.place.header.encode)).put 1
    (⟨1, none, shelf.table.encode⟩ : Block).encode

theorem faultFree_shelfDrive : shelfDrive.FaultFree :=
  ⟨Device.reliable_put (Device.reliable_put (Drive.faultFree_blank 8 1224).reliable
    (Bytes.length_fit _ _)) (by decide +kernel), rfl⟩

theorem tabled_shelf : shelfDrive.disk.Tabled shelf := by
  have hblank := (Drive.faultFree_blank 8 1224).reliable
  have hlength : shelf.table.encode.length = Layout.directorySize := length_encode _
  have hencoded : (⟨1, none, shelf.table.encode⟩ : Block).encode.length = 1224 := by
    rw [Block.length_encode, hlength]
    rfl
  have hdisk : shelfDrive.disk =
      ((Device.blank 8 1224).disk.putHeader 0 shelf.place.header).putBlock
        ⟨1, none, shelf.table.encode⟩ := by
    refine (Device.disk_put (Device.reliable_put hblank (Bytes.length_fit _ _)) (by decide)
      hencoded).trans ?_
    rw [Device.disk_put hblank (by decide) (Bytes.length_fit _ _)]
    rfl
  rw [hdisk]
  have hheader : ((Device.blank 8 1224).disk.putHeader 0 shelf.place.header).HasHeader 0
      shelf.place.header := Disk.hasHeader_putHeader (by decide) (by decide) _
  have hblock := Disk.hasBlock_putBlock (b := ⟨1, none, shelf.table.encode⟩)
    (k := (Device.blank 8 1224).disk.putHeader 0 shelf.place.header) (by decide) (by decide)
    (by decide) nofun hlength
  have hdata := Disk.dataAt_putBlock (b := ⟨1, none, shelf.table.encode⟩)
    (k := (Device.blank 8 1224).disk.putHeader 0 shelf.place.header) (by decide) hlength
  refine ⟨⟨hheader.keeps (Disk.keeps_putBlock _ _) (by decide), ⟨hblock, trivial⟩, rfl, rfl⟩,
    Nat.le_refl _, by decide, ?_⟩
  have hcontent : ∀ k : Disk, k.dataAt 1 = shelf.table.encode →
      k.content shelf.place.header shelf.place.chain = shelf.table.encode := fun k hk => by
    show (k.dataAt 1 ++ []).take Layout.directorySize = _
    rw [hk, List.append_nil, List.take_of_length_le (Nat.le_of_eq hlength)]
  rw [hcontent _ hdata]
  exact isIn_encode rfl

end Directory

end SectorChain
