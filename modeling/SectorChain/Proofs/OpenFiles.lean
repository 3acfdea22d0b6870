import SectorChain.Proofs.Removing
import Mathlib.Data.List.Pairwise

/-!
# Files open by id

An id stands for a handle whose file is in the inventory. Opening, closing and seeking change the
table of open files only; a read answers a slice of the content, and a write replaces a slice of
the content of that one file.

Results:
* `openPath_yields`, `stat_yields`: a path leads to the place that the inventory has for it.
* `openId_yields`, `closeId_yields`, `seekId_yields`: the table of open files.
* `readId_yields`, `writeId_yields`: reads and writes at the position of an id.
-/

namespace SectorChain

/-! ## The table -/

namespace HandleTable

variable {t t' : HandleTable} {l : List (Stored ⊕ Place)}

theorem get?_set (t : HandleTable) (id j : Nat) (slot : Option Handle) :
    (t.set id slot).get? j = if id = j ∧ id < t.slots.length then slot else t.get? j := by
  unfold get? set
  rw [List.getElem?_set]
  by_cases hid : id = j
  · subst hid
    by_cases hlt : id < t.slots.length
    · simp [hlt]
    · simp [hlt]
  · simp [hid]

theorem lt_length_of_get? {id : Nat} {f : Handle} (h : t.get? id = some f) :
    id < t.slots.length := by
  have := Option.join_eq_some_iff.mp h
  exact (List.getElem?_eq_some_iff.mp this).1

theorem insert_eq_ok {f : Handle} {id : Nat} (h : t.insert f = .ok (id, t')) :
    t' = t.set id (some f) ∧ id < t.slots.length ∧ t.get? id = none := by
  unfold insert leastFree? at h
  split at h
  · rename_i i hi
    cases h
    obtain ⟨hlt, hnone, -⟩ := List.findIdx?_eq_some_iff_getElem.mp hi
    refine ⟨rfl, hlt, ?_⟩
    unfold get?
    rw [List.getElem?_eq_getElem hlt, Option.isNone_iff_eq_none.mp hnone]
    rfl
  · cases h

theorem get?_set_eq_some {id j : Nat} {slot : Option Handle} {f : Handle}
    (h : (t.set id slot).get? j = some f) : id = j ∧ slot = some f ∨ t.get? j = some f := by
  rw [get?_set] at h
  split at h
  · rename_i hid
    exact .inl ⟨hid.1, h⟩
  · exact .inr h

theorem OpenIn.set (h : t.OpenIn l) (id : Nat) {slot : Option Handle}
    (hslot : ∀ f, slot = some f →
      ∃ x ∈ l, (placeOf x).sector = f.sector ∧ (placeOf x).header = f.header) :
    (t.set id slot).OpenIn l := by
  intro j f hj
  rcases get?_set_eq_some hj with ⟨-, hj⟩ | hj
  · exact hslot f hj
  · exact h j f hj

theorem fetch_yields {id : Nat} {f : Handle} (h : t.get? id = some f) (k : Disk) :
    Yields (t.fetch id) k (.ok f) k := by
  unfold fetch
  rw [h]
  exact Yields.pure f k

theorem fetch_fails {id : Nat} (h : t.get? id = none) (k : Disk) :
    Yields (t.fetch id) k (.error (.notOpen id)) k := by
  unfold fetch
  rw [h]
  exact (Yields.note _ k).bind (Yields.throw _ k)

theorem close_yields {id : Nat} {f : Handle} (h : t.get? id = some f) (k : Disk) :
    Yields (t.close id) k (.ok (t.set id none)) k := by
  rw [close_eq, h]
  exact Yields.pure _ k

theorem close_fails {id : Nat} (h : t.get? id = none) (k : Disk) :
    Yields (t.close id) k (.error (.notOpen id)) k := by
  rw [close_eq, h]
  exact (Yields.note _ k).bind (Yields.throw _ k)

end HandleTable

/-! ## One file of many -/

/-- A file or directory is known by any of its sectors. -/
theorem eq_of_mem_sectors {l : List (Stored ⊕ Place)} (h : (sectorsOf l).Nodup)
    {x y : Stored ⊕ Place} (hx : x ∈ l) (hy : y ∈ l) {s : Nat} (hsx : s ∈ (placeOf x).sectors)
    (hsy : s ∈ (placeOf y).sectors) : x = y := by
  have hsymm : Std.Symm (Function.onFun List.Disjoint fun x => (placeOf x).sectors) :=
    ⟨fun _ _ hdisjoint _ h₁ h₂ => hdisjoint h₂ h₁⟩
  by_contra hne
  exact (List.nodup_flatMap.mp h).2.forall hx hy hne hsx hsy

theorem place_replace {g : Stored → Stored} (hg : ∀ f, (g f).place = f.place)
    (x : Stored ⊕ Place) : placeOf (x.map g id) = placeOf x := by
  cases x with
  | inl f => exact hg f
  | inr p => rfl

theorem kindOf_replace (g : Stored → Stored) (x : Stored ⊕ Place) :
    kindOf (x.map g id) = kindOf x := by
  cases x <;> rfl

namespace Inventory

/-- What a path leads to: the kind and the place of it. -/
def locate (inv : Inventory) (path : String) : Except VolumeError (Kind × Place) :=
  if path = "/" then .ok (.directory, inv.root)
  else (inv.find path).map fun p => (p.2.kind, p.2.place)

/-- The inventory with its files as `g` says. -/
def replace (inv : Inventory) (g : Stored → Stored) : Inventory :=
  { inv with slots := Slots.map g id id inv.slots }

variable {inv : Inventory} {g : Stored → Stored}

theorem tree_replace (inv : Inventory) (g : Stored → Stored) :
    (inv.replace g).tree = inv.tree.replace g := by
  unfold tree replace Tree.replace
  rw [Tree.map_directory]
  rfl

theorem nodes_replace (inv : Inventory) (g : Stored → Stored) :
    (inv.replace g).tree.nodes = inv.tree.nodes.map (Sum.map g id) := by
  rw [tree_replace]
  exact Tree.nodes_map g id id inv.tree

theorem sectorsOf_replace (hg : ∀ f, (g f).place = f.place) (l : List (Stored ⊕ Place)) :
    sectorsOf (l.map (Sum.map g id)) = sectorsOf l := by
  unfold sectorsOf
  rw [List.flatMap_map]
  simp only [place_replace hg]

theorem sectors_replace (hg : ∀ f, (g f).place = f.place) (inv : Inventory) :
    (inv.replace g).sectors = inv.sectors := by
  have htree := sectorsOf_replace hg inv.tree.nodes
  rw [← nodes_replace] at htree
  exact congrArg (inv.mapFile.place.sectors ++ ·) htree

/-- The place that a path leads to is that of a file or directory of its kind. -/
theorem locate_mem {path : String} {kind : Kind} {p : Place}
    (h : inv.locate path = .ok (kind, p)) :
    ∃ x ∈ inv.tree.nodes, placeOf x = p ∧ kindOf x = kind := by
  unfold locate at h
  split at h
  · cases h
    refine ⟨.inr inv.root, ?_, rfl, rfl⟩
    unfold tree
    rw [Tree.nodes_directory]
    exact List.mem_cons_self
  · cases hfind : inv.find path with
    | error e =>
      rw [hfind] at h
      cases h
    | ok q =>
      obtain ⟨e, t⟩ := q
      rw [hfind] at h
      cases h
      have hsub := find_nodes hfind
      cases t with
      | file f => exact ⟨.inl f, hsub List.mem_cons_self, rfl, rfl⟩
      | directory p slots =>
        refine ⟨.inr p, hsub ?_, rfl, rfl⟩
        rw [Tree.nodes_directory]
        exact List.mem_cons_self

end Inventory

namespace Volume

variable {v : Volume} {k : Disk} {inv : Inventory} {path : String} {id : Nat} {f : Handle}

/-- All bytes of the file at a path. -/
def contentAt (v : Volume) (path : String) : DriveM Bytes := do
  let f ← v.openPath path
  f.readAt f.length 0

/-! ## Paths -/

namespace Legible

/-- Every file and directory is on the disk. -/
theorem hasFile (h : v.Legible k inv) {x : Stored ⊕ Place} (hx : x ∈ inv.nodes) :
    ∃ content, k.HasFile (placeOf x) content := by
  rcases List.mem_cons.mp hx with rfl | hx
  · exact ⟨_, h.map_file⟩
  · exact (h.held.nodes x hx).1

/-- Which files are open by id does not matter to what can be read. -/
theorem withOpen (h : v.Legible k inv) (t : HandleTable) :
    { v with openFiles := t }.Legible k inv := ⟨h.toGrounded.withOpen t, h.sectors_le, h.held⟩

/-- **A path is opened** at the place that the inventory has for it. -/
theorem openPath_yields (h : v.Legible k inv) (path : String) :
    Yields (v.openPath path) k ((inv.locate path).map fun q => q.2.handle) k := by
  obtain ⟨table, htable, hshows, hall⟩ := h.exists_table
  have hfind := Disk.find_yields h.dataSize_pos hshows hall path
  have hopen : ∀ {kind p}, inv.locate path = .ok (kind, p) →
      Yields (Handle.fetch p.sector) k (.ok p.handle) k := fun hp => by
    obtain ⟨x, hx, rfl, -⟩ := Inventory.locate_mem hp
    obtain ⟨content, hfile⟩ := h.hasFile (List.mem_cons_of_mem _ hx)
    exact hfile.open_yields
  refine (h.root_yields htable).bind ?_
  unfold Inventory.locate Inventory.find at *
  split
  · rename_i hroot
    rw [if_pos hroot] at hfind
    have := hopen (if_pos hroot)
    rw [h.root_sector] at this
    exact hfind.bind this
  · rename_i hroot
    rw [if_neg hroot] at hfind
    cases hfollow : Slots.follow Entry.name path (.ofPath path) inv.slots with
    | error e =>
      rw [hfollow] at hfind
      exact hfind.bind_error
    | ok q =>
      rw [hfollow] at hfind
      exact hfind.bind (@hopen q.2.kind _ (by rw [if_neg hroot, hfollow]; rfl))

/-- The bytes of a file are those in the inventory. -/
theorem contentAt_yields (h : v.Legible k inv) (hroot : path ≠ "/") {e : Entry} {s : Stored}
    (hfind : inv.find path = .ok (e, .file s)) :
    Yields (v.contentAt path) k (.ok s.content) k := by
  have hopen := h.openPath_yields path
  unfold Inventory.locate at hopen
  rw [if_neg hroot, hfind] at hopen
  have hfile : k.HasFile s.place s.content := by
    cases (h.found hfind).1 with
    | file hfile => exact hfile
  have hread := hfile.read_yields h.dataSize_pos (f := s.place.handle) rfl s.place.header.length 0
  rw [List.drop_zero,
    List.take_of_length_le (Nat.le_of_eq (hfile.length_content h.dataSize_pos))] at hread
  exact hopen.bind hread

/-- **What is known of a path** is the place that the inventory has for it. -/
theorem stat_yields (h : v.Legible k inv) (path : String) :
    Yields (v.stat path) k ((inv.locate path).map fun q =>
      ⟨q.2.sector, q.1, q.2.header.length, q.2.chain⟩) k := by
  obtain ⟨table, htable, hshows, hall⟩ := h.exists_table
  have hentry := h.findEntry_table hshows hall path
  have hread : ∀ {kind p}, inv.locate path = .ok (kind, p) → Yields (do
      let header ← Header.fetch p.sector
      return { sector := p.sector, kind, length := header.length, chain := ← header.chain }) k
      (.ok (⟨p.sector, kind, p.header.length, p.chain⟩ : FileStat)) k := fun hp => by
    obtain ⟨x, hx, rfl, -⟩ := Inventory.locate_mem hp
    obtain ⟨content, hfile⟩ := h.hasFile (List.mem_cons_of_mem _ hx)
    exact hfile.header.fetch_yields.bind (hfile.chained.chain_yields.bind (Yields.pure _ k))
  unfold stat
  refine (h.root_yields htable).bind ?_
  by_cases hroot : path = "/"
  · have hlocate : inv.locate path = .ok (.directory, inv.root) := if_pos hroot
    have hstat := hread hlocate
    rw [if_pos hroot, hlocate]
    show Yields _ k
      (.ok (⟨inv.root.sector, .directory, inv.root.header.length, inv.root.chain⟩ : FileStat)) k
    rw [h.root_sector] at hstat ⊢
    exact (Yields.pure _ k).bind hstat
  · have hlocate : inv.locate path = (inv.find path).map fun p => (p.2.kind, p.2.place) :=
      if_neg hroot
    rw [if_neg hroot, hlocate]
    cases hfind : inv.find path with
    | error e =>
      rw [hfind] at hentry
      exact hentry.bind_error
    | ok q =>
      obtain ⟨e, t⟩ := q
      obtain ⟨-, hkind, hsector, -⟩ := h.found hfind
      have hstat := @hread t.kind t.place (by rw [hlocate, hfind]; rfl)
      rw [hfind] at hentry
      rw [← hkind] at hstat
      refine hentry.bind ((Disk.header_yields hsector path k).bind ((Yields.pure _ k).bind ?_))
      show Yields _ k (.ok (⟨t.place.sector, t.kind, t.place.header.length, t.place.chain⟩ :
        FileStat)) k
      rw [← hkind]
      exact hstat

/-- A path is opened under the first free id. -/
theorem openId_yields (h : v.Legible k inv) (path : String) :
    Yields (v.openId path) k ((inv.locate path).bind fun q =>
      (v.openFiles.insert q.2.handle).map fun r => (r.1, { v with openFiles := r.2 })) k := by
  have hopen := h.openPath_yields path
  rw [openId_eq]
  cases hlocate : inv.locate path with
  | error e =>
    rw [hlocate] at hopen
    exact hopen.bind_error
  | ok q =>
    rw [hlocate] at hopen
    refine hopen.bind ?_
    show Yields _ k ((v.openFiles.insert q.2.handle).map _) k
    cases hinsert : v.openFiles.insert q.2.handle with
    | error e => exact (Yields.throw e k).bind_error
    | ok r => exact (Yields.pure r k).bind ((Yields.note _ k).bind (Yields.pure _ k))

end Legible

/-! ## Ids -/

namespace Consistent

/-- A file or directory in the tree is known by the sector of its header. -/
theorem eq_of_sector (h : v.Consistent k inv) {x y : Stored ⊕ Place} (hx : x ∈ inv.tree.nodes)
    (hy : y ∈ inv.tree.nodes) (hxy : (placeOf x).sector = (placeOf y).sector) : x = y :=
  eq_of_mem_sectors h.nodup (List.mem_cons_of_mem _ hx) (List.mem_cons_of_mem _ hy)
    List.mem_cons_self (hxy ▸ List.mem_cons_self)

/-- The free map file is not in the tree. -/
theorem mapFile_not_mem (h : v.Consistent k inv) : .inl inv.mapFile ∉ inv.tree.nodes := fun hmem =>
  (List.nodup_append.mp h.nodup).2.2 _ List.mem_cons_self _
    (mem_sectorsOf.mpr ⟨_, hmem, List.mem_cons_self⟩) rfl

/-- The chain of a file or directory has no sector of another. -/
theorem chain_apart (h : v.Consistent k inv) {x y : Stored ⊕ Place} (hx : x ∈ inv.nodes)
    (hy : y ∈ inv.nodes) (hne : y ≠ x) : ∀ i ∈ (placeOf y).sectors, i ∉ (placeOf x).chain :=
  fun _ hi hmem => hne (eq_of_mem_sectors h.nodup hy hx hi (List.mem_cons_of_mem _ hmem))

theorem sector_not_mem_chain (h : v.Consistent k inv) {x : Stored ⊕ Place} (hx : x ∈ inv.nodes) :
    (placeOf x).sector ∉ (placeOf x).chain :=
  (List.nodup_cons.mp ((List.nodup_flatMap.mp h.nodup).1 x hx)).1

/-- With other files of the tree open, the volume stays consistent. -/
theorem withOpen (h : v.Consistent k inv) {t : HandleTable} (ht : t.OpenIn inv.tree.nodes) :
    { v with openFiles := t }.Consistent k inv :=
  ⟨h.toLegible.withOpen t, h.nodup, h.used, ht⟩

/-- An opened file is in the tree. -/
theorem opened (h : v.Consistent k inv) {kind : Kind} {p : Place} {t : HandleTable}
    (hlocate : inv.locate path = .ok (kind, p))
    (hinsert : v.openFiles.insert p.handle = .ok (id, t)) :
    { v with openFiles := t }.Consistent k inv := by
  obtain ⟨rfl, -, -⟩ := HandleTable.insert_eq_ok hinsert
  obtain ⟨x, hx, hp, -⟩ := Inventory.locate_mem hlocate
  refine h.withOpen (h.open_files.set id ?_)
  rintro f ⟨⟩
  rw [← hp] at *
  exact ⟨x, hx, rfl, rfl⟩

theorem closeId_yields (h : v.openFiles.get? id = some f) (k : Disk) :
    Yields (v.closeId id) k (.ok { v with openFiles := v.openFiles.set id none }) k := by
  rw [closeId_eq]
  exact (HandleTable.close_yields h k).bind (Yields.pure _ k)

theorem closeId_fails (h : v.openFiles.get? id = none) (k : Disk) :
    Yields (v.closeId id) k (.error (.notOpen id)) k := by
  rw [closeId_eq]
  exact (HandleTable.close_fails h k).bind_error

theorem seekId_yields (h : v.openFiles.get? id = some f) (position : Nat) (k : Disk) :
    Yields (v.seekId id position) k (.ok (v.setOpen id (f.seek position))) k := by
  rw [seekId_eq]
  exact (HandleTable.fetch_yields h k).bind (Yields.pure _ k)

theorem seekId_fails (h : v.openFiles.get? id = none) (position : Nat) (k : Disk) :
    Yields (v.seekId id position) k (.error (.notOpen id)) k := by
  rw [seekId_eq]
  exact (HandleTable.fetch_fails h k).bind_error

/-- The position of an open file may be anywhere. -/
theorem setOpen_seek (h : v.Consistent k inv) (hf : v.openFiles.get? id = some f) (position : Nat) :
    (v.setOpen id (f.seek position)).Consistent k inv := by
  refine h.withOpen (h.open_files.set id ?_)
  rintro g ⟨⟩
  exact h.open_files id f hf

/-- **A read by id** answers a slice of the content, and moves the position behind it. -/
theorem readId_yields (h : v.Consistent k inv) (hf : v.openFiles.get? id = some f)
    {p : Place} (hheader : p.header = f.header) {content : Bytes} (hfile : k.HasFile p content)
    (count : Nat) :
    Yields (v.readId id count) k (.ok ((content.drop f.position).take count,
      v.setOpen id (f.seek (f.position + ((content.drop f.position).take count).length)))) k := by
  have hread : Yields (f.read count) k (.ok ((content.drop f.position).take count,
      f.seek (f.position + ((content.drop f.position).take count).length))) k := by
    rw [Handle.read_eq]
    exact (hfile.read_yields h.dataSize_pos hheader.symm count f.position).bind (Yields.pure _ k)
  rw [readId_eq]
  exact (HandleTable.fetch_yields hf k).bind (hread.bind (Yields.pure _ k))

end Consistent

theorem readId_fails (h : v.openFiles.get? id = none) (count : Nat) (k : Disk) :
    Yields (v.readId id count) k (.error (.notOpen id)) k := by
  rw [readId_eq]
  exact (HandleTable.fetch_fails h k).bind_error

theorem writeId_fails (h : v.openFiles.get? id = none) (bytes : Bytes) (k : Disk) :
    Yields (v.writeId id bytes) k (.error (.notOpen id)) k := by
  rw [writeId_eq]
  exact (HandleTable.fetch_fails h k).bind_error

/-! ## Writing -/

/-- A write by id is one to its file, and moves the position behind it. -/
theorem writeId_of_writeAt {bytes : Bytes} {n : Nat} {k' : Disk} (hf : v.openFiles.get? id = some f)
    (hy : Yields (f.writeAt bytes f.position) k (.ok n) k') :
    Yields (v.writeId id bytes) k (.ok (n, v.setOpen id (f.seek (f.position + n)))) k' := by
  have hwrite : Yields (f.write bytes) k (.ok (n, f.seek (f.position + n))) k' := by
    rw [Handle.write_eq]
    exact hy.bind (Yields.pure _ k')
  rw [writeId_eq]
  exact (HandleTable.fetch_yields hf k).bind (hwrite.bind (Yields.pure _ k'))

/-- The file with its header in `sector`, with other bytes; any other file as it is. -/
def rewrite (sector : Nat) (content : Bytes) (f : Stored) : Stored :=
  if f.place.sector = sector then { f with content } else f

theorem place_rewrite (sector : Nat) (content : Bytes) (f : Stored) :
    (rewrite sector content f).place = f.place := by
  unfold rewrite
  split <;> rfl

/-- A write changes no length. -/
theorem length_splice_take (content bytes : Bytes) (pos : Nat) :
    (Bytes.splice content pos (bytes.take (content.length - pos))).length = content.length := by
  simp only [Bytes.splice, List.length_append, List.length_take, List.length_drop]
  omega

namespace Consistent

/-- **A write by id** replaces a slice of the content of its file, moves the position behind it,
and changes nothing else. -/
theorem writeId_yields (h : v.Consistent k inv) (hf : v.openFiles.get? id = some f) {s : Stored}
    (hs : .inl s ∈ inv.tree.nodes) (hsector : s.place.sector = f.sector)
    (hheader : s.place.header = f.header) (bytes : Bytes) :
    let new := bytes.take (s.content.length - f.position)
    ∃ k', Yields (v.writeId id bytes) k
        (.ok (new.length, v.setOpen id (f.seek (f.position + new.length)))) k' ∧
      k.Keeps k' (· ∉ s.place.chain) ∧
      (v.setOpen id (f.seek (f.position + new.length))).Consistent k'
        (inv.replace (rewrite f.sector (Bytes.splice s.content f.position new))) := by
  intro new
  have hk := h.dataSize_pos
  have hfile : k.HasFile s.place s.content := (h.held.nodes _ hs).2 s rfl
  have hnodes : .inl s ∈ inv.nodes := List.mem_cons_of_mem _ hs
  have hother : ∀ y ∈ inv.nodes, y ≠ .inl s → ∀ i ∈ (placeOf y).sectors, i ∉ s.place.chain :=
    fun y hy hne => h.chain_apart hnodes hy hne
  obtain ⟨k', hy, hkeep, hfile'⟩ :=
    hfile.write_yields hk hheader.symm (h.sector_not_mem_chain hnodes) bytes f.position
  have hmapOut : ∀ i ∈ inv.mapFile.place.sectors, i ∉ s.place.chain :=
    hother _ List.mem_cons_self fun heq => h.mapFile_not_mem (heq ▸ hs)
  have hmap : v.Grounded k' inv.mapFile inv.root := h.toGrounded.keeps hkeep hmapOut
  have hheld := h.held.replace hkeep
    (place_rewrite f.sector (Bytes.splice s.content f.position new)) (fun y hy => ?_)
    fun p hp i hi => hother _ (List.mem_cons_of_mem _ hp) (by rintro ⟨⟩) i hi
  · refine ⟨k', writeId_of_writeAt hf hy, hkeep, ?_⟩
    rw [← Inventory.tree_replace] at hheld
    refine ⟨⟨hmap.withOpen _, hkeep.sectors ▸ h.sectors_le, hheld⟩, ?_, fun i => ?_,
      HandleTable.OpenIn.set (fun j g hg => ?_) id ?_⟩
    · rw [Inventory.sectors_replace (place_rewrite _ _)]
      exact h.nodup
    · rw [Inventory.sectors_replace (place_rewrite _ _), hkeep.sectors]
      exact h.used i
    · obtain ⟨x, hx, hopen⟩ := h.open_files j g hg
      rw [Inventory.nodes_replace]
      refine ⟨x.map _ _, List.mem_map_of_mem hx, ?_⟩
      rw [place_replace (place_rewrite _ _)]
      exact hopen
    · rintro g ⟨⟩
      rw [Inventory.nodes_replace]
      refine ⟨_, List.mem_map_of_mem hs, ?_⟩
      rw [place_replace (place_rewrite _ _)]
      exact ⟨hsector, hheader⟩
  · unfold rewrite
    split
    · rename_i hsame
      have heq := eq_of_mem_sectors h.nodup (List.mem_cons_of_mem _ hy) hnodes
        (s := f.sector) (hsame ▸ List.mem_cons_self) (hsector ▸ List.mem_cons_self)
      cases heq
      exact hfile'
    · rename_i hsame
      refine ((h.held.nodes _ hy).2 y rfl).keeps hkeep
        (hother _ (List.mem_cons_of_mem _ hy) fun heq => hsame ?_)
      cases heq
      exact hsector

end Consistent

end Volume

end SectorChain
