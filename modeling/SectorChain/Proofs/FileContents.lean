import SectorChain.Proofs.Pinning

/-!
# Contents of files

To its users a volume is a tree with arrays of bytes in it, and an id reads and writes one of these
at a position of its own. `Volume.contents` reads the `Contents` of a volume from the device, with
the `Cursor`s of the open ids. `Contents.Step` says what a call may do to them.

* A new file has only zeros, whatever its sectors held before. It takes the first unused slot of its
  parent, and all else stays as it is.
* A removal leaves a slot unused. Nothing below it is open, and all else stays as it is.
* A read answers a slice of one file, and a write replaces a slice of one file; both move the
  position of their id behind it.

Each file and directory has a name that users do not see, the sector of its header: by this a cursor
knows its file, wherever in the tree it is. No two of them share one (`HasContents.nodup`), so it is
clear which file a write replaces a slice of.

Results:
* `Step.isolated`: what a call does to the file at one address of the tree.
* `Step.find_made`: what is made has only zeros, or no names.
* `Effect.contents`: the effects of calls are steps.
* `reached_contents`: in every state of a run the contents can be read from the device, and every
  call is a step on them.
-/

namespace SectorChain

/-- A regular file: the sector of its header, and its bytes. -/
structure FileBytes where
  sector : Nat
  bytes : Bytes

/-- A file with its bytes, or a directory with the sector of its header and the names in it. -/
abbrev ByteTree := Tree FileBytes Nat String

/-- The slots of a directory, with names. -/
abbrev ByteSlots := Slots FileBytes Nat String

/-- Where an id reads and writes: the file, by the sector of its header, and the position. -/
structure Cursor where
  sector : Nat
  position : Nat

/-- The root directory with all that is below it, and the cursors of the open ids. -/
structure Contents where
  root : Nat
  slots : ByteSlots
  cursor : Nat → Option Cursor

/-- Where a handle reads and writes. -/
def Handle.cursor (f : Handle) : Cursor := ⟨f.sector, f.position⟩

/-- The cursors of the files in a table. -/
def HandleTable.cursor (t : HandleTable) (id : Nat) : Option Cursor :=
  (t.get? id).map Handle.cursor

/-- The file with its header in `sector`, with other bytes; any other file as it is. -/
def FileBytes.rewrite (sector : Nat) (bytes : Bytes) (x : FileBytes) : FileBytes :=
  if x.sector = sector then { x with bytes } else x

/-- What users see of a file. -/
def Stored.fileBytes (f : Stored) : FileBytes := ⟨f.place.sector, f.content⟩

/-- What users see of the nodes in slots. -/
def Slots.contents (slots : Slots Stored Place Entry) : Slots FileBytes Nat String :=
  map Stored.fileBytes Place.sector Entry.name slots

/-- The contents of what is in an inventory, with the cursors of a table. -/
def Inventory.contents (inv : Inventory) (t : HandleTable) : Contents :=
  ⟨inv.root.sector, Slots.contents inv.slots, t.cursor⟩

/-- **The abstraction**: the contents of what is on the device, and the cursors. -/
def Volume.contents (v : Volume) : DriveM Contents := do
  let inv ← survey
  return inv.contents v.openFiles

namespace Contents

/-- The root directory, with everything below it. -/
def tree (c : Contents) : ByteTree := .directory c.root c.slots

/-- The sector of the header of a file or directory. -/
def sectorOf (x : FileBytes ⊕ Nat) : Nat := x.elim FileBytes.sector id

/-- The sectors of all headers. -/
def sectors (c : Contents) : List Nat := c.tree.nodes.map sectorOf

/-- What is at the end of a path. The path of the root leads nowhere. -/
def find (c : Contents) (path : String) : Except VolumeError ByteTree :=
  (Slots.follow id path (.ofPath path) c.slots).map Prod.snd

/-- The sector of the header of the file or directory at the root of a tree. -/
def headerOf : ByteTree → Nat
  | .file x => x.sector
  | .directory s _ => s

/-- What a path leads to: the kind, and the sector of the header. -/
def locate (c : Contents) (path : String) : Except VolumeError (Kind × Nat) :=
  if path = "/" then .ok (.directory, c.root)
  else (c.find path).map fun t => (t.kind, headerOf t)

/-- The name that an entry made for `n` shows: a NUL cuts it. -/
def shown (n : String) : String := (NameField.ofName n).text

/-- A new file, with only zeros, or a new directory, with all its slots unused. -/
def leaf (kind : Kind) (sector size : Nat) : ByteTree :=
  match kind with
  | .file => .file ⟨sector, Bytes.zeros size⟩
  | .directory => .directory sector (List.replicate Layout.directorySlots none)

/-- The contents with the cursor of an id set. -/
def point (c : Contents) (id : Nat) (cursor : Option Cursor) : Contents :=
  { c with cursor := Function.update c.cursor id cursor }

/-- The contents with other bytes in the file with its header in `sector`. -/
def rewrite (c : Contents) (sector : Nat) (bytes : Bytes) : Contents :=
  { c with slots := Slots.map (FileBytes.rewrite sector bytes) id id c.slots }

/-- **What a call may do to the contents.** A call on an open id answers. An id that is open on a
directory reads from its table. -/
inductive Step (c : Contents) : Request → Except VolumeError Answer → Contents → Prop
  | failed {q : Request} (e : VolumeError)
      (hid : ∀ id, q.onId = some id → c.cursor id = none) : Step c q (.error e) c
  | looked {q : Request} (a : Answer) (hq : q.Looks) : Step c q (.ok a) c
  | made {q : Request} {path : String} {kind : Kind} {size s : Nat} {slots : ByteSlots}
      (hq : q.makes = some (path, kind, size)) (hnew : s ∉ c.sectors)
      (hslots : Slots.change id path (Slots.insert id path shown (leaf kind s size)) (.ofPath path)
        c.slots = .ok slots) : Step c q (.ok .done) { c with slots }
  | removed {path : String} {t : ByteTree} {slots : ByteSlots} (recursive : Bool)
      (hfind : c.find path = .ok t)
      (hslots : Slots.change id path (Slots.erase id path) (.ofPath path) c.slots = .ok slots)
      (hopen : ∀ id f, c.cursor id = some f → f.sector ∉ t.nodes.map sectorOf) :
      Step c (.remove path recursive) (.ok .done) { c with slots }
  | opened {path : String} {kind : Kind} {id s : Nat} (hid : c.cursor id = none)
      (hlocate : c.locate path = .ok (kind, s)) :
      Step c (.openId path) (.ok (.id id)) (c.point id (some ⟨s, 0⟩))
  | closed (id : Nat) : Step c (.closeId id) (.ok .done) (c.point id none)
  | sought {id : Nat} {f : Cursor} (position : Nat) (hf : c.cursor id = some f) :
      Step c (.seekId id position) (.ok .done) (c.point id (some ⟨f.sector, position⟩))
  | read {id count n : Nat} {f : Cursor} {content : Bytes} (hf : c.cursor id = some f)
      (hcontent : .inl ⟨f.sector, content⟩ ∈ c.tree.nodes)
      (hn : n = min count (content.length - f.position)) :
      Step c (.readId id count) (.ok (.bytes ((content.drop f.position).take n)))
        (c.point id (some ⟨f.sector, f.position + n⟩))
  | readTable {id : Nat} {f : Cursor} (count : Nat) (bytes : Bytes) (hf : c.cursor id = some f)
      (hdirectory : .inr f.sector ∈ c.tree.nodes) :
      Step c (.readId id count) (.ok (.bytes bytes))
        (c.point id (some ⟨f.sector, f.position + bytes.length⟩))
  | written {id n : Nat} {f : Cursor} {content bytes : Bytes} (hf : c.cursor id = some f)
      (hcontent : .inl ⟨f.sector, content⟩ ∈ c.tree.nodes)
      (hn : n = min bytes.length (content.length - f.position)) :
      Step c (.writeId id bytes) (.ok (.count n))
        ((c.rewrite f.sector (Bytes.splice content f.position (bytes.take n))).point id
          (some ⟨f.sector, f.position + n⟩))
  | mounted : Step c .mount (.ok .done) { c with cursor := fun _ => none }

variable {c c' : Contents} {q : Request} {r : Except VolumeError Answer}

/-- Bytes that a file has no room for are left out. -/
theorem take_min_sub (bytes : Bytes) (n : Nat) : bytes.take (min bytes.length n) = bytes.take n :=
  List.take_eq_take_iff.mpr (by omega)

/-- The bytes of a read, as a slice. -/
theorem Step.read_slice {id count : Nat} {f : Cursor} {content bytes : Bytes}
    (hf : c.cursor id = some f) (hcontent : .inl ⟨f.sector, content⟩ ∈ c.tree.nodes)
    (hbytes : bytes = (content.drop f.position).take count) :
    c.Step (.readId id count) (.ok (.bytes bytes))
      (c.point id (some ⟨f.sector, f.position + bytes.length⟩)) := by
  have hlength : bytes.length = min count (content.length - f.position) := by
    rw [hbytes, List.length_take, List.length_drop]
  have hslice : (content.drop f.position).take bytes.length = bytes := by
    rw [hlength, ← List.length_drop, ← List.take_eq_take_min]
    exact hbytes.symm
  have hstep := Step.read hf hcontent hlength
  rw [hslice] at hstep
  exact hstep

/-- The bytes of a write, as far as there is room. -/
theorem Step.written_take {id : Nat} {f : Cursor} {content bytes new : Bytes}
    (hf : c.cursor id = some f) (hcontent : .inl ⟨f.sector, content⟩ ∈ c.tree.nodes)
    (hnew : new = bytes.take (content.length - f.position)) :
    c.Step (.writeId id bytes) (.ok (.count new.length))
      ((c.rewrite f.sector (Bytes.splice content f.position new)).point id
        (some ⟨f.sector, f.position + new.length⟩)) := by
  have hlength : new.length = min bytes.length (content.length - f.position) := by
    rw [hnew, List.length_take, Nat.min_comm]
  have hslice : bytes.take new.length = new := by
    rw [hlength, take_min_sub]
    exact hnew.symm
  have hstep := Step.written hf hcontent hlength
  rw [hslice] at hstep
  exact hstep

/-! ## Isolation -/

/-- A file is known by the sector of its header, when no two share one. -/
theorem bytes_unique (h : c.sectors.Nodup) {x y : FileBytes} (hx : .inl x ∈ c.tree.nodes)
    (hy : .inl y ∈ c.tree.nodes) (hsector : x.sector = y.sector) : x = y :=
  Sum.inl.inj (List.inj_on_of_nodup_map h hx hy hsector)

/-- **Files are isolated.** The file at an address stays there, with its sector and its length, and
with all its bytes if the call does not write to an id that is open on it; or it is in what the call
removes. -/
theorem Step.isolated (h : c.Step q r c') (hnodup : c.sectors.Nodup) {address : List Nat}
    {x : FileBytes} (hx : c.tree.node? address = some (.inl x)) :
    (∃ bytes, c'.tree.node? address = some (.inl ⟨x.sector, bytes⟩) ∧
      bytes.length = x.bytes.length ∧ (bytes = x.bytes ∨
        ∃ id new f, q = .writeId id new ∧ c.cursor id = some f ∧ f.sector = x.sector)) ∨
    ∃ path recursive t, q = .remove path recursive ∧ c.find path = .ok t ∧ .inl x ∈ t.nodes := by
  cases h with
  | made hq hnew hslots =>
    exact .inl ⟨_, Slots.change_insert_node? hslots c.root hx, rfl, .inl rfl⟩
  | @removed path t slots recursive hfind hslots hopen =>
    by_cases hin : .inl x ∈ t.nodes
    · exact .inr ⟨path, recursive, t, rfl, hfind, hin⟩
    · unfold find at hfind
      cases hfollow : Slots.follow id path (.ofPath path) c.slots with
      | error e =>
        rw [hfollow] at hfind
        cases hfind
      | ok p =>
        rw [hfollow] at hfind
        cases hfind
        exact .inl ⟨_, Slots.change_erase_node? hslots hfollow hin c.root hx, rfl, .inl rfl⟩
  | @written i n f content bytes hf hcontent hn =>
    have hkept : (c.rewrite f.sector (Bytes.splice content f.position (bytes.take n))).tree.node?
        address = some (.inl
          (x.rewrite f.sector (Bytes.splice content f.position (bytes.take n)))) := by
      have hmap := Tree.node?_map (FileBytes.rewrite f.sector
        (Bytes.splice content f.position (bytes.take n))) id id address c.tree
      rw [hx, tree, Tree.map_directory] at hmap
      exact hmap
    unfold FileBytes.rewrite at hkept
    by_cases hsector : x.sector = f.sector
    · rw [if_pos hsector] at hkept
      cases bytes_unique hnodup (Tree.mem_of_node? hx) hcontent hsector
      refine .inl ⟨_, hkept, ?_, .inr ⟨i, bytes, f, rfl, hf, rfl⟩⟩
      rw [hn, take_min_sub, Volume.length_splice_take]
    · rw [if_neg hsector] at hkept
      exact .inl ⟨_, hkept, rfl, .inl rfl⟩
  | _ => exact .inl ⟨_, hx, rfl, .inl rfl⟩

/-- **What is made is found** at its path, if no NUL cuts its name: a file with only zeros, or an
empty directory. Its header is in a sector that was no other's. -/
theorem Step.find_made {a : Answer} (h : c.Step q (.ok a) c') {path : String} {kind : Kind}
    {size : Nat} (hq : q.makes = some (path, kind, size)) (hnul : '\x00' ∉ path.toList) :
    ∃ s, s ∉ c.sectors ∧ c'.find path = .ok (leaf kind s size) := by
  cases h with
  | looked _ hlooks =>
    cases q <;> first | exact hlooks.elim | cases hq
  | @made _ _ _ _ s slots hmakes hnew hslots =>
    cases hmakes.symm.trans hq
    have hshown : id (shown (Slots.lastName (.ofPath path))) = Slots.lastName (.ofPath path) :=
      Route.name_ofFile_lastName (Slots.fault?_of_change hslots) hnul kind s
    refine ⟨s, hnew, ?_⟩
    unfold find
    rw [Slots.follow_change_insert shown hslots hshown]
    rfl
  | removed | opened | closed | sought | read | readTable | written | mounted => cases hq

end Contents

/-! ## The contents of an inventory -/

theorem Contents.headerOf_map (t : Node) :
    headerOf (t.map Stored.fileBytes Place.sector Entry.name) = t.place.sector := by
  cases t with
  | file f => rfl
  | directory p slots =>
    rw [Tree.map_directory]
    rfl

/-- Files and directories of which none shares a sector have different headers. -/
theorem nodup_headers {l : List (Stored ⊕ Place)} (h : (sectorsOf l).Nodup) :
    (l.map fun x => (placeOf x).sector).Nodup := by
  refine List.pairwise_map.mpr ((List.nodup_flatMap.mp h).2.imp fun hapart hsame => ?_)
  exact hapart List.mem_cons_self (hsame ▸ List.mem_cons_self)

namespace Inventory

variable {inv : Inventory} {path : String} (t : HandleTable)

/-- What users see of a file or directory. -/
def seen (x : Stored ⊕ Place) : FileBytes ⊕ Nat := x.map Stored.fileBytes Place.sector

theorem sectorOf_seen (x : Stored ⊕ Place) : Contents.sectorOf (seen x) = (placeOf x).sector := by
  cases x <;> rfl

theorem nodes_contents (inv : Inventory) :
    (inv.contents t).tree.nodes = inv.tree.nodes.map seen := by
  have hnodes := Tree.nodes_map Stored.fileBytes Place.sector Entry.name inv.tree
  unfold tree at hnodes
  rw [Tree.map_directory] at hnodes
  exact hnodes

/-- A file of the contents is a file of the inventory. -/
theorem mem_contents {x : FileBytes} :
    .inl x ∈ (inv.contents t).tree.nodes ↔ ∃ f, .inl f ∈ inv.tree.nodes ∧ f.fileBytes = x := by
  rw [nodes_contents, List.mem_map]
  constructor
  · rintro ⟨f | p, hf, heq⟩
    · exact ⟨f, hf, Sum.inl.inj heq⟩
    · cases heq
  · rintro ⟨f, hf, rfl⟩
    exact ⟨.inl f, hf, rfl⟩

theorem file_mem_contents {f : Stored} (hf : .inl f ∈ inv.tree.nodes) {s : Nat}
    (hs : f.place.sector = s) : .inl ⟨s, f.content⟩ ∈ (inv.contents t).tree.nodes := by
  subst hs
  exact (mem_contents t).mpr ⟨f, hf, rfl⟩

theorem directory_mem_contents {p : Place} (hp : .inr p ∈ inv.tree.nodes) {s : Nat}
    (hs : p.sector = s) : .inr s ∈ (inv.contents t).tree.nodes := by
  subst hs
  rw [nodes_contents]
  exact List.mem_map_of_mem hp

theorem sectors_contents (inv : Inventory) :
    (inv.contents t).sectors = inv.tree.nodes.map fun x => (placeOf x).sector := by
  unfold Contents.sectors
  rw [nodes_contents, List.map_map]
  exact List.map_congr_left fun x _ => sectorOf_seen x

theorem find_contents (inv : Inventory) (path : String) : (inv.contents t).find path =
    (inv.find path).map fun p => p.2.map Stored.fileBytes Place.sector Entry.name := by
  unfold Contents.find contents Slots.contents find
  rw [Slots.follow_map Slots.id_name]
  cases Slots.follow Entry.name path (.ofPath path) inv.slots <;> rfl

/-- A file at a path of the contents is one of the inventory. -/
theorem find_file {t : HandleTable} {x : FileBytes}
    (h : (inv.contents t).find path = .ok (.file x)) :
    ∃ e f, inv.find path = .ok (e, .file f) ∧ f.fileBytes = x := by
  rw [find_contents] at h
  cases hfind : inv.find path with
  | error e =>
    rw [hfind] at h
    cases h
  | ok p =>
    obtain ⟨e, node⟩ := p
    rw [hfind] at h
    have hmap : node.map Stored.fileBytes Place.sector Entry.name = .file x := Except.ok.inj h
    cases node with
    | file f =>
      cases hmap
      exact ⟨e, f, rfl, rfl⟩
    | directory p below =>
      rw [Tree.map_directory] at hmap
      cases hmap

theorem locate_contents (inv : Inventory) (path : String) : (inv.contents t).locate path =
    (inv.locate path).map fun p => (p.1, p.2.sector) := by
  unfold Contents.locate locate
  rw [find_contents]
  split
  · rfl
  · cases inv.find path with
    | error e => rfl
    | ok p =>
      exact congrArg Except.ok (Prod.ext (Tree.kind_map _ _ _ p.2) (Contents.headerOf_map p.2))

/-- What is put into the slots is seen there. -/
theorem insert_contents {kind : Kind} {p : Place} {size : Nat} {slots : NodeSlots}
    (h : inv.insert path (Node.blank kind p size) = .ok slots) :
    Slots.change id path (Slots.insert id path Contents.shown (Contents.leaf kind p.sector size))
      (.ofPath path) (Slots.contents inv.slots) = .ok (Slots.contents slots) := by
  have hleaf : (Node.blank kind p size).map Stored.fileBytes Place.sector Entry.name =
      Contents.leaf kind p.sector size := by
    cases kind with
    | file => rfl
    | directory =>
      refine (Tree.map_directory _ _ _ _ _).trans (congrArg (Tree.directory p.sector) ?_)
      unfold Slots.map
      rw [List.map_replicate]
      rfl
  have hchange := Slots.change_insert_map (f := Stored.fileBytes) (g := Place.sector) path
    Slots.id_name (fun n => .ofFile n (Node.blank kind p size).kind
      (Node.blank kind p size).place.sector) Contents.shown (Node.blank kind p size) inv.slots
    (r := .ofPath path) rfl
  unfold insert at h
  rw [h, hleaf] at hchange
  exact hchange

theorem erase_contents {slots : NodeSlots} (h : inv.erase path = .ok slots) :
    Slots.change id path (Slots.erase id path) (.ofPath path) (Slots.contents inv.slots) =
      .ok (Slots.contents slots) := by
  have hchange := Slots.change_erase_map (f := Stored.fileBytes) (g := Place.sector) path
    Slots.id_name inv.slots (.ofPath path)
  unfold erase at h
  rw [h] at hchange
  exact hchange

/-- Other bytes in a file are seen in that file. -/
theorem replace_contents (inv : Inventory) (sector : Nat) (bytes : Bytes) :
    (inv.replace (Volume.rewrite sector bytes)).contents t =
      (inv.contents t).rewrite sector bytes := by
  have hfiles : Stored.fileBytes ∘ Volume.rewrite sector bytes =
      FileBytes.rewrite sector bytes ∘ Stored.fileBytes := by
    funext f
    show Stored.fileBytes (if f.place.sector = sector then _ else f) =
      if f.place.sector = sector then _ else f.fileBytes
    by_cases hsector : f.place.sector = sector
    · rw [if_pos hsector, if_pos hsector]
      rfl
    · rw [if_neg hsector, if_neg hsector]
  unfold contents Contents.rewrite Slots.contents replace
  dsimp only
  rw [Slots.map_map, Slots.map_map, hfiles]
  rfl

end Inventory

/-! ## Cursors -/

namespace HandleTable

variable {t : HandleTable} {id : Nat} {f : Handle}

theorem cursor_eq_some (hf : t.get? id = some f) : t.cursor id = some f.cursor :=
  congrArg (Option.map Handle.cursor) hf

theorem cursor_set (hid : id < t.slots.length) (slot : Option Handle) :
    (t.set id slot).cursor = Function.update t.cursor id (slot.map Handle.cursor) := by
  funext j
  unfold cursor
  rw [get?_set]
  by_cases hj : j = id
  · subst hj
    rw [if_pos ⟨rfl, hid⟩, Function.update_self]
  · rw [if_neg fun hid => hj hid.1.symm, Function.update_of_ne hj]

theorem cursor_empty (n : Nat) : (empty n).cursor = fun _ => none := by
  funext id
  unfold cursor
  rw [get?_empty]
  rfl

/-- A slot is set where a cursor is. -/
theorem contents_set (inv : Inventory) (hid : id < t.slots.length) (slot : Option Handle) :
    inv.contents (t.set id slot) = (inv.contents t).point id (slot.map Handle.cursor) := by
  unfold Inventory.contents Contents.point
  rw [cursor_set hid]

end HandleTable

theorem Volume.contents_setOpen {v : Volume} {id : Nat} {f : Handle} (inv : Inventory)
    (hf : v.openFiles.get? id = some f) (g : Handle) :
    inv.contents (v.setOpen id g).openFiles =
      (inv.contents v.openFiles).point id (some g.cursor) :=
  HandleTable.contents_set inv (HandleTable.lt_length_of_get? hf) (some g)

/-! ## Calls -/

theorem Volume.Consistent.contents_yields {v : Volume} {k : Disk} {inv : Inventory}
    (h : v.Consistent k inv) : Yields v.contents k (.ok (inv.contents v.openFiles)) k :=
  h.survey_yields.bind (Yields.pure _ k)

/-- **The effect of a call** is a step of the contents. -/
theorem Effect.contents {v v' : Volume} {k k' : Disk} {inv inv' : Inventory} {q : Request}
    {r : Except VolumeError Answer} (h : Effect v inv q r v' inv') (hv : v.Consistent k inv)
    (hv' : v'.Consistent k' inv') :
    (inv.contents v.openFiles).Step q r (inv'.contents v'.openFiles) := by
  cases h with
  | failed e hid =>
    exact .failed e fun id hq => congrArg (Option.map Handle.cursor) (hid id hq)
  | looked a hq => exact .looked a hq
  | mounted =>
    unfold Inventory.contents
    rw [HandleTable.cursor_empty]
    exact .mounted
  | @made _ path kind size p slots content hq hlength hslots =>
    refine .made hq (fun hmem => ?_) (Inventory.insert_contents hslots)
    rw [Inventory.sectors_contents] at hmem
    obtain ⟨x, hx, hsector⟩ := List.mem_map.mp hmem
    have hfresh := Inventory.insert_fresh hslots hv'.nodup (s := p.sector) (by
      rw [Node.sectors_blank]
      exact List.mem_cons_self)
    exact hfresh (hsector ▸ Inventory.sector_mem hx)
  | @removed path recursive e t slots content hfind hslots =>
    refine .removed (t := t.map Stored.fileBytes Place.sector Entry.name) recursive ?_
      (Inventory.erase_contents hslots) fun id f hf hmem => ?_
    · rw [Inventory.find_contents, hfind]
      rfl
    · obtain ⟨g, hg, rfl⟩ := Option.map_eq_some_iff.mp hf
      obtain ⟨x, hx, hsector, -⟩ := hv'.open_files id g hg
      rw [Tree.nodes_map, List.map_map] at hmem
      obtain ⟨y, hy, hysector⟩ := List.mem_map.mp hmem
      refine Inventory.erase_apart hslots hfind hv.nodup hx hy (hsector.trans ?_)
      exact hysector.symm.trans (Inventory.sectorOf_seen y)
  | @opened path kind p id t hlocate hinsert =>
    obtain ⟨rfl, hid, hnone⟩ := HandleTable.insert_eq_ok hinsert
    dsimp only
    rw [HandleTable.contents_set inv hid]
    have hfound : (inv.contents v.openFiles).locate path = .ok (kind, p.sector) := by
      rw [Inventory.locate_contents, hlocate]
      rfl
    exact .opened (congrArg (Option.map Handle.cursor) hnone) hfound
  | @closed id f hf =>
    dsimp only
    rw [HandleTable.contents_set inv (HandleTable.lt_length_of_get? hf)]
    exact .closed id
  | @sought id f position hf =>
    rw [Volume.contents_setOpen inv hf]
    exact .sought (f := f.cursor) position (HandleTable.cursor_eq_some hf)
  | @read id f bytes count hf hbytes =>
    rw [Volume.contents_setOpen inv hf]
    obtain ⟨s | p, hx, hsector, -⟩ := hv.open_files id f hf
    · refine .read_slice (f := f.cursor) (HandleTable.cursor_eq_some hf) ?_
        (hbytes s hx hsector)
      exact Inventory.file_mem_contents _ hx hsector
    · exact .readTable (f := f.cursor) count bytes (HandleTable.cursor_eq_some hf)
        (Inventory.directory_mem_contents _ hx hsector)
  | @written id f s bytes new hf hs hsector hnew =>
    rw [Volume.contents_setOpen _ hf, Inventory.replace_contents]
    refine .written_take (f := f.cursor) (HandleTable.cursor_eq_some hf) ?_ hnew
    exact Inventory.file_mem_contents _ hs hsector

namespace Usage

variable {blank : Drive} {u : Usage}

/-- **The contents are those of the state**: they are read from the device. No two files or
directories share a sector for their headers; files have the lengths that they were made with; an id
is open on a file or directory of the tree, the kind of which is that of what it was opened on; and
paths lead where they lead in the tree. -/
structure HasContents (u : Usage) (c : Contents) : Prop where
  asked : u.ask u.volume.contents = .ok c
  nodup : c.sectors.Nodup
  sizes : ∀ x, .inl x ∈ c.tree.nodes → u.sizes x.sector = some x.bytes.length
  opened : ∀ id f, c.cursor id = some f →
    (u.opened id = some .file ∧ ∃ content, .inl ⟨f.sector, content⟩ ∈ c.tree.nodes) ∨
      (u.opened id = some .directory ∧ .inr f.sector ∈ c.tree.nodes)
  stat : ∀ path, (u.ask (u.volume.stat path)).map (fun s => (s.kind, s.sector)) = c.locate path
  contentAt : ∀ path x, c.find path = .ok (.file x) →
    u.ask (u.volume.contentAt path) = .ok x.bytes

theorem Sound.hasContents {inv : Inventory} (h : u.Sound inv) :
    u.HasContents (inv.contents u.volume.openFiles) where
  asked := ask_eq h.fault_free h.consistent.contents_yields
  nodup := by
    rw [Inventory.sectors_contents]
    exact nodup_headers (Inventory.nodup_split h.consistent.nodup).2.1
  sizes := fun x hx => by
    obtain ⟨f, hf, rfl⟩ := (Inventory.mem_contents _).mp hx
    exact h.sizes f hf
  opened := fun id f hf => by
    obtain ⟨g, hg, rfl⟩ := Option.map_eq_some_iff.mp hf
    obtain ⟨s | p, hx, hsector, -⟩ := h.consistent.open_files id g hg
    · exact .inl ⟨h.opened id g hg _ hx hsector, s.content,
        Inventory.file_mem_contents _ hx hsector⟩
    · exact .inr ⟨h.opened id g hg _ hx hsector, Inventory.directory_mem_contents _ hx hsector⟩
  stat := fun path => by
    rw [ask_eq h.fault_free (h.consistent.stat_yields path), Inventory.locate_contents]
    cases inv.locate path <;> rfl
  contentAt := fun path x hx => by
    obtain ⟨e, f, hfind, rfl⟩ := Inventory.find_file hx
    obtain ⟨slots, herase⟩ := Inventory.erase_ok hfind
    have hroot := Route.ne_root_of_fault? (Slots.fault?_of_change herase)
    exact ask_eq h.fault_free (h.consistent.contentAt_yields hroot hfind)

/-- **Files are arrays of bytes.** In every state of a run the contents can be read from the device,
and a call takes one step on them. A file just created has only zeros. Whatever is called, the file
at an address stays there with its length, and with its bytes if it is not written to, unless it is
in what is removed. -/
theorem reached_contents (hblank : blank.FaultFree) (hlimit : blank.device.sectors ≤ Link.limit)
    (h : Reached blank u) {q : Request} (hq : q.Permitted u) :
    ∃ c c', u.HasContents c ∧ (u.call q).2.HasContents c' ∧ c.Step q (u.call q).1 c' ∧
      (∀ path size a, q = .create path size → (u.call q).1 = .ok a → '\x00' ∉ path.toList →
        ∃ s, s ∉ c.sectors ∧ c'.find path = .ok (.file ⟨s, Bytes.zeros size⟩)) ∧
      ∀ address x, c.tree.node? address = some (.inl x) →
        (∃ bytes, c'.tree.node? address = some (.inl ⟨x.sector, bytes⟩) ∧
          bytes.length = x.bytes.length ∧ (bytes = x.bytes ∨
            ∃ id new f, q = .writeId id new ∧ c.cursor id = some f ∧ f.sector = x.sector)) ∨
        ∃ path recursive t, q = .remove path recursive ∧ c.find path = .ok t ∧
          .inl x ∈ t.nodes := by
  obtain ⟨inv, hu, -⟩ := h.sound hblank hlimit
  obtain ⟨inv', heffect, hu', -⟩ := hu.call hq
  have hstep := heffect.contents hu.consistent hu'.consistent
  refine ⟨_, _, hu.hasContents, hu'.hasContents, hstep, ?_, fun address x hx =>
    hstep.isolated hu.hasContents.nodup hx⟩
  rintro path size a rfl ha hnul
  rw [ha] at hstep
  exact hstep.find_made rfl hnul

theorem reached_contents_open : ∃ u : Usage, u.opened 0 = some .file ∧ ∃ c c',
    u.HasContents c ∧ c.Step (.writeId 0 [1, 2, 3]) (u.call (.writeId 0 [1, 2, 3])).1 c' := by
  obtain ⟨u, f, hu, -, hid⟩ := Reached.exists_open
  obtain ⟨c, c', hc, -, hstep, -⟩ :=
    reached_contents (Drive.faultFree_blank 64 128) (by decide) hu (q := .writeId 0 [1, 2, 3])
      fun _ _ => hid
  exact ⟨u, hid, c, c', hc, hstep⟩

end Usage

end SectorChain
