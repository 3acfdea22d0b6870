import SectorChain.Proofs.Estates

/-!
# Volumes and their estates

An inventory needs links for all sectors of the device. Without them, files may be made whose chains
end early, and others whose headers nothing leads to; yet no two files share a sector. The estate of
a volume (`Volume.Owns`) has all files that can be reached, and the free map marks their sectors.

Results:
* `Owns.exists_list`, `Owns.exists_found`: names depend on the estate only.
* `Owns.openPath_cases`: a path leads to an owner, or is not opened.
* `Owns.writeId_cases`: a write by id changes the chain of one owner only.
* `writeNew_cases`: a new file begins in its sectors, or is not written.
* `Grounded.storeMap_yields`: storing a map that marks what has an owner completes a change.
* `Owns.make_changes`, `Owns.remove_changes`: making and removing leave an estate again.
-/

namespace SectorChain

/-- The open files are owners, with the same headers, and the free map file is none of them. -/
def HandleTable.OwnedBy (t : HandleTable) (A : Estate) : Prop :=
  ∀ id f, t.get? id = some f →
    ∃ x ∈ A.owners, x.place.sector = f.sector ∧ x.place.header = f.header ∧
      Layout.freeMapSector < f.sector

theorem HandleTable.OwnedBy.set {t : HandleTable} {A : Estate} (h : t.OwnedBy A) (id : Nat)
    {slot : Option Handle} (hslot : ∀ f, slot = some f →
      ∃ x ∈ A.owners, x.place.sector = f.sector ∧ x.place.header = f.header ∧
        Layout.freeMapSector < f.sector) : (t.set id slot).OwnedBy A := by
  intro j f hj
  rcases get?_set_eq_some hj with ⟨-, hj⟩ | hj
  · exact hslot f hj
  · exact h j f hj

namespace Volume

/-- **The volume has an estate**: everything in it is on the disk, the free map marks all sectors
that have an owner, and the open files are in it. -/
structure Owns (v : Volume) (k : Disk) (A : Estate) (mapFile : Stored) (root : Place) : Prop
    extends Grounded v k mapFile root where
  sectors_le : k.sectors ≤ 0x100000000
  ordered : A.Ordered
  supports : k.Supports A
  map_owner : ⟨.file, mapFile.place⟩ ∈ A.owners
  root_owner : ⟨.directory, root⟩ ∈ A.owners
  used : ∀ x ∈ A.owners, ∀ s ∈ x.place.sectors,
    (FreeMap.ofBytes k.sectors mapFile.content).isUsed s = true
  open_files : v.openFiles.OwnedBy A

variable {v : Volume} {k k' : Disk} {A : Estate} {mapFile : Stored} {root : Place} {id : Nat}
  {f : Handle} {path : String}

namespace Owns

/-- Outside the sectors that have an owner, the disk may change. -/
theorem keeps {q : Nat → Prop} (h : v.Owns k A mapFile root) (hk : k.Keeps k' q)
    (hq : ∀ x ∈ A.owners, ∀ s ∈ x.place.sectors, q s) : v.Owns k' A mapFile root :=
  ⟨h.toGrounded.keeps hk (hq _ h.map_owner), hk.sectors ▸ h.sectors_le, h.ordered,
    h.supports.keeps hk hq, h.map_owner, h.root_owner, hk.sectors ▸ h.used, h.open_files⟩

theorem withOpen (h : v.Owns k A mapFile root) {t : HandleTable} (ht : t.OwnedBy A) :
    { v with openFiles := t }.Owns k A mapFile root :=
  ⟨h.toGrounded.withOpen t, h.sectors_le, h.ordered, h.supports, h.map_owner, h.root_owner, h.used,
    ht⟩

/-- The position of an open file may be anywhere. -/
theorem setOpen_seek (h : v.Owns k A mapFile root) (hf : v.openFiles.get? id = some f)
    (position : Nat) : (v.setOpen id (f.seek position)).Owns k A mapFile root := by
  refine h.withOpen (h.open_files.set id ?_)
  rintro g ⟨⟩
  exact h.open_files id f hf

/-! ### Paths -/

theorem line (h : v.Owns k A mapFile root) : A.Line [root] := .root h.root_owner h.root_sector

theorem root_yields (h : v.Owns k A mapFile root) : Yields v.root k (.ok (A.tableOf root)) k :=
  (h.supports.tabled root h.root_owner).fetch_yields h.root_header

/-- **The whole volume is listed**, with the same lines on all disks that have the estate. -/
theorem exists_list (h : v.Owns k A mapFile root) :
    ∃ lines, ∀ (t : HandleTable) (k' : Disk), k'.Supports A →
      Yields ({ v with openFiles := t }.list "/" true) k' (.ok lines) k' := by
  have hdepth : Link.limit < [root].length + Directory.depthLimit := by
    rw [List.length_singleton, Directory.depthLimit]
    omega
  obtain ⟨lines, hlines⟩ := h.ordered.exists_lines h.line hdepth 0
  refine ⟨lines, fun t k' hk => ?_⟩
  have hroot : Yields ({ v with openFiles := t }.root) k' (.ok (A.tableOf root)) k' :=
    (hk.tabled root h.root_owner).fetch_yields h.root_header
  unfold Volume.list
  refine hroot.bind ?_
  rw [if_pos rfl]
  exact hlines k' hk

/-- What is found at a path is the same on all disks that have the estate. -/
theorem exists_found (h : v.Owns k A mapFile root) (path : String) :
    ∃ res, ∀ (t : HandleTable) (k' : Disk), k'.Supports A →
      Yields ({ v with openFiles := t }.findEntry path) k' res k' := by
  obtain ⟨-, res, -, -, hfollow, -⟩ := h.ordered.exists_way path (.ofPath path) h.line
  refine ⟨res, fun t k' hk => ?_⟩
  have hroot : Yields ({ v with openFiles := t }.root) k' (.ok (A.tableOf root)) k' :=
    (hk.tabled root h.root_owner).fetch_yields h.root_header
  exact hroot.bind (hfollow k' hk)

/-- **A path is opened** at an owner of the kind that its entry has, or is not opened. -/
theorem openPath_cases (h : v.Owns k A mapFile root) (path : String) :
    (∃ x, Yields (v.openPath path) k (.error x) k) ∨
    ∃ x ∈ A.owners, Layout.freeMapSector < x.place.sector ∧
      Yields (v.openPath path) k (.ok x.place.handle) k ∧
      (path = "/" → x.kind = .directory) ∧
      (path ≠ "/" → ∃ e, Yields (v.findEntry path) k (.ok e) k ∧ e.kind = x.kind) := by
  have hopen : ∀ {x : Owner}, x ∈ A.owners →
      Yields (Handle.fetch x.place.sector) k (.ok x.place.handle) k := fun hx =>
    (h.supports.begins _ hx).header.open_yields
  by_cases hroot : path = "/"
  · have hfind : Yields ((A.tableOf root).find path) k (.ok root.sector) k := by
      unfold Directory.find
      rw [if_pos hroot, h.root_sector]
      exact Yields.pure _ k
    refine .inr ⟨_, h.root_owner, h.root_sector ▸ by decide,
      h.root_yields.bind (hfind.bind (hopen h.root_owner)), fun _ => rfl,
      fun hne => absurd hroot hne⟩
  obtain ⟨ps, res, hline, -, hfollow, hlast⟩ := h.ordered.exists_way path (.ofPath path) h.line
  have hentry : Yields ((A.tableOf root).findEntry path) k res k := hfollow k h.supports
  have hfind : ∀ {r : Except VolumeError Nat}, Yields (do
      (← (A.tableOf root).findEntry path).header path) k r k →
      Yields ((A.tableOf root).find path) k r k := fun hy => by
    unfold Directory.find
    rwa [if_neg hroot]
  cases res with
  | error x => exact .inl ⟨x, h.root_yields.bind (hfind hentry.bind_error).bind_error⟩
  | ok e =>
    obtain ⟨w, hw, he⟩ := hlast e rfl
    cases hsector : e.sector? with
    | none =>
      have hheader := Disk.header_fails hsector path k
      exact .inl ⟨_, h.root_yields.bind (hfind (hentry.bind hheader)).bind_error⟩
    | some s =>
      obtain ⟨i, hentered⟩ := Estate.exists_entered (hline.owner_of_getLast? hw) he
      obtain ⟨hlt, q, rfl, hq⟩ := h.ordered.leads hentered hsector
      refine .inr ⟨_, hq, Nat.lt_trans (by decide) hlt, h.root_yields.bind
        ((hfind (hentry.bind (Disk.header_yields hsector path k))).bind (hopen hq)),
        fun heq => absurd heq hroot, fun _ => ⟨e, h.root_yields.bind hentry, rfl⟩⟩

/-! ### Open files -/

/-- **The bytes of a regular file may change** as long as its chain stays linked. -/
theorem written (h : v.Owns k A mapFile root) {x : Owner} (hx : x ∈ A.owners)
    (hfile : x.kind = .file) (hmap : Layout.freeMapSector < x.place.sector)
    (hk : k.Keeps k' (· ∉ x.place.chain)) (hlinked : k'.Linked x.place.chain) :
    v.Owns k' A mapFile root := by
  have hne : x ≠ ⟨.file, mapFile.place⟩ := by
    rintro rfl
    exact absurd h.map_sector (Nat.ne_of_gt hmap)
  exact ⟨h.toGrounded.keeps hk fun s hs => h.ordered.chain_apart hx h.map_owner hne hs,
    hk.sectors ▸ h.sectors_le, h.ordered, h.supports.written h.ordered hx hfile hk hlinked,
    h.map_owner, h.root_owner, hk.sectors ▸ h.used, h.open_files⟩

/-- **A write by id** changes the chain of the owner that the id is open on, and leaves it linked,
whether it succeeds or not. -/
theorem writeId_cases (h : v.Owns k A mapFile root) (hf : v.openFiles.get? id = some f)
    (bytes : Bytes) :
    ∃ x ∈ A.owners, x.place.sector = f.sector ∧ Layout.freeMapSector < f.sector ∧
      ∃ k', k.Keeps k' (· ∉ x.place.chain) ∧ k'.Linked x.place.chain ∧
        ((∃ e, Yields (v.writeId id bytes) k (.error e) k') ∨
          ∃ n, Yields (v.writeId id bytes) k
            (.ok (n, v.setOpen id (f.seek (f.position + n)))) k') := by
  obtain ⟨x, hx, hsector, hheader, hmap⟩ := h.open_files id f hf
  have hbegins := h.supports.begins x hx
  obtain ⟨r, k', hy, hkeep, hlinked, -⟩ := Disk.writeAt_within (f := f) h.dataSize_pos
    hbegins.linked (hheader ▸ hbegins.first) bytes f.position
  refine ⟨x, hx, hsector, hmap, k', hkeep, hlinked, ?_⟩
  cases r with
  | error e =>
    have hwrite : Yields (f.write bytes) k (.error e) k' := by
      rw [Handle.write_eq]
      exact hy.bind_error
    refine .inl ⟨e, ?_⟩
    rw [writeId_eq]
    exact (HandleTable.fetch_yields hf k).bind hwrite.bind_error
  | ok n => exact .inr ⟨n, writeId_of_writeAt hf hy⟩

end Owns

end Volume

/-! ## New files -/

namespace Disk

variable {k : Disk}

/-- A chain with fewer blocks than a table needs has no room for it. -/
theorem mul_lt_of_lt_blocksFor {n size data : Nat} (hdata : 0 < data)
    (h : n < Layout.blocksFor size data) : n * data < size := by
  have hle : (n + 1) * data ≤ size + data - 1 := (Nat.le_div_iff_mul_le hdata).mp h
  rw [Nat.succ_mul] at hle
  omega

/-- **A new file begins in its sectors**, and if it is a directory, its table has no entry; or it is
not written, and only its sectors have changed. Its chain is there as far as it is named. -/
theorem writeNew_cases (hsize : Layout.headerSize ≤ k.sectorSize) (kind : Kind) {s : Nat}
    {h : Header} {c : List Nat} (hs : s < k.sectors) (hsc : s ∉ c) (hlinked : k.Linked (named c))
    (hfirst : h.first.target = (named c).head?) (hblocks : h.blocks = c.length)
    (hcount : c.length = Layout.blocksFor h.length k.dataSize)
    (hdir : kind = .directory → h.length = Layout.directorySize) :
    ∃ r k', Yields (Volume.writeNew kind s h) k r k' ∧ k.Keeps k' (· ∉ s :: c) ∧
      (r = .ok () → k'.Begins ⟨s, h, named c⟩ ∧
        (kind = .directory → k'.Tabled ⟨⟨s, h, named c⟩, .empty Layout.directorySlots⟩)) := by
  have hstore := storeHeader_yields hs h
  have hput := keeps_putHeader k s h
  have hout : s ∉ named c := fun hmem => hsc (named_subset c hmem)
  have hbegins : (k.putHeader s h).Begins ⟨s, h, named c⟩ :=
    ⟨hasHeader_putHeader hsize hs h, hlinked.keeps hput fun t ht heq => hout (heq ▸ ht), hfirst⟩
  have hput' : k.Keeps (k.putHeader s h) (· ∉ s :: c) :=
    hput.mono fun t ht heq => ht (heq ▸ List.mem_cons_self)
  cases kind with
  | file => exact ⟨_, _, hstore.bind (Yields.pure _ _), hput', fun _ => ⟨hbegins, nofun⟩⟩
  | directory =>
    have hopen : Yields (Handle.fetch s) (k.putHeader s h) (.ok ⟨h, s, 0⟩) (k.putHeader s h) :=
      hbegins.header.open_yields
    have hslots : (Directory.empty Layout.directorySlots).slots.length = Layout.directorySlots :=
      List.length_replicate
    have hinner : ∀ {k' : Disk}, (k.putHeader s h).Keeps k' (· ∉ named c) →
        k.Keeps k' (· ∉ s :: c) := fun hkeep =>
      hput'.trans (hkeep.mono fun t ht hmem => ht (List.mem_cons_of_mem _ (named_subset c hmem)))
    -- the table is written if the whole chain is named
    by_cases hall : named c = c
    · rw [hall] at hbegins hinner ⊢
      have hlies : (k.putHeader s h).Lies ⟨s, h, c⟩ :=
        ⟨hbegins.header, hbegins.linked, hbegins.first, hblocks⟩
      have hroom : Layout.directorySize ≤ c.length * (k.putHeader s h).dataSize := by
        rw [hcount, hdir rfl]
        exact le_blocksFor_mul _ hbegins.header.dataSize_pos
      obtain ⟨k', hy, hkeep, htabled⟩ := hlies.store_yields (f := ⟨h, s, 0⟩) rfl hsc
        (Nat.le_of_eq (hdir rfl).symm) hroom hslots
      exact ⟨_, k', hstore.bind (hopen.bind hy), hinner hkeep, fun _ =>
        ⟨htabled.lies.begins, fun _ => htabled⟩⟩
    · have hinitial : named c <+: c := List.takeWhile_prefix _
      have hshort : (named c).length < c.length := Nat.lt_of_le_of_ne hinitial.length_le fun heq =>
        hall (hinitial.eq_of_length heq)
      have hroom : (named c).length * (k.putHeader s h).dataSize < Layout.directorySize := by
        rw [hcount, hdir rfl] at hshort
        exact mul_lt_of_lt_blocksFor hbegins.header.dataSize_pos hshort
      obtain ⟨e, k', hy, hkeep⟩ := hbegins.store_fails (f := ⟨h, s, 0⟩) rfl (hdir rfl) hroom hslots
      exact ⟨_, k', hstore.bind (hopen.bind hy), hinner hkeep, nofun⟩

end Disk

namespace Volume

variable {v : Volume} {k : Disk} {A : Estate} {mapFile : Stored} {root : Place} {path : String}

/-- **Storing the free map** completes a change, when it marks all sectors that have an owner. -/
theorem Grounded.storeMap_yields {m : FreeMap} (h : v.Grounded k mapFile root)
    (hlimit : k.sectors ≤ 0x100000000) (hA : A.Ordered) (hk : k.Supports A)
    (hmap : ⟨.file, mapFile.place⟩ ∈ A.owners) (hroot : ⟨.directory, root⟩ ∈ A.owners)
    (hsize : m.size = k.sectors) (hstored : m.stored = Layout.freeMapSize k.sectors)
    (hused : ∀ x ∈ A.owners, ∀ s ∈ x.place.sectors, m.isUsed s = true)
    (hopen : v.openFiles.OwnedBy A) :
    ∃ k' content, Yields (m.store v.freeMapFile) k (.ok ()) k' ∧
      v.Owns k' A ⟨mapFile.place, content⟩ root := by
  obtain ⟨k', content, hy, hkeep, hfile, hlength, hsame⟩ := Disk.storeMap_yields h.map_file
    h.dataSize_pos h.map_header (hA.outside _ hmap) (hsize ▸ h.map_length) (hsize ▸ hstored)
  rw [hsize, ← hkeep.sectors] at hlength hsame
  exact ⟨k', content, hy, ⟨hkeep.sectorSize ▸ h.headerSize_le, hfile, hlength, h.map_sector,
    h.map_header, h.root_sector, h.root_header⟩, hkeep.sectors ▸ hlimit, hA,
    hk.written hA hmap rfl hkeep hfile.lies.begins.linked, hmap, hroot,
    fun x hx s hs => (hsame s).trans (hused x hx s hs), hopen⟩

/-- **An empty volume has an estate**: the free map file and the root directory. -/
theorem Grounded.exists_owns (h : v.Grounded k mapFile root) (hlimit : k.sectors ≤ 0x100000000)
    (htable : k.Tabled ⟨root, .empty Layout.directorySlots⟩)
    (hnodup : (mapFile.place.sectors ++ root.sectors).Nodup)
    (hused : ∀ s, s ∈ mapFile.place.sectors ∨ s ∈ root.sectors →
      (FreeMap.ofBytes k.sectors mapFile.content).isUsed s = true)
    (hopen : v.openFiles = .empty Layout.maxOpen) : ∃ A, v.Owns k A mapFile root := by
  obtain ⟨hmapOut, hrootOut, hapart⟩ := List.nodup_append.mp hnodup
  have hfresh : ∀ y ∈ (Estate.bare.enlist ⟨.file, mapFile.place⟩).owners,
      ∀ s ∈ y.place.sectors, s ∉ root.sectors := by
    rintro y (rfl | hy) s hs hmem
    · exact hapart s hs s hmem rfl
    · exact hy.elim
  have hA := (Estate.Ordered.bare.enlist (x := ⟨.file, mapFile.place⟩)
    (List.nodup_cons.mp hmapOut).1 fun y hy => hy.elim).enlist (x := ⟨.directory, root⟩)
    (List.nodup_cons.mp hrootOut).1 hfresh
  have hk := ((Disk.Supports.bare k).enlist (x := ⟨.file, mapFile.place⟩) (fun y hy => hy.elim)
    h.map_file.lies.begins nofun).enlist (x := ⟨.directory, root⟩) hfresh htable.lies.begins
    fun _ => htable
  refine ⟨_, h, hlimit, hA, hk, .inr (.inl rfl), .inl rfl, ?_, fun id f hf => ?_⟩
  · rintro y (rfl | rfl | hy) s hs
    · exact hused s (.inr hs)
    · exact hused s (.inl hs)
    · exact hy.elim
  · rw [hopen, HandleTable.get?_empty] at hf
    cases hf

/-- **What comes of a change**: there is an estate again, whether the change succeeds or not, and
what is new in it is not open. -/
def Changes (v : Volume) (k : Disk) (A : Estate) (root : Place) (x : DriveM Unit) : Prop :=
  ∃ r k' A' mapFile, Yields x k r k' ∧ v.Owns k' A' mapFile root ∧
    ∀ y ∈ A'.owners, y ∈ A.owners ∨
      ∀ id f, v.openFiles.get? id = some f → y.place.sector ≠ f.sector

/-- What comes of a change comes of all that ends as it does. -/
theorem Changes.after {k' : Disk} {x y : DriveM Unit} (h : v.Changes k' A root x)
    (hy : ∀ {r k''}, Yields x k' r k'' → Yields y k r k'') : v.Changes k A root y := by
  obtain ⟨r, k'', A', mapFile', hx, hrest⟩ := h
  exact ⟨r, k'', A', mapFile', hy hx, hrest⟩

namespace Owns

/-- A change that fails may write to sectors without an owner. -/
theorem changes_error {k' : Disk} (h : v.Owns k' A mapFile root) {x : DriveM Unit} {e : VolumeError}
    (hy : Yields x k (.error e) k') : v.Changes k A root x :=
  ⟨_, k', A, mapFile, hy, h, fun _ hmem => .inl hmem⟩

/-! ### Making -/

/-- **The entry of a new file is added**, and its sectors are marked; or nothing is written. -/
theorem enroll_changes (h : v.Owns k A mapFile root) (kind : Kind) {p : Place}
    (houtside : p.sector ∉ p.chain)
    (hfresh : ∀ y ∈ A.owners, ∀ s ∈ y.place.sectors, s ∉ p.sectors) (hbegins : k.Begins p)
    (hword : p.sector < 0x100000000) (htabled : kind = .directory → p.sector < Link.limit ∧
      k.Tabled ⟨p, .empty Layout.directorySlots⟩) {m : FreeMap} (hsize : m.size = k.sectors)
    (hstored : m.stored = Layout.freeMapSize k.sectors)
    (hused : ∀ x ∈ (A.enlist ⟨kind, p⟩).owners, ∀ s ∈ x.place.sectors, m.isUsed s = true)
    (path : String) (size : Nat) :
    v.Changes k A root (v.enroll path kind size p.sector (A.tableOf root) m) := by
  have hA : (A.enlist ⟨kind, p⟩).Ordered := h.ordered.enlist houtside hfresh
  have hk : k.Supports (A.enlist ⟨kind, p⟩) :=
    h.supports.enlist hfresh hbegins fun hkind => (htabled hkind).2
  have hmap : ⟨.file, mapFile.place⟩ ∈ (A.enlist ⟨kind, p⟩).owners :=
    Set.mem_insert_of_mem _ h.map_owner
  have hroot : ⟨.directory, root⟩ ∈ (A.enlist ⟨kind, p⟩).owners :=
    Set.mem_insert_of_mem _ h.root_owner
  have hsame : (A.enlist ⟨kind, p⟩).tableOf root = A.tableOf root :=
    Estate.enlist_of_ne (Estate.Ordered.place_ne (x := ⟨kind, p⟩) hfresh h.root_owner)
  obtain ⟨ps, -, hline, hpasses, -⟩ := hA.exists_way path (.ofPath path) (.root hroot h.root_sector)
  have hcases := hk.amend_cases hA hline (hpasses k hk) path h.root_header
    (Directory.insert_setsSlot path kind p.sector)
  rw [hsame, ← Directory.add_eq] at hcases
  rcases hcases with ⟨e, he⟩ |
    ⟨dir', k₁, k₂, w, i, old, new, hy, hstore, hkeep, -, -, ⟨-, rfl⟩, hset⟩
  · exact h.changes_error (he.attempt.bind ((Yields.note _ k).bind (Yields.throw e k)))
  have hlow : Layout.rootSector < p.sector := by
    have hne₀ : p.sector ≠ mapFile.place.sector := fun heq =>
      hfresh _ h.map_owner _ List.mem_cons_self (heq ▸ List.mem_cons_self)
    have hne₁ : p.sector ≠ root.sector := fun heq =>
      hfresh _ h.root_owner _ List.mem_cons_self (heq ▸ List.mem_cons_self)
    rw [h.map_sector, Layout.freeMapSector] at hne₀
    rw [h.root_sector] at hne₁
    unfold Layout.rootSector at hne₁ ⊢
    omega
  have htarget := Link.target_ofSector_eq hword
  have hlead : ∀ {t}, (Link.ofSector p.sector).target = some t → t = p.sector := fun ht =>
    (Option.some.inj (Option.ite_none_right_eq_some.mp (htarget.symm.trans ht)).2).symm
  have hA' : ((A.enlist ⟨kind, p⟩).setSlot w i
      (.ofFile (Slots.lastName (.ofPath path)) kind p.sector)).Ordered := by
    refine hA.setSlot (fun _ t ht => ?_) (fun _ hkind => ?_) fun _ t ht p' i' e' he' hto => ?_
    · obtain rfl := hlead ht
      exact ⟨hlow, p, rfl, Set.mem_insert _ _⟩
    · exact ⟨p.sector, htarget.trans (if_pos (htabled hkind).1)⟩
    -- an old entry leads to an old owner
    · obtain rfl := hlead ht
      obtain ⟨-, q, hq, howner⟩ :=
        h.ordered.leads (Estate.Ordered.entered_of_enlist (x := ⟨kind, p⟩) hfresh he') hto
      exact hfresh _ howner _ List.mem_cons_self (hq ▸ List.mem_cons_self)
  have hground := h.toGrounded.keeps hkeep fun s hs q hq =>
    hA.chain_apart hq hmap nofun hs
  obtain ⟨k₃, content, hy₃, howns⟩ := hground.storeMap_yields (hkeep.sectors ▸ h.sectors_le) hA'
    hset hmap hroot (hsize.trans hkeep.sectors.symm) (hkeep.sectors.symm ▸ hstored) hused
    fun id f hf => (h.open_files id f hf).imp fun x hx => ⟨Set.mem_insert_of_mem _ hx.1, hx.2⟩
  refine ⟨_, k₃, _, _, hy.attempt.bind (hstore.bind (hy₃.bind (Yields.note _ k₃))), howns,
    fun y hmem => (Set.mem_insert_iff.mp hmem).symm.imp_right ?_⟩
  rintro rfl id f hf heq
  obtain ⟨x, hx, hsector, -⟩ := h.open_files id f hf
  exact hfresh x hx _ List.mem_cons_self (hsector.trans heq.symm ▸ List.mem_cons_self)

/-- **A new file takes free sectors**, which have no owner. -/
theorem occupy_changes (h : v.Owns k A mapFile root) (path : String) (kind : Kind) (size : Nat)
    (hdir : kind = .directory → size = Layout.directorySize) :
    v.Changes k A root (v.occupy path kind size (A.tableOf root)
      (.ofBytes k.sectors mapFile.content)) := by
  have hm : (FreeMap.ofBytes k.sectors mapFile.content).size = k.sectors := rfl
  have hstored := FreeMap.stored_ofBytes h.map_length
  have hused := h.used
  generalize FreeMap.ofBytes k.sectors mapFile.content = m at hm hstored hused ⊢
  unfold occupy
  rw [FreeMap.claim?_eq]
  cases hfree : m.free with
  | nil => exact h.changes_error (Yields.throw _ k)
  | cons s rest =>
    dsimp only [List.head?_cons, Option.map_some]
    by_cases hfits : Disk.Fits k (m.mark s) size
    swap
    · exact h.changes_error ((Disk.allocate_full hfits).bind (Yields.throw _ k).bind_error)
    have hmarked : (m.mark s).size = k.sectors := (FreeMap.size_mark m s).trans hm
    obtain ⟨hs, hbehind⟩ := FreeMap.lt_of_free_cons hfree
    rw [hm] at hs
    obtain ⟨k₁, header, hy₁, rfl, hblocks, hcount, hkeep₁, hlinked, hfirst, -⟩ :=
      Disk.allocate_named h.dataSize_pos hmarked hfits
        (FreeMap.lt_of_mem_take_free (hmarked ▸ h.sectors_le))
    rw [FreeMap.free_mark_head hfree] at hy₁ hblocks hcount hkeep₁ hlinked hfirst
    generalize hc : rest.take (Layout.blocksFor header.length k.dataSize) = c at *
    have hbehind' : ∀ t ∈ c, s < t := fun t ht => hbehind t (List.mem_of_mem_take (hc ▸ ht))
    have hnew : ∀ t ∈ s :: c, t ∈ m.free := fun t ht => by
      rw [hfree]
      exact (List.mem_cons.mp ht).elim (· ▸ List.mem_cons_self) fun ht =>
        List.mem_cons_of_mem _ (List.mem_of_mem_take (hc ▸ ht))
    have hfresh : ∀ x ∈ A.owners, ∀ t ∈ x.place.sectors, t ∉ s :: c := fun x hx t ht hmem => by
      have hmark := hused x hx t ht
      rw [(FreeMap.mem_free.mp (hnew t hmem)).2] at hmark
      cases hmark
    have hsc : s ∉ c := fun hmem => Nat.lt_irrefl s (hbehind' s hmem)
    obtain ⟨r, k₂, hy₂, hkeep₂, hmade⟩ := Disk.writeNew_cases
      (hkeep₁.sectorSize ▸ h.headerSize_le) kind (hkeep₁.sectors ▸ hs) hsc hlinked hfirst hblocks
      (hkeep₁.dataSize ▸ hcount) hdir
    have hkeep : k.Keeps k₂ (· ∉ s :: c) :=
      (hkeep₁.mono fun t ht hmem => ht (List.mem_cons_of_mem _ hmem)).trans hkeep₂
    have h₂ := h.keeps hkeep hfresh
    cases r with
    | error e =>
      exact h₂.changes_error (hy₁.bind ((Yields.pure header k₁).bind hy₂.bind_error))
    | ok =>
      obtain ⟨hbegins, htabled⟩ := hmade rfl
      have hsub : ∀ t ∈ s :: Disk.named c, t ∈ s :: c := fun t ht =>
        (List.mem_cons.mp ht).elim (· ▸ List.mem_cons_self) fun ht =>
          List.mem_cons_of_mem _ (Disk.named_subset c ht)
      refine (h₂.enroll_changes kind (p := ⟨s, header, Disk.named c⟩)
        (fun hmem => hsc (Disk.named_subset c hmem))
        (fun x hx t ht hmem => hfresh x hx t ht (hsub t hmem)) hbegins
        (Nat.lt_of_lt_of_le hs h.sectors_le) (fun hkind => ⟨?_, htabled hkind⟩)
        (m := (s :: c).foldl FreeMap.mark m) ?_ ?_ ?_ path header.length).after fun hy =>
          hy₁.bind ((Yields.pure header k₁).bind (hy₂.bind hy))
      -- the table of a directory has a block, whose sector has a link
      · have hroom := (htabled hkind).room
        dsimp only at hroom
        cases hnamed : Disk.named c with
        | nil =>
          rw [hnamed, List.length_nil, Nat.zero_mul] at hroom
          exact absurd hroom (by decide)
        | cons t l =>
          have ht : t ∈ Disk.named c := hnamed ▸ List.mem_cons_self
          exact Nat.lt_trans (hbehind' t (Disk.named_subset c ht)) (Disk.lt_of_mem_named ht)
      · rw [FreeMap.size_foldl_mark, hm, hkeep.sectors]
      · rw [FreeMap.stored_foldl_mark, hstored, hkeep.sectors]
      · intro x hx t ht
        rw [FreeMap.isUsed_foldl_mark fun t ht => (FreeMap.mem_free.mp (hnew t ht)).1]
        rcases Set.mem_insert_iff.mp hx with rfl | hx
        · exact .inr (hsub t ht)
        · exact .inl (hused x hx t ht)

/-- **Making** a file or directory leaves an estate. -/
theorem make_changes (h : v.Owns k A mapFile root) (path : String) (kind : Kind) (size : Nat)
    (hdir : kind = .directory → size = Layout.directorySize) :
    v.Changes k A root (v.make path kind size) := by
  rw [make_eq]
  rcases checkPath_cases k path (.alreadyExists path) with ⟨e, he⟩ | hpath
  · exact h.changes_error he.bind_error
  rcases (A.tableOf root).findEntry_settles k path with ⟨e, he⟩ | ⟨x, hx, -⟩
  · exact h.changes_error (hpath.bind (h.freeMap_yields.bind (h.root_yields.bind
      (he.attempt.bind (Yields.throw _ k)))))
  · exact (h.occupy_changes path kind size hdir).after fun hy => hpath.bind (h.freeMap_yields.bind
      (h.root_yields.bind (hx.attempt.bind hy)))

/-! ### Removing -/

/-- **The entry of a tree is taken out of use**, and its sectors are given back; or nothing is
written. -/
theorem strike_changes (h : v.Owns k A mapFile root) {ps : List Place}
    (hline : A.Line (ps.reverse ++ [root]))
    (hpasses : k.Passes (.ofPath path) (A.tableOf root) (ps.map A.visit)) {w : Place} {e : Entry}
    (hw : (root :: ps).getLast? = some w)
    (he : Directory.entry? (A.tableOf w) (Slots.lastName (.ofPath path)) = some e) {t : Node}
    (ht : k.Bears t) (hkind : e.kind = t.kind) (hto : e.sector? = some t.place.sector)
    {m : FreeMap} (hclears : (FreeMap.ofBytes k.sectors mapFile.content).Clears m t.sectors)
    (hclosed : ∀ y ∈ t.nodes, v.openFiles.holds (placeOf y).sector = false) (kind : Kind) :
    v.Changes k A root (v.strike path kind (A.tableOf root) m) := by
  have hcases := h.supports.amend_cases h.ordered hline hpasses path h.root_header
    (Directory.erase_setsSlot path)
  rw [← Directory.remove_eq] at hcases
  rcases hcases with ⟨x, hx⟩ |
    ⟨dir', k₁, k₂, w', i, old, new, hy, hstore, hkeep, hw', hi, ⟨hindex, hused, rfl⟩, hset⟩
  · exact h.changes_error hx.bind_error
  obtain rfl : w = w' := Option.some.inj (hw.symm.trans hw')
  obtain rfl : e = old := by
    unfold Directory.entry? at he
    unfold Directory.index? at hindex
    rw [List.find?_eq_bind_findIdx?_getElem?, hindex] at he
    exact Option.some.inj (he.symm.trans hi)
  have hentered : A.Entered w i e := ⟨hline.owner_of_getLast? hw, hi, hused⟩
  have hgone := h.supports.owners_of_entered h.ordered ht hentered hkind hto
  have hA := h.supports.ordered_without h.ordered ht hentered hkind hto
  have hmap : (⟨.file, mapFile.place⟩ : Owner) ∉ t.owners := fun hmem =>
    absurd (hgone _ hmem).2 (h.map_sector ▸ by decide)
  have hroot : (⟨.directory, root⟩ : Owner) ∉ t.owners := fun hmem =>
    absurd (hgone _ hmem).2 (h.root_sector ▸ Nat.lt_irrefl _)
  have hground := h.toGrounded.keeps hkeep fun s hs q hq =>
    h.ordered.chain_apart hq h.map_owner nofun hs
  have hstored := FreeMap.stored_ofBytes h.map_length
  have hstays : ∀ x ∈ A.owners \ t.owners, ∀ s ∈ x.place.sectors, m.isUsed s = true := by
    refine fun x hx s hs => (hclears.isUsed s).mpr ⟨h.used x hx.1 s hs, fun hmem => hx.2 ?_⟩
    obtain ⟨y, hy, hsy⟩ := mem_sectorsOf.mp hmem
    have hy' : ⟨kindOf y, placeOf y⟩ ∈ t.owners := ⟨y, hy, rfl⟩
    rwa [h.ordered.apart x hx.1 _ (hgone _ hy').1 s hs hsy]
  have hopen : v.openFiles.OwnedBy
      ((A.setSlot w i { e with inUse := false }).without t.owners) := by
    intro id f hf
    obtain ⟨x, hx, hsector, hrest⟩ := h.open_files id f hf
    refine ⟨x, ⟨hx, ?_⟩, hsector, hrest⟩
    rintro ⟨y, hy, rfl⟩
    have hheld := hclosed y hy
    rw [hsector, HandleTable.holds_of_get? hf] at hheld
    cases hheld
  obtain ⟨k₃, content, hy₃, howns⟩ := hground.storeMap_yields (m := m)
    (hkeep.sectors ▸ h.sectors_le) hA (hset.without t.owners) ⟨h.map_owner, hmap⟩
    ⟨h.root_owner, hroot⟩ (hclears.size.trans hkeep.sectors.symm)
    (hkeep.sectors.symm ▸ hclears.stored.trans hstored) hstays hopen
  exact ⟨_, k₃, _, _, hy.bind (hstore.bind (hy₃.bind (Yields.note _ k₃))), howns,
    fun y hmem => .inl hmem.1⟩

/-- What an entry leads to is released and removed; or nothing is written. -/
theorem withdraw_changes (h : v.Owns k A mapFile root) {ps : List Place}
    (hline : A.Line (ps.reverse ++ [root]))
    (hpasses : k.Passes (.ofPath path) (A.tableOf root) (ps.map A.visit)) {w : Place} {e : Entry}
    (hw : (root :: ps).getLast? = some w)
    (he : Directory.entry? (A.tableOf w) (Slots.lastName (.ofPath path)) = some e)
    (recursive : Bool) :
    v.Changes k A root (do
      let s ← e.header path
      checkEmpty e path recursive
      let m ← v.releaseTree Directory.depthLimit path e.kind s
        (.ofBytes k.sectors mapFile.content)
      v.strike path e.kind (A.tableOf root) m) := by
  cases hsector : e.sector? with
  | none =>
    exact h.changes_error (Disk.header_fails hsector path k).bind_error
  | some s =>
    have hheader := Disk.header_yields hsector path k
    rcases checkEmpty_settles k e path recursive with ⟨_, hempty⟩ | ⟨x, hempty, -⟩
    swap
    · exact h.changes_error (hheader.bind hempty.bind_error)
    rcases Disk.releaseTree_cases k v Directory.depthLimit path e.kind s _ with
      ⟨t, m, ht, hkind, rfl, hclears, hclosed, hy⟩ | ⟨x, hy, -⟩
    · have hstruck :=
        h.strike_changes hline hpasses hw he ht hkind.symm hsector hclears hclosed e.kind
      exact hstruck.after fun hstrike => hheader.bind (hempty.bind (hy.bind hstrike))
    · exact h.changes_error (hheader.bind (hempty.bind hy.bind_error))

/-- **Removing** a file or directory leaves an estate. -/
theorem remove_changes (h : v.Owns k A mapFile root) (path : String) (recursive : Bool) :
    v.Changes k A root (v.remove path recursive) := by
  rw [remove_eq]
  rcases checkPath_cases k path (.invalidPath path) with ⟨x, hx⟩ | hpath
  · exact h.changes_error hx.bind_error
  obtain ⟨ps, res, hline, hpasses, hfollow, hlast⟩ :=
    h.ordered.exists_way path (.ofPath path) h.line
  have hentry : Yields ((A.tableOf root).findEntry path) k res k := hfollow k h.supports
  cases res with
  | error x =>
    exact h.changes_error (hpath.bind (h.freeMap_yields.bind (h.root_yields.bind
      hentry.bind_error)))
  | ok e =>
    obtain ⟨w, hw, he⟩ := hlast e rfl
    exact (h.withdraw_changes hline (hpasses k h.supports) hw he recursive).after fun hy =>
      hpath.bind (h.freeMap_yields.bind (h.root_yields.bind (hentry.bind hy)))

end Owns

end Volume

end SectorChain
