import SectorChain.Proofs.Amending
import SectorChain.Proofs.Namespace

/-!
# Removing under faults

Taking something away is safe whatever access fails: its entry goes first, in one byte, and the
free map is stored last, so that at any moment every sector that belongs to a file is marked.

`Disk.Intact k inv` is the state that is kept: what is in the inventory is on the disk, its sectors
are all different and marked. More sectors may be marked.

Results:
* `Carries.release_survives`: what was given back when the release of a tree succeeds.
* `strike_survives`: erasing an entry and storing the map.
* `remove_survives`: the tree is as before, or without what is at the path.
* `remove_intact`: so removing leaves an intact disk, whether it answers or fails.
-/

namespace SectorChain

/-! ## What is kept -/

/-- **What is in the inventory is on the disk**, in sectors that are all different and marked. -/
structure Disk.Intact (k : Disk) (inv : Inventory) : Prop where
  map_file : k.HasFile inv.mapFile.place inv.mapFile.content
  map_sector : inv.mapFile.place.sector = Layout.freeMapSector
  root_sector : inv.root.sector = Layout.rootSector
  carried : k.Carries inv.tree
  nodup : inv.sectors.Nodup
  marked : ∀ s ∈ inv.sectors, (inv.freeMap k.sectors).isUsed s = true

/-- The volume was mounted from the disk. Which files are open by id does not matter. -/
structure Volume.MountedOn (v : Volume) (k : Disk) (inv : Inventory) : Prop where
  headerSize_le : Layout.headerSize ≤ k.sectorSize
  map_length : inv.mapFile.content.length = Layout.freeMapSize k.sectors
  map_header : v.freeMapFile.header = inv.mapFile.place.header
  root_header : v.rootFile.header = inv.root.header

/-- The marks of `m`, but for some in `l` that are cleared. -/
structure FreeMap.Frees (m m' : FreeMap) (l : List Nat) : Prop where
  size : m'.size = m.size
  stored : m'.stored = m.stored
  isUsed : ∀ s ∉ l, m'.isUsed s = m.isUsed s

namespace FreeMap.Frees

variable {m m' m'' : FreeMap} {l l' : List Nat}

theorem foldl_clear (m : FreeMap) (l : List Nat) : m.Frees (l.foldl clear m) l where
  size := size_foldl_clear m l
  stored := stored_foldl_clear m l
  isUsed s hs := by
    rw [Bool.eq_iff_iff, isUsed_foldl_clear, and_iff_left hs]

theorem mono (h : m.Frees m' l) (hl : l ⊆ l') : m.Frees m' l' :=
  ⟨h.size, h.stored, fun s hs => h.isUsed s fun hmem => hs (hl hmem)⟩

theorem trans (h : m.Frees m' l) (h' : m'.Frees m'' l) : m.Frees m'' l :=
  ⟨h'.size.trans h.size, h'.stored.trans h.stored,
    fun s hs => (h'.isUsed s hs).trans (h.isUsed s hs)⟩

end FreeMap.Frees

/-! ## Releasing a tree -/

namespace Disk

variable {F : Faults} {k k' : Disk} {v : Volume} {m : FreeMap} {t : Node}

/-- The sectors of one file are given back, the header last. -/
theorem HasFile.release_survives {p : Place} {content : Bytes} (h : k.HasFile p content)
    (m : FreeMap) (path : String) :
    Survives F (releaseFile path p.sector m) k
      (fun m' k' => k' = k ∧ m.Frees m' p.sectors) (fun _ k' => k' = k) := by
  refine Survives.read (Header.fetch_candid _) h.header.fetch_yields (fun _ _ => rfl) ?_
  have hrelease : Survives F (p.header.release m) k
      (fun m' k' => k' = k ∧ m.Frees m' p.chain) (fun _ k' => k' = k) := by
    rw [Header.release_eq]
    refine Survives.read (Header.chain_candid _) h.chained.chain_yields (fun _ _ => rfl) ?_
    split
    · exact Survives.throw rfl
    · refine (Survives.note _).bind fun _ k' hk' => ?_
      exact Survives.pure ⟨hk', .foldl_clear m p.chain⟩
  refine hrelease.bind ?_
  rintro m' k' ⟨rfl, hm⟩
  split
  · exact Survives.pure ⟨rfl, (hm.mono (List.subset_cons_self _ _)).trans
      ((FreeMap.Frees.foldl_clear m' [p.sector]).mono (by simp))⟩
  · exact Survives.throw rfl

/-- The trees in the slots, one after the other. -/
theorem releaseAll_survives (depth : Nat) (path : String) {cs : List (Entry × Node)}
    (hlead : ∀ c ∈ cs, c.1.kind = c.2.kind ∧ c.1.sector? = some c.2.place.sector)
    (hrelease : ∀ c ∈ cs, ∀ path m, Survives F
      (v.releaseTree depth path c.2.kind c.2.place.sector m) k
      (fun m' k' => k' = k ∧ m.Frees m' c.2.sectors) (fun _ k' => k' = k)) (m : FreeMap) :
    Survives F (releaseAll v depth path (cs.map Prod.fst) m) k
      (fun m' k' => k' = k ∧ m.Frees m' (cs.flatMap fun c => c.2.sectors))
      (fun _ k' => k' = k) := by
  induction cs generalizing m with
  | nil => exact Survives.pure ⟨rfl, .foldl_clear m []⟩
  | cons c rest ih =>
    obtain ⟨hkind, hsector⟩ := hlead c List.mem_cons_self
    rw [List.map_cons, List.flatMap_cons]
    unfold releaseAll at ih ⊢
    rw [List.foldlM_cons, hkind]
    refine Survives.bind (Q := fun m' k' => k' = k ∧ m.Frees m' c.2.sectors) ?_ ?_
    · exact Survives.read (c.1.header_candid _) (header_yields hsector _ k) (fun _ _ => rfl)
        (hrelease c List.mem_cons_self _ m)
    · rintro m' k' ⟨rfl, hm⟩
      refine (ih (fun d hd => hlead d (List.mem_cons_of_mem _ hd))
        (fun d hd => hrelease d (List.mem_cons_of_mem _ hd)) m').mono ?_ fun _ _ => id
      rintro m'' k'' ⟨rfl, hm'⟩
      exact ⟨rfl, (hm.mono (List.subset_append_left _ _)).trans
        (hm'.mono (List.subset_append_right _ _))⟩

/-- A file that is open is not released. -/
theorem releaseTree_refused (depth : Nat) (path : String) (kind : Kind) {s : Nat} (m : FreeMap)
    (h : v.openFiles.holds s = true) {Q : FreeMap → Disk → Prop} :
    Survives F (v.releaseTree (depth + 1) path kind s m) k Q (fun _ k' => k' = k) := by
  unfold Volume.releaseTree
  rw [if_pos h]
  refine (Survives.note _).bind fun _ k' hk' => ?_
  exact (Survives.throw (Q := fun _ _ => False) hk').bind fun _ _ => False.elim

/-- **A release that succeeds** has cleared no mark but those of the tree. -/
theorem Carries.release_survives (h : k.Carries t) (hk : 0 < k.dataSize) (depth : Nat)
    (path : String) (m : FreeMap) :
    Survives F (v.releaseTree depth path t.kind t.place.sector m) k
      (fun m' k' => k' = k ∧ m.Frees m' t.sectors) (fun _ k' => k' = k) := by
  induction h generalizing depth path m with
  | @file f hfile =>
    cases depth with
    | zero => exact Survives.throw rfl
    | succ depth =>
      cases hopen : v.openFiles.holds f.place.sector with
      | true => exact releaseTree_refused depth path .file m hopen
      | false =>
        show Survives F (v.releaseTree (depth + 1) path .file f.place.sector m) k _ _
        rw [releaseTree_file depth path _ m hopen, Tree.sectors_file]
        exact hfile.release_survives m path
  | @directory p slots table content hfile hin hshows _ ih =>
    cases depth with
    | zero => exact Survives.throw rfl
    | succ depth =>
      cases hopen : v.openFiles.holds p.sector with
      | true => exact releaseTree_refused depth path .directory m hopen
      | false =>
        show Survives F (v.releaseTree (depth + 1) path .directory p.sector m) k _ _
        rw [releaseTree_directory depth path _ m hopen, Tree.sectors_directory, Slots.sectors_eq]
        refine Survives.read (Handle.fetch_candid _) hfile.open_yields (fun _ _ => rfl) ?_
        refine Survives.read (Directory.fetch_candid _) (hfile.fetch_yields hk rfl hin)
          (fun _ _ => rfl) ?_
        rw [hshows.entries]
        refine Survives.bind (releaseAll_survives depth path
          (fun c hc => hshows.leads _ _ (Slots.mem_children.mp hc))
          (fun c hc path m => ih _ _ (Slots.mem_children.mp hc) depth path m) m) ?_
        rintro m' k' ⟨rfl, hm⟩
        refine (hfile.release_survives m' path).mono ?_ fun _ _ => id
        rintro m'' k' ⟨rfl, hm'⟩
        exact ⟨rfl, (hm.mono (List.subset_append_right _ _)).trans
          (hm'.mono (List.subset_append_left _ _))⟩

end Disk

/-! ## Erasing an entry -/

namespace Directory

variable {dir : Directory} {slots slots' : NodeSlots}

/-- **Erasure from a table** takes the entry of the tree out of use. -/
theorem erase_yields (h : dir.Shows slots) (path : String) {n : String}
    (hok : Slots.erase Entry.name path slots n = .ok slots') :
    ∃ i e, dir.slots[i]? = some e ∧ e.inUse = true ∧
      (∀ k, Yields (dir.erase path n) k (.ok (dir.erased i)) k) ∧ (dir.erased i).Shows slots' := by
  obtain ⟨i, e, t, hfind, rfl⟩ := Slots.erase_eq_ok hok
  obtain ⟨hget, hused⟩ := h.getElem? (Slots.find?_eq_some hfind).1
  refine ⟨i, e, hget, hused, fun k => ?_, ?_⟩
  · rw [Directory.erase_eq]
    rw [Disk.index?_eq h, hfind]
    exact (Yields.note _ k).bind (Yields.pure _ k)
  · rw [erased_eq hget]
    exact h.set i rfl (by rintro _ _ ⟨⟩)

end Directory

namespace Disk

variable {F : Faults} {k k' : Disk} {inv : Inventory} {path : String} {e : Entry} {t : Node}
  {slots : NodeSlots}

namespace Intact

theorem nodup_tree (h : k.Intact inv) : inv.tree.sectors.Nodup :=
  (Inventory.nodup_split h.nodup).2.1

/-- The sectors of the free map are apart from those of the tree. -/
theorem apart (h : k.Intact inv) {s : Nat} (hs : s ∈ inv.mapFile.place.sectors) :
    s ∉ inv.tree.sectors :=
  (Inventory.nodup_split h.nodup).2.2 s hs

/-- **Erasing an entry** takes what is at the path from the tree, or fails with the tree as it was
or without it. -/
theorem erase_survives (h : k.Intact inv) (hk : 0 < k.dataSize) {f : Handle}
    (hf : f.header = inv.root.header) {dir : Directory} {content : Bytes}
    (hfile : k.HasFile inv.root content) (hin : dir.IsIn content) (hshows : dir.Shows inv.slots)
    (hall : k.CarriesAll inv.slots) (herase : inv.erase path = .ok slots) :
    Survives F (Directory.amend path (fun inner n => inner.erase path n) (.ofPath path) f dir) k
      (fun _ k' => k.Keeps k' (· ∉ inv.tree.sectors) ∧ k'.Carries (.directory inv.root slots))
      (fun _ k' => k.Keeps k' (· ∉ inv.tree.sectors) ∧
        (k'.Carries inv.tree ∨ k'.Carries (.directory inv.root slots))) := by
  obtain ⟨q, s, s', hparent, hedit⟩ := Slots.exists_parent herase inv.root
  obtain ⟨old, table, hq, htable, hshows₁⟩ := h.carried.parent_table hparent
  obtain ⟨i, e, hget, hused, hy, hshows'⟩ := Directory.erase_yields hshows₁ path hedit
  obtain ⟨hfull, htorn⟩ := htable.torn_erased hget hused
  have hsub : ∀ e t, some (e, t) ∈ s' → some (e, t) ∈ s := fun e t ht => by
    obtain ⟨i, e', t', -, rfl⟩ := Slots.erase_eq_ok hedit
    exact Slots.mem_of_mem_set_none ht
  refine (amend_survives hk hf hfile hin hshows hall h.nodup_tree hparent hq htable
    (table.erase_candid path _) (hy k)).mono ?_ ?_
  · rintro - k' ⟨hkeep, hswap⟩
    exact ⟨hkeep, h.carried.amended hswap h.nodup_tree hparent hedit hfull hshows' hsub herase⟩
  · rintro x k' ⟨-, hkeep, n, hswap⟩
    refine ⟨hkeep, ?_⟩
    rcases htorn n with hold | hnew
    · exact .inl (h.carried.amended hswap h.nodup_tree hparent rfl hold hshows₁ (fun _ _ => id)
        (Slots.change_self path hparent))
    · exact .inr (h.carried.amended hswap h.nodup_tree hparent hedit hnew hshows' hsub herase)

/-- With a tree that has no other sectors than before, the disk is intact again. -/
theorem changed (h : k.Intact inv) (hkeep : k.Keeps k' (· ∉ inv.tree.sectors))
    (hcarried : k'.Carries (.directory inv.root slots)) {l : List Nat}
    (hperm : inv.sectors.Perm ((⟨inv.mapFile, inv.root, slots⟩ : Inventory).sectors ++ l)) :
    k'.Intact ⟨inv.mapFile, inv.root, slots⟩ where
  map_file := h.map_file.keeps hkeep fun _ => h.apart
  map_sector := h.map_sector
  root_sector := h.root_sector
  carried := hcarried
  nodup := (List.nodup_append.mp (hperm.nodup_iff.mp h.nodup)).1
  marked s hs := by
    rw [hkeep.sectors]
    exact h.marked s (hperm.mem_iff.mpr (List.mem_append_left _ hs))

/-- With another map that marks what belongs to a file, the disk is intact again. -/
theorem remapped (h : k.Intact inv) (hkeep : k.Keeps k' (· ∉ inv.mapFile.place.chain))
    {content : Bytes} (hfile : k'.HasFile inv.mapFile.place content)
    (hmarked : ∀ s ∈ inv.sectors, (FreeMap.ofBytes k.sectors content).isUsed s = true) :
    k'.Intact ⟨⟨inv.mapFile.place, content⟩, inv.root, inv.slots⟩ where
  map_file := hfile
  map_sector := h.map_sector
  root_sector := h.root_sector
  carried := by
    have hkeeps : ∀ x ∈ inv.tree.nodes, ∀ content, k.HasFile (placeOf x) content →
        k'.HasFile (placeOf x) content := fun x hx content hfile =>
      hfile.keeps hkeep fun s hs hmem => h.apart (List.mem_cons_of_mem _ hmem)
        (mem_sectorsOf.mpr ⟨x, hx, hs⟩)
    exact h.carried.of_files (fun f hf => hkeeps (.inl f) hf _)
      fun p hp table content hfile hin => ⟨content, hkeeps (.inr p) hp _ hfile, hin⟩
  nodup := h.nodup
  marked s hs := by
    rw [hkeep.sectors]
    exact hmarked s hs

end Intact

/-- What is found is on the disk, and its entry leads there. -/
theorem found_carried {dir : Directory} (h : dir.Shows slots) (hall : k.CarriesAll slots)
    {r : Route} (hfound : Slots.follow Entry.name path r slots = .ok (e, t)) :
    k.Carries t ∧ e.kind = t.kind ∧ e.sector? = some t.place.sector := by
  obtain ⟨s, ⟨hs, dir', hdir⟩, ht, -⟩ := Slots.follow_induction
    (P := fun s => k.CarriesAll s ∧ ∃ dir : Directory, dir.Shows s)
    (fun {slots e b inner} hs ht => by
      cases hs.1 e _ ht with
      | directory table _ _ hshows hbelow => exact ⟨hbelow, table, hshows⟩)
    ⟨hall, dir, h⟩ hfound
  exact ⟨hs e t ht, hdir.leads e t ht⟩

end Disk

/-! ## Removing -/

namespace Volume

variable {F : Faults} {v : Volume} {k k' : Disk} {inv : Inventory} {path : String} {e : Entry}
  {t : Node} {slots : NodeSlots}

/-- The disk is intact with these slots, and the volume is still mounted from it. -/
def Leaves (v : Volume) (inv : Inventory) (slots : NodeSlots) (k : Disk) : Prop :=
  ∃ content, k.Intact ⟨⟨inv.mapFile.place, content⟩, inv.root, slots⟩ ∧
    v.MountedOn k ⟨⟨inv.mapFile.place, content⟩, inv.root, slots⟩

theorem MountedOn.leaves (h : v.MountedOn k inv) (hk : k.SameSize k') {content : Bytes}
    (hlen : content.length = Layout.freeMapSize k.sectors)
    (hintact : k'.Intact ⟨⟨inv.mapFile.place, content⟩, inv.root, slots⟩) :
    v.Leaves inv slots k' :=
  ⟨content, hintact, hk.sectorSize ▸ h.headerSize_le, hk.sectors ▸ hlen, h.map_header,
    h.root_header⟩

theorem strike_eq (v : Volume) (path : String) (kind : Kind) (root : Directory) (m : FreeMap) :
    v.strike path kind root m = (do
      Directory.amend path (fun inner n => inner.erase path n) (.ofPath path) v.rootFile root
      m.store v.freeMapFile
      Drive.note (.removed kind path)) := by
  unfold strike Directory.amend
  rw [Directory.remove_eq]
  rw [bind_assoc]

/-- **An entry is erased** and a map stored in which only the sectors of its tree are given back:
the disk is intact without that tree, or the operation fails with the disk intact, with the tree or
without it. -/
theorem strike_survives (h : k.Intact inv) (hv : v.MountedOn k inv) {dir : Directory}
    {content : Bytes} (hfile : k.HasFile inv.root content) (hin : dir.IsIn content)
    (hshows : dir.Shows inv.slots) (hall : k.CarriesAll inv.slots)
    (hfind : inv.find path = .ok (e, t)) (herase : inv.erase path = .ok slots) {m : FreeMap}
    (hm : (inv.freeMap k.sectors).Frees m t.sectors) (kind : Kind) :
    Survives F (v.strike path kind dir m) k (fun _ k' => v.Leaves inv slots k')
      (fun _ k' => v.Leaves inv inv.slots k' ∨ v.Leaves inv slots k') := by
  have hk := Disk.dataSize_pos hv.headerSize_le
  have hperm := Inventory.erase_sectors herase hfind inv.mapFile.content
  have hsize : m.size = k.sectors := hm.size
  have hstored : m.stored = Layout.freeMapSize m.size := by
    rw [hm.stored, hsize]
    exact FreeMap.stored_ofBytes hv.map_length
  have hmarked : ∀ s ∈ (⟨inv.mapFile, inv.root, slots⟩ : Inventory).sectors,
      (inv.freeMap k.sectors).isUsed s = true ∧ m.isUsed s = true := by
    intro s hs
    have hold := h.marked s (hperm.mem_iff.mpr (List.mem_append_left _ hs))
    refine ⟨hold, (hm.isUsed s fun hmem => ?_).trans hold⟩
    exact (List.nodup_append.mp (hperm.nodup_iff.mp h.nodup)).2.2 s hs s hmem rfl
  rw [strike_eq]
  refine Survives.bind ((h.erase_survives hk hv.root_header hfile hin hshows hall herase).mono
    (fun _ _ => id) ?_) ?_
  · rintro x k₁ ⟨hkeep, hcarried | hcarried⟩
    · exact .inl (hv.leaves hkeep.sameSize hv.map_length
        (h.changed (l := []) hkeep hcarried (.of_eq (List.append_nil _).symm)))
    · exact .inr (hv.leaves hkeep.sameSize hv.map_length (h.changed hkeep hcarried hperm))
  · rintro - k₁ ⟨hkeep, hcarried⟩
    have h₁ := h.changed hkeep hcarried hperm
    have hsectors := hsize.trans hkeep.sectors.symm
    obtain ⟨hmapNodup, -, -⟩ := Inventory.nodup_split h.nodup
    have hlen : inv.mapFile.content.length = Layout.freeMapSize m.size := hsize ▸ hv.map_length
    refine Survives.bind ((Disk.storeMap_survives h₁.map_file (hkeep.dataSize ▸ hk) hv.map_header
      (List.nodup_cons.mp hmapNodup).1 hlen hstored).mono (fun _ _ => id) ?_) ?_
    · rintro x k₂ ⟨-, hkeep₂, content', hfile₂, hlen₂, hmarks⟩
      refine .inr (hv.leaves (hkeep.sameSize.trans hkeep₂.sameSize) (hsize ▸ hlen₂)
        (h₁.remapped hkeep₂ hfile₂ fun s hs => ?_))
      obtain ⟨hold, hnew⟩ := hmarked s hs
      rw [← hsectors]
      rcases hmarks s with heq | heq
      · rw [heq, hnew]
      · rw [heq, hsize]
        exact hold
    · rintro - k₂ ⟨hkeep₂, content', hfile₂, hlen₂, hmarks⟩
      refine (Survives.note _).mono ?_ fun _ _ => id
      rintro - k₃ rfl
      refine hv.leaves (hkeep.sameSize.trans hkeep₂.sameSize) (hsize ▸ hlen₂)
        (h₁.remapped hkeep₂ hfile₂ fun s hs => ?_)
      rw [← hsectors, hmarks]
      exact (hmarked s hs).2

theorem exists_of_map {α β : Type} {f : α → β} {r : Except VolumeError α} {b : β}
    (h : r.map f = .ok b) : ∃ a, r = .ok a ∧ f a = b := by
  cases r with
  | ok a =>
    cases h
    exact ⟨a, rfl, rfl⟩
  | error e => cases h

theorem checkEmpty_still (entry : Entry) (path : String) (recursive : Bool) :
    Still (checkEmpty entry path recursive) := by
  unfold checkEmpty
  split
  · refine (Directory.enter_still entry path).bind fun p => ?_
    dsimp only
    split
    · exact Still.throw _
    · exact Still.pure _
  · exact Still.pure _

/-- **Removing leaves the disk intact, whatever access fails**: without what is at the path, or as
it was if there is an error. -/
theorem remove_survives (h : k.Intact inv) (hv : v.MountedOn k inv) (path : String)
    (recursive : Bool) :
    Survives F (v.remove path recursive) k
      (fun _ k' => ∃ e t slots, inv.find path = .ok (e, t) ∧ inv.erase path = .ok slots ∧
        v.Leaves inv slots k')
      (fun _ k' => v.Leaves inv inv.slots k' ∨ ∃ e t slots, inv.find path = .ok (e, t) ∧
        inv.erase path = .ok slots ∧ v.Leaves inv slots k') := by
  have hk := Disk.dataSize_pos hv.headerSize_le
  have hsame : v.Leaves inv inv.slots k := hv.leaves (Disk.Keeps.refl k _) hv.map_length h
  cases h.carried with
  | directory dir hfile hin hshows hall =>
  rw [remove_eq]
  refine Survives.bind ((Survives.still (checkPath_candid path _).still).mono (fun _ _ => id) ?_) ?_
  · rintro x k' rfl
    exact .inl hsame
  rintro - k' rfl
  refine Survives.read v.freeMap_candid ((Yields.sectors k').bind
    (Disk.fetchMap_yields h.map_file hk hv.map_header hv.map_length)) (fun _ _ => .inl hsame) ?_
  refine Survives.read v.root_candid (hfile.fetch_yields hk hv.root_header hin)
    (fun _ _ => .inl hsame) ?_
  refine Survives.bind (((dir.follow_candid path (.ofPath path)).survives
    (Disk.route_yields hk hshows hall path _)).mono (fun _ _ => id) ?_) ?_
  · rintro x k'' ⟨rfl, -⟩
    exact .inl hsame
  rintro e k'' ⟨rfl, hfound⟩
  obtain ⟨⟨e', t⟩, hfind, rfl⟩ := exists_of_map hfound
  obtain ⟨ht, hkind, hsector⟩ := Disk.found_carried hshows hall hfind
  obtain ⟨slots, herase⟩ := Inventory.erase_ok hfind
  refine Survives.read (e'.header_candid path) (Disk.header_yields hsector path _)
    (fun _ _ => .inl hsame) ?_
  refine Survives.bind ((Survives.still (checkEmpty_still _ path recursive)).mono
    (fun _ _ => id) ?_) ?_
  · rintro x k'' rfl
    exact .inl hsame
  rintro - k'' rfl
  rw [hkind]
  refine Survives.bind ((ht.release_survives hk _ path _).mono (fun _ _ => id) ?_) ?_
  · rintro x k'' rfl
    exact .inl hsame
  rintro m k'' ⟨rfl, hm⟩
  refine (strike_survives h hv hfile hin hshows hall hfind herase hm t.kind).mono ?_ ?_
  · exact fun _ k' hk' => ⟨e', t, slots, hfind, herase, hk'⟩
  · exact fun _ k' hk' => hk'.imp_right fun hk' => ⟨e', t, slots, hfind, herase, hk'⟩

/-! ## Mounted volumes -/

/-- What a run without faults has made is intact. -/
theorem Consistent.intact (h : v.Consistent k inv) : k.Intact inv ∧ v.MountedOn k inv :=
  ⟨⟨h.map_file, h.map_sector, h.root_sector, h.held.carries, h.nodup,
    fun s hs => (h.used s).mpr hs⟩,
    ⟨h.headerSize_le, h.map_length, h.map_header, h.root_header⟩⟩

theorem checkGeometry_candid : Candid checkGeometry := by
  have hrun : ∀ d, checkGeometry d = ended (d.device.checkGeometry.mapError .io) d := by
    intro d
    cases h : d.device.checkGeometry <;>
      simp only [checkGeometry, bind, EStateM.bind, Drive.get_eq, h] <;> rfl
  refine ⟨fun d => ?_, fun d => .inr ⟨_, d, hrun d, hrun d.calm⟩, fun d => ⟨[], ?_⟩⟩
  · rw [hrun]
    cases d.device.checkGeometry <;> exact ⟨rfl, rfl⟩
  · rw [hrun]
    cases d.device.checkGeometry <;> exact .refl d

/-- **Removing is safe**: begun on an intact disk from which the volume was mounted, on a drive
with any faults, it leaves such a disk, whether it answers or fails. The free map is where it was,
and so is the root directory. What is in its slots is as before, which only happens with an error,
or it is what there was without the node at the path: everything outside that node is where it was,
with the same kind, length and bytes. -/
theorem remove_intact {d : Drive} (hd : d.device.Reliable) (h : d.disk.Intact inv)
    (hv : v.MountedOn d.disk inv) (path : String) (recursive : Bool) :
    (driveAfter (v.remove path recursive d)).device.Reliable ∧
      ∃ inv', (driveAfter (v.remove path recursive d)).disk.Intact inv' ∧
        v.MountedOn (driveAfter (v.remove path recursive d)).disk inv' ∧
        inv'.mapFile.place = inv.mapFile.place ∧ inv'.root = inv.root ∧
        ((inv'.slots = inv.slots ∧ ∃ e d', v.remove path recursive d = .error e d') ∨
          ∃ e t, inv.find path = .ok (e, t) ∧ inv.erase path = .ok inv'.slots ∧
            inv.tree.nodes.Perm (inv'.tree.nodes ++ t.nodes)) := by
  have herased : ∀ {e t slots} {k : Disk}, inv.find path = .ok (e, t) →
      inv.erase path = .ok slots → v.Leaves inv slots k → ∃ inv', k.Intact inv' ∧
        v.MountedOn k inv' ∧ inv'.mapFile.place = inv.mapFile.place ∧ inv'.root = inv.root ∧
        ∃ e t, inv.find path = .ok (e, t) ∧ inv.erase path = .ok inv'.slots ∧
          inv.tree.nodes.Perm (inv'.tree.nodes ++ t.nodes) := by
    rintro e t slots k hfind herase ⟨content, hintact, hmounted⟩
    exact ⟨_, hintact, hmounted, rfl, rfl, e, t, hfind, herase,
      Inventory.erase_nodes herase hfind ⟨inv.mapFile.place, content⟩⟩
  obtain ⟨hreliable, hok, herror⟩ := (remove_survives h hv path recursive).of_run hd rfl rfl
  refine ⟨hreliable, ?_⟩
  cases hrun : v.remove path recursive d with
  | ok a d' =>
    obtain ⟨e, t, slots, hfind, herase, hleaves⟩ := hok a d' hrun
    obtain ⟨inv', hintact, hmounted, hplace, hroot, hwithout⟩ := herased hfind herase hleaves
    exact ⟨inv', hintact, hmounted, hplace, hroot, .inr hwithout⟩
  | error x d' =>
    rcases herror x d' hrun with hleaves | ⟨e, t, slots, hfind, herase, hleaves⟩
    · obtain ⟨content, hintact, hmounted⟩ := hleaves
      exact ⟨_, hintact, hmounted, rfl, rfl, .inl ⟨rfl, x, d', rfl⟩⟩
    · obtain ⟨inv', hintact, hmounted, hplace, hroot, hwithout⟩ := herased hfind herase hleaves
      exact ⟨inv', hintact, hmounted, hplace, hroot, .inr hwithout⟩

/-- A file is removed while every write fails. -/
theorem remove_intact_created : ∃ v : Volume, ∃ d inv, (∀ t s, d.faults t (.write s) = true) ∧
    d.device.Reliable ∧ d.disk.Intact inv ∧ v.MountedOn d.disk inv ∧
    ∃ inv', (driveAfter (v.remove "/a" true d)).disk.Intact inv' ∧
      inv'.mapFile.place = inv.mapFile.place ∧ inv'.root = inv.root := by
  obtain ⟨-, -, u, -, inv, -, -, -, hu, -⟩ := Usage.exists_created
  let d : Drive := { u.drive with faults := fun _ a => a matches .write _ }
  have hd : d.device.Reliable := hu.fault_free.reliable
  have hk : u.volume.Consistent d.disk inv := hu.consistent
  obtain ⟨hintact, hmounted⟩ := hk.intact
  obtain ⟨-, inv', hintact', -, hplace, hroot, -⟩ := remove_intact hd hintact hmounted "/a" true
  exact ⟨u.volume, d, inv, fun _ _ => rfl, hd, hintact, hmounted, inv', hintact', hplace, hroot⟩

end Volume

end SectorChain
