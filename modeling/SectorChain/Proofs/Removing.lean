import SectorChain.Proofs.Making

/-!
# Removing files and directories

What is removed is looked up and released in the free map first; nothing is written before the
entry is taken out of use. The directories on the path are stored then, and the free map last.

Results:
* `remove_refused`, `remove_missing`, `remove_occupied`, `remove_open`: what is not removed, and
  leaves the disk as it is.
* `remove_yields`: anything else is erased from the slots with all that is below it, and just its
  sectors are free.
-/

namespace SectorChain

/-- A directory with something in its slots. -/
def Tree.occupied : Tree Stored Place Entry → Bool
  | .file _ => false
  | .directory _ slots => !(Slots.children slots).isEmpty

namespace Volume

/-! ## The stages of `remove` -/

/-- Refuse a directory with an entry in use, unless `recursive`. -/
def checkEmpty (entry : Entry) (path : String) (recursive : Bool) : DriveM Unit := do
  if entry.kind = .directory ∧ !recursive then
    let (_, dir) ← Directory.enter entry path
    if !dir.isEmpty then throw (.directoryNotEmpty path)

/-- Take an entry out of use, and store the free map. -/
def strike (v : Volume) (path : String) (kind : Kind) (root : Directory) (m : FreeMap) :
    DriveM Unit := do
  let root ← root.remove path
  root.store v.rootFile
  m.store v.freeMapFile
  Drive.note (.removed kind path)

theorem remove_eq (v : Volume) (path : String) (recursive : Bool) :
    v.remove path recursive = (do
      checkPath path (.invalidPath path)
      let m ← v.freeMap
      let root ← v.root
      let entry ← root.findEntry path
      let sector ← entry.header path
      checkEmpty entry path recursive
      let m ← v.releaseTree Directory.depthLimit path entry.kind sector m
      v.strike path entry.kind root m) := by
  unfold remove checkEmpty strike
  refine bind_congr fun _ => bind_congr fun m => bind_congr fun root => bind_congr fun entry =>
    bind_congr fun sector => ?_
  split
  · rw [bind_assoc]
    refine bind_congr fun p => ?_
    dsimp only
    cases p.2.isEmpty <;> rfl
  · rw [pure_bind]

variable {v : Volume} {k : Disk} {inv : Inventory} {path : String} {recursive : Bool}

/-! ## What is refused -/

theorem remove_refused {e : VolumeError} (k : Disk)
    (h : Path.validate path = .error e ∨ path = "/" ∧ e = .invalidPath path) :
    Yields (v.remove path recursive) k (.error e) k := by
  rw [remove_eq]
  exact (checkPath_fails k h).bind_error

theorem isEmpty_eq {dir : Directory} {slots : NodeSlots} (h : dir.Shows slots) :
    dir.isEmpty = (Slots.children slots).isEmpty := by
  unfold Directory.isEmpty
  rw [h.entries, List.isEmpty_map]

/-- Only a directory with something in its slots is refused, and only without `recursive`. -/
theorem checkEmpty_yields (path : String) (recursive : Bool) (hk : 0 < k.dataSize) {e : Entry}
    {t : Node} (ht : k.Holds t) (hkind : e.kind = t.kind)
    (hsector : e.sector? = some t.place.sector) :
    Yields (checkEmpty e path recursive) k
      (if t.occupied ∧ !recursive then .error (.directoryNotEmpty path) else .ok ()) k := by
  unfold checkEmpty
  rw [hkind]
  cases t with
  | file f => exact Yields.pure _ k
  | directory p slots =>
    cases ht with
    | directory table htable hshows _ =>
      cases recursive with
      | true => simpa [Tree.kind] using Yields.pure _ k
      | false =>
        rw [if_pos ⟨rfl, rfl⟩]
        refine (Disk.enter_yields hkind hsector hk htable.file htable.isIn path).bind ?_
        have hoccupied : (Tree.directory p slots : Node).occupied =
            !(Slots.children slots).isEmpty := rfl
        dsimp only
        rw [isEmpty_eq hshows, hoccupied]
        cases (Slots.children slots).isEmpty with
        | true => exact Yields.pure _ k
        | false => exact Yields.throw _ k

namespace Consistent

/-- What is not there is not removed. -/
theorem remove_missing (h : v.Consistent k inv) (hpath : Path.validate path = .ok ())
    (hroot : path ≠ "/") {x : VolumeError} (hfind : inv.find path = .error x) :
    Yields (v.remove path recursive) k (.error x) k := by
  obtain ⟨table, htable, hshows, hall⟩ := h.exists_table
  have hentry := h.findEntry_table hshows hall path
  rw [hfind] at hentry
  rw [remove_eq]
  exact (checkPath_yields _ k hpath hroot).bind (h.freeMap_yields.bind
    ((h.root_yields htable).bind hentry.bind_error))

/-- The parts of removing that come before the free map is changed. -/
theorem strike_of_remove (h : v.Consistent k inv) (hpath : Path.validate path = .ok ())
    (hroot : path ≠ "/") {e : Entry} {t : Node} (hfind : inv.find path = .ok (e, t))
    {table : Directory} (htable : k.HasTable inv.root table) (hshows : table.Shows inv.slots)
    (hall : k.HoldsAll inv.slots) {r : Except VolumeError Unit} {k' : Disk}
    (hrest : Yields (do
      checkEmpty e path recursive
      let m ← v.releaseTree Directory.depthLimit path t.kind t.place.sector
        (inv.freeMap k.sectors)
      v.strike path t.kind table m) k r k') :
    Yields (v.remove path recursive) k r k' := by
  obtain ⟨ht, hkind, hsector, -⟩ := h.found hfind
  have hentry := h.findEntry_table hshows hall path
  rw [hfind] at hentry
  rw [remove_eq]
  refine (checkPath_yields _ k hpath hroot).bind (h.freeMap_yields.bind
    ((h.root_yields htable).bind (hentry.bind ((Disk.header_yields hsector path k).bind ?_))))
  show Yields (do checkEmpty e path recursive; _) k r k'
  rw [hkind]
  exact hrest

/-- A directory that is not empty is removed only with all that is in it. -/
theorem remove_occupied (h : v.Consistent k inv) (hpath : Path.validate path = .ok ())
    (hroot : path ≠ "/") {e : Entry} {t : Node} (hfind : inv.find path = .ok (e, t))
    (hoccupied : t.occupied = true) :
    Yields (v.remove path false) k (.error (.directoryNotEmpty path)) k := by
  obtain ⟨table, htable, hshows, hall⟩ := h.exists_table
  obtain ⟨ht, hkind, hsector, -⟩ := h.found hfind
  refine h.strike_of_remove hpath hroot hfind htable hshows hall ?_
  have hcheck := checkEmpty_yields path false h.dataSize_pos ht hkind hsector
  rw [if_pos ⟨hoccupied, rfl⟩] at hcheck
  exact hcheck.bind_error

/-- A found node is not too deep, has no sector twice, and all its sectors are in use. -/
theorem found_facts (h : v.Consistent k inv) {e : Entry} {t : Node}
    (hfind : inv.find path = .ok (e, t)) :
    t.nodes.length ≤ Directory.depthLimit ∧ t.sectors.Nodup ∧
      ∀ s ∈ t.sectors, (inv.freeMap k.sectors).isUsed s = true := by
  obtain ⟨slots, herase⟩ := Inventory.erase_ok hfind
  have hsectors := Inventory.erase_sectors herase hfind inv.mapFile.content
  refine ⟨?_, ?_, fun s hs => ?_⟩
  · have hle := (Inventory.erase_nodes herase hfind inv.mapFile).length_eq
    have hlt := h.length_nodes_lt
    rw [List.length_append, Inventory.tree_nodes, Inventory.tree_nodes, List.length_cons,
      List.length_cons] at hle
    omega
  · exact (List.nodup_append.mp (hsectors.nodup_iff.mp h.nodup)).2.1
  · exact (h.used s).mpr (hsectors.mem_iff.mpr (List.mem_append_right _ hs))

/-- A tree with a file in it that is open by id is not removed. -/
theorem remove_open (h : v.Consistent k inv) (hpath : Path.validate path = .ok ())
    (hroot : path ≠ "/") {e : Entry} {t : Node} (hfind : inv.find path = .ok (e, t))
    (hempty : t.occupied = true → recursive = true) {q : String}
    (hopen : t.firstOpen v.openFiles.holds path = some q) :
    Yields (v.remove path recursive) k (.error (.stillOpen q)) k := by
  obtain ⟨table, htable, hshows, hall⟩ := h.exists_table
  obtain ⟨ht, hkind, hsector, -⟩ := h.found hfind
  obtain ⟨hdepth, hnodup, hused⟩ := h.found_facts hfind
  refine h.strike_of_remove hpath hroot hfind htable hshows hall ?_
  have hcheck := checkEmpty_yields path recursive h.dataSize_pos ht hkind hsector
  rw [if_neg (by rintro ⟨ho, hr⟩; simp [hempty ho] at hr)] at hcheck
  exact hcheck.bind (ht.release_open h.dataSize_pos hdepth hnodup hused hopen).bind_error

/-- **Anything else is removed** with all that is below it: it is erased from the slots, and just
its sectors are free. -/
theorem remove_yields (h : v.Consistent k inv) (hpath : Path.validate path = .ok ())
    (hroot : path ≠ "/") {e : Entry} {t : Node} (hfind : inv.find path = .ok (e, t))
    (hempty : t.occupied = true → recursive = true)
    (hclosed : t.firstOpen v.openFiles.holds path = none) :
    ∃ slots k' content, inv.erase path = .ok slots ∧
      Yields (v.remove path recursive) k (.ok ()) k' ∧ k.SameSize k' ∧
      v.Consistent k' ⟨⟨inv.mapFile.place, content⟩, inv.root, slots⟩ := by
  obtain ⟨table, htable, hshows, hall⟩ := h.exists_table
  obtain ⟨ht, hkind, hsector, -⟩ := h.found hfind
  obtain ⟨hdepth, hnodup, hused⟩ := h.found_facts hfind
  obtain ⟨slots, herase⟩ := Inventory.erase_ok hfind
  obtain ⟨-, -, hslotsNodup, -, hslotsMap, hslotsRoot⟩ := h.nodup_parts
  have hl := t.releaseOrder_perm
  have hy₁ := ht.carries.bears.release_yields (v := v) hdepth hnodup hused hclosed
  have hcheck := checkEmpty_yields path recursive h.dataSize_pos ht hkind hsector
  rw [if_neg (by rintro ⟨ho, hr⟩; simp [hempty ho] at hr)] at hcheck
  obtain ⟨dir, k₁, hy₂, hkeep, hshows₁, hlen₁, hall₁, -⟩ := Disk.change_yields
    (fun _ => False) h.dataSize_pos (Directory.erase_implements path _)
    (fun {s s' e t'} hok ht' => .inl (Slots.mem_erase hok ht'))
    hshows hall hslotsNodup (fun _ _ => id) herase
  rw [← Directory.remove_eq] at hy₂
  have hout : ∀ s, s ∉ Slots.sectors inv.slots → s ∉ Slots.tables inv.slots :=
    fun s hs hmem => hs (Slots.tables_subset hmem)
  have hground := h.toGrounded.keeps hkeep fun s hs => hout s fun hmem => hslotsMap s hmem hs
  have htable₁ := htable.keeps hkeep fun s hs => hout s fun hmem => hslotsRoot s hmem hs
  have hsectors := Inventory.erase_sectors herase hfind inv.mapFile.content
  obtain ⟨hnodup', -, hdisjoint⟩ := List.nodup_append.mp (hsectors.nodup_iff.mp h.nodup)
  have hstored : (inv.freeMap k.sectors).stored = Layout.freeMapSize k.sectors :=
    FreeMap.stored_ofBytes h.map_length
  obtain ⟨k₂, k₃, content, hy₃, hy₄, hsame, hconsistent⟩ := hground.commit_yields
    (m := t.releaseOrder.foldl FreeMap.clear (inv.freeMap k.sectors))
    (hkeep.sectors ▸ h.sectors_le) htable₁ hshows₁ (hlen₁.trans htable.length_slots) hall₁
    (by rw [FreeMap.size_foldl_clear, hkeep.sectors]; rfl)
    (by rw [FreeMap.stored_foldl_clear, hkeep.sectors, hstored]) hnodup'
    (fun s => by
      rw [FreeMap.isUsed_foldl_clear, h.used s, hl.mem_iff]
      constructor
      · rintro ⟨hs, hout⟩
        exact (List.mem_append.mp (hsectors.mem_iff.mp hs)).resolve_right hout
      · intro hs
        exact ⟨hsectors.mem_iff.mpr (List.mem_append_left _ hs),
          fun hmem => hdisjoint s hs s hmem rfl⟩)
    (fun id f hf => by
      obtain ⟨x, hx, hsame, hheader⟩ := h.open_files id f hf
      refine ⟨x, ?_, hsame, hheader⟩
      have hx' := (Inventory.erase_nodes herase hfind inv.mapFile).mem_iff.mp hx
      rcases List.mem_append.mp hx' with hx | hx
      · rwa [Inventory.tree_nodes] at hx
      -- the removed tree has no open file in it
      · have hholds := (Tree.firstOpen_eq_none path).mp hclosed x hx
        rw [hsame, HandleTable.holds_of_get? hf] at hholds
        cases hholds)
  refine ⟨slots, k₃, content, herase, h.strike_of_remove hpath hroot hfind htable hshows hall ?_,
    hkeep.sameSize.trans hsame, hconsistent⟩
  exact hcheck.bind (hy₁.bind (hy₂.bind (hy₃.bind (hy₄.bind (Yields.note _ k₃)))))

/-- **In any case**, removing fails for no fault of the device and leaves the disk as it is, or it
erases what is at the path from the slots. -/
theorem remove_cases (h : v.Consistent k inv) (path : String) (recursive : Bool) :
    (∃ e, e.isDamage = false ∧ Yields (v.remove path recursive) k (.error e) k) ∨
      ∃ e t slots k' content, inv.find path = .ok (e, t) ∧ inv.erase path = .ok slots ∧
        Yields (v.remove path recursive) k (.ok ()) k' ∧ k.SameSize k' ∧
        v.Consistent k' ⟨⟨inv.mapFile.place, content⟩, inv.root, slots⟩ := by
  cases hpath : Path.validate path with
  | error e => exact .inl ⟨e, Path.isDamage_of_validate hpath, remove_refused k (.inl hpath)⟩
  | ok =>
    by_cases hroot : path = "/"
    · exact .inl ⟨_, rfl, remove_refused k (.inr ⟨hroot, rfl⟩)⟩
    cases hfind : inv.find path with
    | error x =>
      exact .inl ⟨x, Slots.isDamage_of_follow hfind, h.remove_missing hpath hroot hfind⟩
    | ok p =>
      obtain ⟨e, t⟩ := p
      by_cases hempty : t.occupied = true → recursive = true
      · cases hopen : t.firstOpen v.openFiles.holds path with
        | some q => exact .inl ⟨_, rfl, h.remove_open hpath hroot hfind hempty hopen⟩
        | none =>
          obtain ⟨slots, k', content, herase, hy, hsame, hv⟩ :=
            h.remove_yields hpath hroot hfind hempty hopen
          exact .inr ⟨e, t, slots, k', content, rfl, herase, hy, hsame, hv⟩
      · obtain ⟨hoccupied, hrecursive⟩ := Classical.not_imp.mp hempty
        rw [Bool.eq_false_iff.mpr hrecursive]
        exact .inl ⟨_, rfl, h.remove_occupied hpath hroot hfind hoccupied⟩

end Consistent

end Volume

end SectorChain
