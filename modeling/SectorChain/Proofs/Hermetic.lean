import SectorChain.Proofs.Dependence
import SectorChain.Proofs.Failures

/-!
# Calls and the sectors of files

A call on a consistent volume depends on the sectors of its files only: what lies in the free
sectors, left there by files that were removed, by a creation that failed or by whatever was on the
device before the format, is overwritten before it is read. And what a call leaves in the sectors
of files depends on nothing else either. `Hermetic x k inv` says this of one operation, begun on a
disk with the inventory `inv`.

Results:
* `commit_depends`, `enroll_depends`: the root table and the free map are stored.
* `make_hermetic`, `remove_hermetic`, `writeId_hermetic`: the calls that write.
* `Sound.perform_hermetic`: every permitted call.
-/

namespace SectorChain

/-- **The operation depends on the sectors of files**: these alone decide how it ends, and what it
leaves in the sectors that belong to files then. -/
def Hermetic {α : Type} (x : DriveM α) (k : Disk) (inv : Inventory) : Prop :=
  ∃ (r : Except VolumeError α) (k' : Disk) (v' : Volume) (inv' : Inventory),
    Yields x k r k' ∧ v'.Consistent k' inv' ∧ DependsOn x k (· ∈ inv.sectors) (· ∈ inv'.sectors)

namespace Hermetic

variable {α β : Type} {x : DriveM α} {v : Volume} {k : Disk} {inv : Inventory}

/-- An operation that reads the same from every disk with this inventory. -/
theorem read {r : Except VolumeError α} (h : v.Consistent k inv)
    (hy : ∀ k', k.Keeps k' (· ∈ inv.sectors) → v.Consistent k' inv → Yields x k' r k') :
    Hermetic x k inv :=
  have hread : ∀ k', k.Keeps k' (· ∈ inv.sectors) → Yields x k' r k' := fun k' hk =>
    hy k' hk (h.keeps hk fun _ => id)
  ⟨r, k, v, inv, hread k (Disk.Keeps.refl _ _), h, .read hread⟩

theorem pure_answer (h : Hermetic x k inv) {g : α → β} : Hermetic (do return g (← x)) k inv := by
  obtain ⟨r, k', v', inv', hy, hv', hdepends⟩ := h
  cases r with
  | ok a => exact ⟨_, k', v', inv', hy.map g, hv', hdepends.pure_answer g⟩
  | error e => exact ⟨_, k', v', inv', hy.bind_error, hv', hdepends.pure_answer g⟩

theorem read_answer {r : Except VolumeError α} (h : v.Consistent k inv)
    (hy : ∀ k', k.Keeps k' (· ∈ inv.sectors) → v.Consistent k' inv → Yields x k' r k')
    {g : α → β} : Hermetic (do return g (← x)) k inv := (read h hy).pure_answer

end Hermetic

namespace Volume

variable {v : Volume} {k : Disk} {inv : Inventory} {path : String} {kind : Kind} {size : Nat}
  {recursive : Bool} {p : Nat → Prop}

/-! ## Completing a change -/

/-- Storing the root table and the free map depends on the chains of the two files. -/
theorem Grounded.commit_depends {mapFile : Stored} {root : Place} {content : Bytes}
    (h : v.Grounded k mapFile root) (hroot : k.HasFile root content)
    (hout : root.sector ∉ root.chain) (hapart : ∀ s ∈ mapFile.place.sectors, s ∉ root.chain)
    (hmap : ∀ s ∈ mapFile.place.chain, p s) (hp : ∀ s ∈ root.chain, p s)
    (hmapOut : mapFile.place.sector ∉ mapFile.place.chain) (dir : Directory) (m : FreeMap)
    (n : Note) :
    DependsOn (do dir.store v.rootFile; m.store v.freeMapFile; Drive.note n) k p p :=
  hroot.writes_depend h.map_file h.dataSize_pos h.root_header h.map_header hout hmapOut hapart hp
    hmap dir.encode (m.firstBytes (min m.stored v.freeMapFile.length)) fun _ => .note n

namespace Consistent

/-- The root table and the free map of a consistent volume may be stored also after a change of the
tables below. -/
theorem commit_depends (h : v.Consistent k inv) (hp : ∀ s ∈ inv.sectors, p s) {table : Directory}
    (htable : k.HasTable inv.root table) {k' : Disk}
    (hkeep : k.Keeps k' (· ∉ Slots.tables inv.slots)) (dir : Directory) (m : FreeMap) (n : Note) :
    DependsOn (do dir.store v.rootFile; m.store v.freeMapFile; Drive.note n) k' p p := by
  obtain ⟨hmap, hroot, -, hrootMap, hslotsMap, hslotsRoot⟩ := h.nodup_parts
  have hground := h.toGrounded.keeps hkeep fun s hs hmem =>
    hslotsMap s (Slots.tables_subset hmem) hs
  have htable' := htable.keeps hkeep fun s hs hmem => hslotsRoot s (Slots.tables_subset hmem) hs
  exact hground.commit_depends htable'.file (List.nodup_cons.mp hroot).1
    (fun s hs hmem => hrootMap s (List.mem_cons_of_mem _ hmem) hs)
    (fun s hs => hp s (Inventory.mem_of_map (List.mem_cons_of_mem _ hs)))
    (fun s hs => hp s (Inventory.mem_of_root (List.mem_cons_of_mem _ hs)))
    (List.nodup_cons.mp hmap).1 dir m n

/-! ## Making -/

/-- Making and removing begin in the same way: they check the path, and read the free map and the
root table. -/
theorem begin_depends {α : Type} {f : FreeMap → Directory → DriveM α} {q : Nat → Prop}
    (h : v.Consistent k inv) (hpath : Path.validate path = .ok ()) (hroot : path ≠ "/")
    (atRoot : VolumeError) {table : Directory} (htable : k.HasTable inv.root table)
    (hf : DependsOn (f (inv.freeMap k.sectors) table) k (· ∈ inv.sectors) q) :
    DependsOn (do
      checkPath path atRoot
      let m ← v.freeMap
      let root ← v.root
      f m root) k (· ∈ inv.sectors) q := by
  refine DependsOn.after (fun k' _ => checkPath_yields _ k' hpath hroot) (DependsOn.after
    (a := inv.freeMap k.sectors) (fun k' hkeep => ?_) (DependsOn.after (a := table)
      (fun k' hkeep => ?_) hf))
  · rw [← hkeep.sectors]
    exact (h.keeps hkeep fun _ => id).freeMap_yields
  · exact (h.keeps hkeep fun _ => id).root_yields
      (htable.keeps hkeep fun _ => Inventory.mem_of_root)

/-- An entry is found or missed on every disk with the same files. -/
theorem findEntry_keeps (h : v.Consistent k inv) {table : Directory}
    (hshows : table.Shows inv.slots) (hall : k.HoldsAll inv.slots) (path : String) {k' : Disk}
    (hkeep : k.Keeps k' (· ∈ inv.sectors)) :
    Yields (table.findEntry path) k' ((inv.find path).map Prod.fst) k' :=
  (h.keeps hkeep fun _ => id).findEntry_table hshows
    (hall.keeps hkeep fun _ => Inventory.mem_of_slots) path

/-- Adding an entry depends on the sectors of files, whether it can be added or not. -/
theorem enroll_depends (h : v.Consistent k inv) (hp : ∀ s ∈ inv.sectors, p s) {table : Directory}
    (htable : k.HasTable inv.root table) (hshows : table.Shows inv.slots)
    (hall : k.HoldsAll inv.slots) {t : Node} (ht : k.Holds t)
    (hfresh : ∀ s ∈ t.sectors, s ∉ inv.sectors) (hlt : t.place.sector < Link.limit)
    (path : String) (size : Nat) (m : FreeMap) :
    DependsOn (v.enroll path t.kind size t.place.sector table m) k p p := by
  have hmem : ∀ s ∈ Slots.sectors inv.slots, s ∈ inv.sectors := fun _ => Inventory.mem_of_slots
  have hedit := Directory.insert_implements path (t := t) rfl rfl hlt
    (Slots.lastName (.ofPath path))
  unfold enroll
  rw [Directory.add_eq]
  cases hinsert : inv.insert path t with
  | error e =>
    have hfails : ∀ k', k.Keeps k' p → Yields (Directory.change path
        (fun inner name => inner.insert path name t.kind t.place.sector) (.ofPath path) table) k'
        (.error e) k' := fun k' hkeep =>
      Disk.change_fails (hkeep.dataSize.symm ▸ h.dataSize_pos) hedit hshows
        (hall.keeps hkeep fun s hs => hp s (hmem s hs)) hinsert
    exact DependsOn.after (fun k' hkeep => (hfails k' hkeep).attempt)
      ((DependsOn.note _).bind (Yields.note _ k) (.read fun k' _ => Yields.throw e k'))
  | ok slots =>
    have hnew : ∀ {s s' : NodeSlots} {e t'}, Slots.insert Entry.name path
        (fun n => Entry.ofFile n t.kind t.place.sector) t s (Slots.lastName (.ofPath path)) =
          .ok s' → some (e, t') ∈ s' → some (e, t') ∈ s ∨ k.Holds t' ∧
            ∀ x ∈ t'.sectors, x ∈ t.sectors := fun {s s' e t'} hok ht' =>
      (Slots.mem_insert hok ht').imp_right (by
        rintro rfl
        exact ⟨ht, fun _ => id⟩)
    have hapart : ∀ s ∈ Slots.sectors inv.slots, s ∉ t.sectors := fun s hs hmem' =>
      hfresh s hmem' (hmem s hs)
    obtain ⟨-, -, hnodup, -⟩ := h.nodup_parts
    obtain ⟨dir, k₁, hy₁, hkeep₁, -⟩ := Disk.change_yields (· ∈ t.sectors) h.dataSize_pos hedit
      hnew hshows hall hnodup hapart hinsert
    have hchange := Disk.change_depends (· ∈ t.sectors) h.dataSize_pos hedit hnew hshows hall
      hnodup hapart hinsert fun s hs => hp s (hmem s hs)
    exact hchange.attempt.bind hy₁.attempt (h.commit_depends hp htable hkeep₁ dir m _)

/-- **With room for it**, what is made depends on the sectors of files, and all its own sectors are
written. -/
theorem make_depends (h : v.Consistent k inv) (hpath : Path.validate path = .ok ())
    (hroot : path ≠ "/") {x : VolumeError} (hfind : inv.find path = .error x) {s : Nat}
    {rest : List Nat} (hfree : (inv.freeMap k.sectors).free = s :: rest)
    (hroom : Disk.Fits k ((inv.freeMap k.sectors).mark s) size)
    (hdir : kind = .directory → size = Layout.directorySize) :
    DependsOn (v.make path kind size) k (· ∈ inv.sectors) fun t =>
      t ∈ inv.sectors ∨ t ∈ s :: rest.take (Layout.blocksFor size k.dataSize) := by
  obtain ⟨table, htable, hshows, hall⟩ := h.exists_table
  obtain ⟨k₁, k₂, header, hlen, hy₁, hy₂, hchained, hkeep₁, hkeep₂, hheld⟩ :=
    Disk.newNode_yields h.headerSize_le h.dataSize_pos rfl hfree hroom (h.links_of_free hfree _)
      hdir
  obtain ⟨hfresh, hnodup⟩ := h.fresh_of_free hfree (Layout.blocksFor size k.dataSize)
  have hmark : ((inv.freeMap k.sectors).mark s).free = rest := FreeMap.free_mark_head hfree
  rw [make_eq]
  refine h.begin_depends hpath hroot _ htable (DependsOn.after (a := .error x)
    (fun k' hkeep => ?_) ?_)
  · have hentry := h.findEntry_keeps hshows hall path hkeep
    rw [hfind] at hentry
    exact hentry.attempt
  -- the new file, then its entry
  show DependsOn (v.occupy path kind size table (inv.freeMap k.sectors)) k _ _
  unfold occupy
  rw [FreeMap.claim?_eq, hfree]
  have hallocate := Disk.allocate_depends (p := (· ∈ inv.sectors)) h.dataSize_pos
    (m := (inv.freeMap k.sectors).mark s) (FreeMap.size_mark _ s) h.sectors_le hroom
  rw [hmark] at hallocate
  have hwrite : DependsOn (writeNew kind s header) k₁
      (fun t => t ∈ inv.sectors ∨ t ∈ rest.take (Layout.blocksFor size k.dataSize))
      fun t => (t ∈ inv.sectors ∨ t ∈ rest.take (Layout.blocksFor size k.dataSize)) ∨ t = s :=
    Disk.writeNew_depends (hkeep₁.dataSize.symm ▸ h.dataSize_pos)
      (hkeep₁.sectorSize.symm ▸ h.headerSize_le)
      (hkeep₁.sectors.symm ▸ (hfresh s List.mem_cons_self).1) (List.nodup_cons.mp hnodup).1
      hchained (by rw [hlen, hkeep₁.dataSize, List.length_take_of_le]; exact hmark ▸ hroom.free)
      fun t ht => .inr ht
  have hin : k.Keeps k₂ (· ∈ inv.sectors) := hkeep₂.mono fun t ht hmem => (hfresh t hmem).2 ht
  have henroll := (h.keeps hin fun _ => id).enroll_depends
    (p := fun t => (t ∈ inv.sectors ∨ t ∈ rest.take (Layout.blocksFor size k.dataSize)) ∨ t = s)
    (fun t ht => .inl (.inl ht)) (htable.keeps hin fun _ => Inventory.mem_of_root) hshows
    (hall.keeps hin fun _ => Inventory.mem_of_slots) hheld
    (fun t ht => (hfresh t (by rwa [Node.sectors_blank] at ht)).2)
    (by rw [Node.place_blank]
        exact Nat.lt_of_lt_of_le (hfresh s List.mem_cons_self).1 h.sectors_le) path size
    ((s :: rest.take (Layout.blocksFor size k.dataSize)).foldl FreeMap.mark
      (inv.freeMap k.sectors))
  rw [Node.kind_blank, Node.place_blank] at henroll
  refine hallocate.bind hy₁ ((DependsOn.pure header).bind (Yields.pure header k₁)
    (hwrite.bind hy₂ (henroll.mono (fun _ => id) fun t ht => ?_)))
  rcases ht with ht | ht
  · exact .inl (.inl ht)
  · exact (List.mem_cons.mp ht).elim .inr fun ht => .inl (.inr ht)

/-- **Making is hermetic**, also when it fails. -/
theorem make_hermetic (h : v.Consistent k inv) (path : String) (kind : Kind) (size : Nat)
    (hdir : kind = .directory → size = Layout.directorySize) :
    Hermetic (v.make path kind size) k inv := by
  cases hpath : Path.validate path with
  | error e => exact .read h fun k' _ _ => make_refused k' (.inl hpath)
  | ok =>
    by_cases hroot : path = "/"
    · exact .read h fun k' _ _ => make_refused k' (.inr ⟨hroot, rfl⟩)
    cases hfind : inv.find path with
    | ok p => exact .read h fun k' _ hv => hv.make_exists hpath hroot hfind
    | error x =>
      by_cases hroom : ∃ s rest, (inv.freeMap k.sectors).free = s :: rest ∧
          Disk.Fits k ((inv.freeMap k.sectors).mark s) size
      · obtain ⟨s, rest, hfree, hfits⟩ := hroom
        have hdepends := h.make_depends hpath hroot hfind hfree hfits hdir
        obtain ⟨header, -, hmake⟩ := h.make_yields hpath hroot hfind hfree hfits hdir
        dsimp only at hmake
        split at hmake
        · obtain ⟨k', hy, hkeep⟩ := hmake
          exact ⟨_, k', v, inv, hy, h.keeps hkeep fun _ => id,
            hdepends.mono (fun _ => id) fun _ => .inl⟩
        · rename_i slots hslots
          obtain ⟨k', content, hy, -, hv⟩ := hmake
          refine ⟨_, k', v, _, hy, hv, hdepends.mono (fun _ => id) fun t ht => ?_⟩
          have hsectors := Inventory.insert_sectors hslots content
          rw [Node.sectors_blank] at hsectors
          exact List.mem_append.mp (hsectors.mem_iff.mp ht)
      · refine .read h fun k' hkeep hv => hv.make_full hpath hroot hfind
          fun s rest hfree hfits => ?_
        rw [hkeep.sectors] at hfree hfits
        exact hroom ⟨s, rest, hfree, hfits.size_lt, hkeep.dataSize ▸ hfits.blocks_lt,
          hkeep.dataSize ▸ hfits.free⟩

/-! ## Removing -/

/-- **What is removed** depends on the sectors of files. -/
theorem remove_depends (h : v.Consistent k inv) (hpath : Path.validate path = .ok ())
    (hroot : path ≠ "/") {e : Entry} {t : Node} (hfind : inv.find path = .ok (e, t))
    (hempty : t.occupied = true → recursive = true)
    (hclosed : t.firstOpen v.openFiles.holds path = none) :
    DependsOn (v.remove path recursive) k (· ∈ inv.sectors) (· ∈ inv.sectors) := by
  obtain ⟨table, htable, hshows, hall⟩ := h.exists_table
  obtain ⟨slots, herase⟩ := Inventory.erase_ok hfind
  obtain ⟨-, hkind, hsector, -⟩ := h.found hfind
  rw [remove_eq]
  refine h.begin_depends hpath hroot _ htable (DependsOn.after (a := e) (fun k' hkeep => ?_)
    (DependsOn.after (fun k' _ => Disk.header_yields hsector path k') (DependsOn.after (a := ())
      (fun k' hkeep => ?_) (DependsOn.after
        (a := t.releaseOrder.foldl FreeMap.clear (inv.freeMap k.sectors))
        (fun k' hkeep => ?_) ?_))))
  · have hentry := h.findEntry_keeps hshows hall path hkeep
    rwa [hfind] at hentry
  · have hv := h.keeps hkeep fun _ => id
    have hcheck := checkEmpty_yields path recursive hv.dataSize_pos (hv.found hfind).1 hkind hsector
    rwa [if_neg (by rintro ⟨ho, hr⟩; simp [hempty ho] at hr)] at hcheck
  · have hv := h.keeps hkeep fun _ => id
    obtain ⟨hdepth, hnodup, hused⟩ := hv.found_facts hfind
    have hrelease :=
      (hv.found hfind).1.carries.bears.release_yields hdepth hnodup hused hclosed
    rwa [hkeep.sectors, ← hkind] at hrelease
  obtain ⟨-, -, hnodup, -⟩ := h.nodup_parts
  have hedit := Directory.erase_implements path (Slots.lastName (.ofPath path))
  have hstays : ∀ {s s' : NodeSlots} {e t'}, Slots.erase Entry.name path s
      (Slots.lastName (.ofPath path)) = .ok s' → some (e, t') ∈ s' → some (e, t') ∈ s ∨
        k.Holds t' ∧ ∀ x ∈ t'.sectors, False := fun hok ht' => .inl (Slots.mem_erase hok ht')
  obtain ⟨dir, k₁, hy₁, hkeep₁, -⟩ := Disk.change_yields (fun _ => False) h.dataSize_pos hedit
    hstays hshows hall hnodup (fun _ _ => id) herase
  unfold strike
  rw [Directory.remove_eq]
  exact (Disk.change_depends (fun _ => False) h.dataSize_pos hedit hstays hshows hall hnodup
    (fun _ _ => id) herase fun _ => Inventory.mem_of_slots).bind hy₁
      (h.commit_depends (fun _ => id) htable hkeep₁ dir _ _)

/-- **Removing is hermetic**, also when it fails. -/
theorem remove_hermetic (h : v.Consistent k inv) (path : String) (recursive : Bool) :
    Hermetic (v.remove path recursive) k inv := by
  cases hpath : Path.validate path with
  | error e => exact .read h fun k' _ _ => remove_refused k' (.inl hpath)
  | ok =>
    by_cases hroot : path = "/"
    · exact .read h fun k' _ _ => remove_refused k' (.inr ⟨hroot, rfl⟩)
    cases hfind : inv.find path with
    | error x => exact .read h fun k' _ hv => hv.remove_missing hpath hroot hfind
    | ok p =>
      obtain ⟨e, t⟩ := p
      by_cases hempty : t.occupied = true → recursive = true
      · cases hopen : t.firstOpen v.openFiles.holds path with
        | some q => exact .read h fun k' _ hv => hv.remove_open hpath hroot hfind hempty hopen
        | none =>
          obtain ⟨slots, k', content, herase, hy, -, hv⟩ :=
            h.remove_yields hpath hroot hfind hempty hopen
          refine ⟨_, k', v, _, hy, hv, (h.remove_depends hpath hroot hfind hempty hopen).mono
            (fun _ => id) fun s hs => ?_⟩
          exact (Inventory.erase_sectors herase hfind content).mem_iff.mpr
            (List.mem_append_left _ hs)
      · obtain ⟨hoccupied, hrecursive⟩ := Classical.not_imp.mp hempty
        rw [Bool.eq_false_iff.mpr hrecursive]
        exact .read h fun k' _ hv => hv.remove_occupied hpath hroot hfind hoccupied

/-! ## Open files -/

/-- **A write by id** to a regular file is hermetic. -/
theorem writeId_hermetic (h : v.Consistent k inv) {id : Nat} {f : Handle}
    (hf : v.openFiles.get? id = some f) {s : Stored} (hs : .inl s ∈ inv.tree.nodes)
    (hsector : s.place.sector = f.sector) (hheader : s.place.header = f.header) (bytes : Bytes) :
    Hermetic (v.writeId id bytes) k inv := by
  obtain ⟨k', hy, -, hv⟩ := h.writeId_yields hf hs hsector hheader bytes
  have hfile : k.HasFile s.place s.content := (h.held.nodes _ hs).2 s rfl
  have hchain : ∀ i ∈ s.place.chain, i ∈ inv.sectors := fun i hi =>
    Inventory.mem_of_node hs (List.mem_cons_of_mem _ hi)
  refine ⟨_, k', _, _, hy, hv, ?_⟩
  rw [Inventory.sectors_replace (place_rewrite _ _)]
  rw [writeId_eq]
  refine DependsOn.after (fun k' _ => HandleTable.fetch_yields hf k') ?_
  rw [Handle.write_eq]
  exact ((hfile.write_depends h.dataSize_pos hheader.symm hchain bytes f.position).map
    fun n => (n, f.seek (f.position + n))).map fun p => (p.1, v.setOpen id p.2)

/-- A call on an id that may not be open. -/
theorem onId_hermetic {α : Type} {x : DriveM α} (h : v.Consistent k inv) (id : Nat)
    (hnone : v.openFiles.get? id = none → ∀ k', Yields x k' (.error (.notOpen id)) k')
    (hsome : ∀ f, v.openFiles.get? id = some f → Hermetic x k inv) : Hermetic x k inv := by
  cases hf : v.openFiles.get? id with
  | none => exact .read h fun k' _ _ => hnone hf k'
  | some f => exact hsome f hf

theorem readId_hermetic (h : v.Consistent k inv) (id count : Nat) :
    Hermetic (v.readId id count) k inv := by
  refine h.onId_hermetic id (fun hf k' => readId_fails hf count k') fun f hf => ?_
  obtain ⟨x, hx, -, hheader⟩ := h.open_files id f hf
  obtain ⟨content, hfile⟩ := h.hasFile (List.mem_cons_of_mem _ hx)
  exact .read h fun k' hkeep hv => hv.readId_yields hf hheader
    (hfile.keeps hkeep fun _ => Inventory.mem_of_node hx) count

end Consistent

end Volume

/-! ## Reports -/

namespace Disk

variable {k k' : Disk} {p : Nat → Prop}

theorem Keeps.report (h : k.Keeps k' p) (place : Place) (hp : ∀ s ∈ place.chain, p s) :
    k'.report place = k.report place := by
  unfold Disk.report
  rw [h.dataSize, content_keeps h hp]

theorem Keeps.reportAll (h : k.Keeps k' p) {slots : NodeSlots}
    (hp : ∀ s ∈ Slots.sectors slots, p s) : k'.reportAll slots = k.reportAll slots := by
  unfold Disk.reportAll
  congr 3
  refine List.map_congr_left fun c hc => ?_
  rw [h.report c.2.place fun s hs => hp s ?_]
  obtain ⟨x, hx, hplace⟩ := Node.exists_root c.2
  exact Slots.mem_sectors.mpr ⟨c.1, c.2, Slots.mem_children.mp hc,
    mem_sectorsOf.mpr ⟨x, hx, hplace ▸ List.mem_cons_of_mem _ hs⟩⟩

end Disk

theorem Volume.Consistent.print_hermetic {v : Volume} {k : Disk} {inv : Inventory}
    (h : v.Consistent k inv) : Hermetic v.print k inv :=
  .read h fun k' hkeep hv => by
    have hy := hv.print_yields
    rwa [hkeep.sectors,
      hkeep.report inv.mapFile.place fun s hs => Inventory.mem_of_map (List.mem_cons_of_mem _ hs),
      hkeep.report inv.root fun s hs => Inventory.mem_of_root (List.mem_cons_of_mem _ hs),
      hkeep.reportAll fun _ => Inventory.mem_of_slots] at hy

/-! ## Every call -/

/-- **Every permitted call is hermetic**, whether it answers or fails. -/
theorem Usage.Sound.perform_hermetic {u : Usage} {inv : Inventory} (hu : u.Sound inv) {q : Request}
    (hq : q.Permitted u) : Hermetic (q.perform u.volume) u.drive.disk inv := by
  have h := hu.consistent
  cases q with
  | create path size => exact (h.make_hermetic path .file size (by rintro ⟨⟩)).pure_answer
  | makeDirectory path =>
    exact (h.make_hermetic path .directory Layout.directorySize fun _ => rfl).pure_answer
  | remove path recursive => exact (h.remove_hermetic path recursive).pure_answer
  | openId path =>
    exact .read_answer h fun k' _ hv => hv.openId_yields path
  | closeId id =>
    refine (h.onId_hermetic id (fun hf k' => Volume.Consistent.closeId_fails hf k')
      fun f hf => ?_).pure_answer
    exact .read h fun k' _ _ => Volume.Consistent.closeId_yields hf k'
  | seekId id position =>
    refine (h.onId_hermetic id (fun hf k' => Volume.Consistent.seekId_fails hf position k')
      fun f hf => ?_).pure_answer
    exact .read h fun k' _ _ => Volume.Consistent.seekId_yields hf position k'
  | readId id count => exact (h.readId_hermetic id count).pure_answer
  | writeId id bytes =>
    refine (h.onId_hermetic id (fun hf k' => Volume.writeId_fails hf bytes k')
      fun f hf => ?_).pure_answer
    obtain ⟨x, hx, hsector, hheader⟩ := h.open_files id f hf
    have hkind : kindOf x = .file :=
      Option.some.inj ((hu.opened id f hf x hx hsector).symm.trans (hq f hf))
    cases x with
    | inr p => cases hkind
    | inl s => exact h.writeId_hermetic hf hx hsector hheader bytes
  | openPath path =>
    exact .read_answer h fun k' _ hv => hv.openPath_yields path
  | list path recursive =>
    exact .read_answer h fun k' _ hv => hv.listAt_yields path recursive
  | stat path =>
    exact .read_answer h fun k' _ hv => hv.stat_yields path
  | print => exact h.print_hermetic.pure_answer
  | freeMap =>
    exact .read_answer h fun k' hkeep hv => hkeep.sectors ▸ hv.freeMap_yields
  | root =>
    obtain ⟨table, htable, -⟩ := h.exists_table
    exact .read_answer h fun k' hkeep hv => hv.root_yields
      (htable.keeps hkeep fun _ => Inventory.mem_of_root)
  | numFree =>
    exact .read_answer h fun k' hkeep hv => hkeep.sectors ▸ hv.numFree_yields
  | remaining id =>
    refine (h.onId_hermetic id (fun hf k' => (HandleTable.fetch_fails hf k').bind_error)
      fun f hf => ?_).pure_answer
    exact .read h fun k' _ _ => (HandleTable.fetch_yields hf k').bind (Yields.pure _ k')
  | ids => exact .read h fun k' _ _ => Yields.pure _ k'
  | mount =>
    exact .read_answer h fun k' _ hv => hv.mount_yields.2

end SectorChain
