import SectorChain.Proofs.Attempts
import SectorChain.Proofs.Dangling
import SectorChain.Proofs.OneRecord

/-!
# The order of the writes of a creation

A new file is written to free sectors first. Then its entry goes into the table of its directory,
and every directory on the path is written back, from the inside out, the root last. Only then the
free map is stored. This is so whatever accesses fail: a failure ends the creation, wherever it is.

* `Phases m tables map w₁ w₂ w₃`: three lists of attempted writes, to sectors that are free in the
  map `m`, then to blocks of the directories, then to blocks of the free map.
* `Staged free order r w`: the writes `w` are some to sectors in `free`, then those in `order`.

Results:
* `exists_visits`: the directories on a path lie apart from each other.
* `Passes.amend_attempts`: a change writes the directories on its route along their chains.
* `make_attempts`: a creation writes free sectors first, then the directories, then the free map.
* `reached_make_in_phases`: every creation, in every state that can be reached.
-/

namespace SectorChain

variable {α : Type} {F : Faults} {k k' : Disk}

/-! ## Phases -/

/-- **Three phases of attempted writes**: to sectors that are free in the map, then to the blocks of
directories in the order of `tables`, then to the blocks of the free map. The last one begins when
all of the second one were let through. -/
structure Phases (m : FreeMap) (tables map : List Nat) (w₁ w₂ w₃ : List (Nat × Bool)) : Prop where
  inFree : ∀ y ∈ w₁, y.1 ∈ m.free
  inTables : w₂.map Prod.fst <+: tables
  inMap : w₃.map Prod.fst <+: map
  last : w₃ ≠ [] → w₂ = tables.map (·, true)

/-- **As long as no write to a directory is let through**, none is to a sector in use. -/
theorem Phases.spares {m : FreeMap} {tables map : List Nat} {w₁ w₂ w₃ : List (Nat × Bool)}
    (h : Phases m tables map w₁ w₂ w₃) (htables : tables ≠ []) (hfailed : ∀ y ∈ w₂, y.2 = false)
    {s : Nat} (hs : m.isUsed s = true) : (s, true) ∉ w₁ ++ w₂ ++ w₃ := by
  intro hmem
  rcases List.mem_append.mp hmem with hmem | hmem
  · rcases List.mem_append.mp hmem with hmem | hmem
    · exact absurd (FreeMap.mem_free.mp (h.inFree _ hmem)).2 (by simp [hs])
    · cases hfailed _ hmem
  · obtain ⟨t, ht⟩ := List.exists_mem_of_ne_nil tables htables
    rw [h.last (List.ne_nil_of_mem hmem)] at hfailed
    cases hfailed _ (List.mem_map.mpr ⟨t, ht, rfl⟩)

/-- The writes of an operation are some to sectors in `free`, and then those in `order`. -/
def Staged (free order : List Nat) (r : Except VolumeError α) (w : List (Nat × Bool)) : Prop :=
  ∃ w₁ w₂, w = w₁ ++ w₂ ∧ (∀ y ∈ w₁, y.1 ∈ free) ∧ InOrder order r w₂

namespace InOrder

variable {order order' : List Nat} {r : Except VolumeError α} {w : List (Nat × Bool)}

/-- Writes in two parts: the second begins when all of the first were let through. -/
theorem split (h : InOrder (order ++ order') r w) : ∃ w₁ w₂, w = w₁ ++ w₂ ∧
    w₁.map Prod.fst <+: order ∧ w₂.map Prod.fst <+: order' ∧
    (w₂ ≠ [] → w₁ = order.map (·, true)) := by
  have hsectors : w.map Prod.fst = (order ++ order').take w.length := by
    rw [← List.length_map (f := Prod.fst)]
    exact List.prefix_iff_eq_take.mp h.sectors
  have hfirst : (w.take order.length).map Prod.fst = order.take w.length := by
    rw [List.map_take, hsectors, List.take_take, Nat.min_comm, ← List.take_take, List.take_left']
    rfl
  refine ⟨w.take order.length, w.drop order.length, (List.take_append_drop _ w).symm, ?_, ?_,
    fun hrest => ?_⟩
  · rw [hfirst]
    exact List.take_prefix _ _
  · rw [List.map_drop, hsectors, List.drop_take, List.drop_left']
    · exact List.take_prefix _ _
    · rfl
  · have hlt : order.length < w.length := by
      rw [ne_eq, List.drop_eq_nil_iff] at hrest
      exact Nat.lt_of_not_le hrest
    rw [List.take_of_length_le (Nat.le_of_lt hlt)] at hfirst
    have htrue : ∀ y ∈ w.take order.length, y.2 = true := fun y hy => by
      refine h.passed y ?_
      rw [List.dropLast_eq_take]
      exact List.take_subset_take_left w (Nat.le_sub_one_of_lt hlt) hy
    conv_rhs => rw [← hfirst, List.map_map]
    refine (List.map_id _).symm.trans (List.map_congr_left fun y hy => ?_)
    exact Prod.ext rfl (htrue y hy)

end InOrder

namespace Staged

variable {free order : List Nat} {r : Except VolumeError α} {w w' : List (Nat × Bool)}

theorem none (e : VolumeError) (free order : List Nat) :
    Staged free order (.error e : Except _ α) [] :=
  ⟨[], [], rfl, nofun, .none e order⟩

/-- An error while nothing but free sectors was written. -/
theorem early (e : VolumeError) (order : List Nat) (h : ∀ y ∈ w, y.1 ∈ free) :
    Staged free order (.error e : Except _ α) w :=
  ⟨w, [], (List.append_nil w).symm, h, .none e order⟩

/-- More writes to free sectors before. -/
theorem before (h : ∀ y ∈ w, y.1 ∈ free) (hrest : Staged free order r w') :
    Staged free order r (w ++ w') := by
  obtain ⟨w₁, w₂, rfl, hw₁, horder⟩ := hrest
  refine ⟨w ++ w₁, w₂, (List.append_assoc w w₁ w₂).symm, fun y hy => ?_, horder⟩
  exact (List.mem_append.mp hy).elim (h y) (hw₁ y)

/-- The answer does not matter. -/
theorem map {β : Type} (h : Staged free order r w) (f : α → β) : Staged free order (r.map f) w := by
  obtain ⟨w₁, w₂, rfl, hw₁, horder⟩ := h
  exact ⟨w₁, w₂, rfl, hw₁, horder.map f⟩

end Staged

/-! ## The directories on a path -/

namespace Visit

variable {visits : List Visit}

/-- The sectors of the files of the directories. -/
def sectors (visits : List Visit) : List Nat := visits.flatMap fun v => v.place.sectors

/-- Files of which no two have a sector in common are apart. -/
theorem Apart.of_nodup (h : (sectors visits).Nodup) : Apart visits := by
  induction visits with
  | nil => exact ⟨.nil, nofun⟩
  | cons v visits ih =>
    rw [sectors, List.flatMap_cons] at h
    obtain ⟨hself, hrest, hout⟩ := List.nodup_append.mp h
    have hother : ∀ w ∈ visits, ∀ s ∈ v.place.sectors, s ∉ w.place.sectors := fun w hw s hs hmem =>
      hout s hs s (List.mem_flatMap.mpr ⟨w, hw, hmem⟩) rfl
    have hapart := ih hrest
    refine ⟨List.pairwise_cons.mpr ⟨fun w hw s hs hmem => ?_, hapart.chains⟩, fun x hx w hw => ?_⟩
    · exact hother w hw s (List.mem_cons_of_mem _ hs) (List.mem_cons_of_mem _ hmem)
    · rcases List.mem_cons.mp hx with rfl | hx' <;> rcases List.mem_cons.mp hw with rfl | hw'
      · exact (List.nodup_cons.mp hself).1
      · exact fun hmem => hother w hw' _ List.mem_cons_self (List.mem_cons_of_mem _ hmem)
      · exact fun hmem => hother x hx' _ (List.mem_cons_of_mem _ hmem) List.mem_cons_self
      · exact hapart.headers x hx' w hw'

theorem chains_subset : chains visits ⊆ sectors visits := fun _ hs =>
  have ⟨v, hv, hmem⟩ := List.mem_flatMap.mp hs
  List.mem_flatMap.mpr ⟨v, hv, List.mem_cons_of_mem _ hmem⟩

theorem chains_reverse_cons (v : Visit) (visits : List Visit) :
    chains (v :: visits).reverse = chains visits.reverse ++ v.place.chain := by
  unfold chains
  rw [List.reverse_cons, List.flatMap_append, List.flatMap_singleton]

theorem mem_chains_reverse {s : Nat} : s ∈ chains visits.reverse ↔ s ∈ chains visits := by
  unfold chains
  simp only [List.mem_flatMap, List.mem_reverse]

end Visit

namespace Disk

theorem HasTable.chain_ne_nil {p : Place} {table : Directory} (h : k.HasTable p table) :
    p.chain ≠ [] := by
  intro hnil
  have hk := h.file.header.dataSize_pos
  have hblocks := h.file.blocks
  rw [hnil, ← h.file.length_content hk, h.length_encode] at hblocks
  exact absurd hblocks (Nat.ne_of_lt (Layout.blocksFor_pos hk))

theorem Passes.keeps {r : Route} {dir : Directory} {visits : List Visit} {p : Nat → Prop}
    (h : k.Passes r dir visits) (hk : k.Keeps k' p)
    (hp : ∀ v ∈ visits, ∀ s ∈ v.place.sectors, p s) : k'.Passes r dir visits := by
  induction h with
  | invalid => exact .invalid
  | last => exact .last
  | stop h => exact .stop h
  | step hsector hstored _ ih =>
    obtain ⟨hv, hvisits⟩ := List.forall_mem_cons.mp hp
    exact .step hsector (hstored.keeps hk hv) (ih hvisits)

/-- **Every route leads through directories** of the tree, as far as there are any, and no sector
belongs to two of them. -/
theorem exists_visits {p : Place} {slots : NodeSlots} {table : Directory}
    (htable : k.HasTable p table) (hshows : table.Shows slots) (hall : k.HoldsAll slots)
    (r : Route) : ∃ visits, k.Passes r table visits ∧
      (∀ v ∈ visits, k.HasTable v.place v.table) ∧
      (Visit.sectors (⟨p, table⟩ :: visits)).Sublist (Tree.directory p slots : Node).sectors := by
  have hnone : ∀ (p : Place) (slots : NodeSlots) (table : Directory),
      (Visit.sectors [⟨p, table⟩]).Sublist (Tree.directory p slots : Node).sectors :=
    fun p slots table => by
      rw [Tree.sectors_directory, Visit.sectors, List.flatMap_singleton]
      exact List.sublist_append_left _ _
  -- along the route, as long as there is a directory of the name in the slots
  induction r generalizing p slots table with
  | invalid rest => exact ⟨[], .invalid, nofun, hnone p slots table⟩
  | last name => exact ⟨[], .last, nofun, hnone p slots table⟩
  | step name rest ih =>
    cases hfind : Slots.find? Entry.name slots name with
    | none =>
      refine ⟨[], .stop ?_, nofun, hnone p slots table⟩
      unfold Directory.below?
      rw [entry?_eq hshows, hfind]
      rfl
    | some found =>
      obtain ⟨i, e, t⟩ := found
      have ht := List.mem_of_getElem? (Slots.find?_eq_some hfind).1
      obtain ⟨hkind, hsector⟩ := hshows.leads e t ht
      have hbelow : table.below? name =
          if t.kind = .directory then some t.place.sector else none := by
        unfold Directory.below?
        rw [entry?_eq hshows, hfind, ← hkind, ← hsector]
        rfl
      cases hall e t ht with
      | file hfile => exact ⟨[], .stop hbelow, nofun, hnone p slots table⟩
      | @directory q below table' htable' hshows' hall' =>
        obtain ⟨visits, hpasses, htables, hsub⟩ := ih htable' hshows' hall'
        refine ⟨⟨q, table'⟩ :: visits, .step hbelow htable'.tabled hpasses, ?_, ?_⟩
        · exact List.forall_mem_cons.mpr ⟨htable', htables⟩
        · have hslot : (Tree.directory q below : Node).sectors.Sublist (Slots.sectors slots) := by
            rw [Slots.sectors_eq]
            exact List.sublist_flatten_of_mem
              (List.mem_map.mpr ⟨(e, _), Slots.mem_children.mpr ht, rfl⟩)
          rw [Tree.sectors_directory, Visit.sectors, List.flatMap_cons]
          exact (List.Sublist.refl _).append (hsub.trans hslot)

/-! ## Writing the directories back -/

variable {p : SlotRule} {edit : Directory → String → DriveM Directory} {r : Route}
  {dir : Directory} {visits : List Visit} {f : Handle}

theorem storeTable_attempts {v : Visit} (h : k.HasTable v.place v.table)
    (hf : f.header = v.place.header) (hlen : dir.slots.length = Layout.directorySlots) :
    Attempts F (dir.store f) k fun res w _ => InOrder v.place.chain res w := by
  refine h.file.overwrite_attempts h.file.header.dataSize_pos hf ?_
  rw [Directory.length_encode, Directory.length_encode, hlen, h.length_slots]

/-- **A change writes the directories on its route back** along their chains: the last one first,
and the one that it starts from at the end. -/
theorem Passes.amend_attempts (h : k.Passes r dir visits) {q : Place} (path : String)
    (hdir : k.HasTable q dir) (hf : f.header = q.header)
    (htables : ∀ v ∈ visits, k.HasTable v.place v.table) (hapart : Visit.Apart (⟨q, dir⟩ :: visits))
    (hedit : Directory.SetsSlot edit p) (hcandid : ∀ dir n, Candid (edit dir n)) :
    Attempts F (Directory.amend path edit r f dir) k fun res w _ =>
      InOrder (Visit.chains (⟨q, dir⟩ :: visits).reverse) res w := by
  have hnone : ∀ (order : List Nat) (e : VolumeError),
      InOrder order (.error e : Except _ Unit) [] := fun order e => .none e order
  -- the table that a route starts from is written when the change behind it has ended
  induction h generalizing q f with
  | invalid => exact Attempts.fails (Candid.throw _) (Yields.throw _ k) fun e => hnone _ e
  | @last name dir =>
    rw [Directory.amend_last, Visit.chains_reverse_cons]
    rcases hedit dir name with ⟨x, hx⟩ | ⟨i, e, e', -, -, hy⟩
    · exact Attempts.fails (hcandid dir name) (hx k) (hnone _)
    · exact Attempts.read (hcandid dir name) (hy k) (hnone _)
        (storeTable_attempts hdir hf ((List.length_set).trans hdir.length_slots))
  | @stop name rest dir hstop =>
    rw [Directory.amend_step]
    cases he : dir.entry? name with
    | none => exact Attempts.fails (dir.search_candid path name) (search_none he) (hnone _)
    | some e =>
      obtain ⟨x, hx⟩ := Directory.enter_stops he hstop path
      exact Attempts.read (dir.search_candid path name) (search_found he) (hnone _)
        (Attempts.fails (Directory.enter_candid e path) (hx k) (hnone _))
  | @step name rest dir v visits hsector hstored hrest ih =>
    obtain ⟨e, he, hkind, hheader⟩ := Directory.exists_of_below? hsector
    obtain ⟨hv, hvisits⟩ := List.forall_mem_cons.mp htables
    rw [Directory.amend_step, Visit.chains_reverse_cons]
    refine Attempts.read (dir.search_candid path name) (search_found he) (hnone _) ?_
    refine Attempts.read (Directory.enter_candid e path) (hstored.enter_yields hkind hheader path)
      (hnone _) ?_
    refine (ih (q := v.place) hv rfl hvisits hapart.tail).bind (fun e w k' _ h => h.cut _) ?_
    rintro ⟨⟩ w k' hkeep horder
    obtain rfl := horder.done _ rfl
    -- what was written are the chains of the other directories
    have hdir' : k'.HasTable q dir := hdir.keeps hkeep fun s hs hmem => by
      obtain ⟨t, ht, heq⟩ := List.mem_map.mp hmem
      cases heq
      exact hapart.head s hs (Visit.mem_chains_reverse.mp ht)
    exact (storeTable_attempts (v := ⟨q, dir⟩) hdir' hf hdir.length_slots).mono
      fun r w' k'' _ h => .after _ h

/-! ## Creations -/

/-- **The directories on the path**, from the root on, as the inventory has them: their tables are
on the disk, and no sector belongs to two of them. -/
structure OnPath (k : Disk) (inv : Inventory) (path : String) (root : Visit)
    (visits : List Visit) : Prop where
  place : root.place = inv.root
  tables : ∀ v ∈ root :: visits, k.HasTable v.place v.table
  passes : k.Passes (.ofPath path) root.table visits
  sectors : (Visit.sectors (root :: visits)).Sublist inv.tree.sectors

namespace OnPath

variable {inv : Inventory} {path : String} {root : Visit} {visits : List Visit}

theorem table (h : k.OnPath inv path root visits) : k.HasTable inv.root root.table :=
  h.place ▸ h.tables root List.mem_cons_self

theorem keeps (h : k.OnPath inv path root visits) (hk : k.Keeps k' (· ∈ inv.sectors)) :
    k'.OnPath inv path root visits := by
  have hin : ∀ v ∈ root :: visits, ∀ s ∈ v.place.sectors, s ∈ inv.sectors := fun v hv s hs =>
    Inventory.mem_of_tree (h.sectors.subset (List.mem_flatMap.mpr ⟨v, hv, hs⟩))
  exact ⟨h.place, fun v hv => (h.tables v hv).keeps hk (hin v hv),
    h.passes.keeps hk fun v hv => hin v (List.mem_cons_of_mem _ hv), h.sectors⟩

/-- The chains of the directories are apart from the file of the free map. -/
theorem chains_apart (h : k.OnPath inv path root visits) (hnodup : inv.sectors.Nodup) :
    ∀ s ∈ inv.mapFile.place.sectors, s ∉ Visit.chains (root :: visits).reverse := by
  obtain ⟨-, -, hout⟩ := Inventory.nodup_split hnodup
  exact fun s hs hmem => hout s hs
    (h.sectors.subset (Visit.chains_subset (Visit.mem_chains_reverse.mp hmem)))

theorem chains_ne_nil (h : k.OnPath inv path root visits) :
    Visit.chains (root :: visits).reverse ≠ [] := fun hnil => by
  rw [Visit.chains_reverse_cons] at hnil
  exact (h.tables root List.mem_cons_self).chain_ne_nil (List.append_eq_nil_iff.mp hnil).2

end OnPath

end Disk

namespace Volume.Consistent

variable {v : Volume} {inv : Inventory} {path : String} {root : Visit} {visits : List Visit}

theorem exists_onPath (h : v.Consistent k inv) (path : String) :
    ∃ root visits, k.OnPath inv path root visits := by
  obtain ⟨table, htable, hshows, hall⟩ := h.exists_table
  obtain ⟨visits, hpasses, htables, hsub⟩ := Disk.exists_visits htable hshows hall (.ofPath path)
  exact ⟨⟨inv.root, table⟩, visits, rfl, List.forall_mem_cons.mpr ⟨htable, htables⟩, hpasses, hsub⟩

/-- **Adding the entry** writes the directories on the path, then the free map. -/
theorem enroll_attempts (h : v.Consistent k inv) (hpath : k.OnPath inv path root visits)
    (kind : Kind) (size new : Nat) {m : FreeMap}
    (hstored : m.stored = Layout.freeMapSize k.sectors) :
    Attempts F (v.enroll path kind size new root.table m) k fun r w _ =>
      InOrder (Visit.chains (root :: visits).reverse ++ inv.mapFile.place.chain) r w := by
  obtain ⟨-, htree, -⟩ := Inventory.nodup_split h.nodup
  obtain ⟨hroot, htables⟩ := List.forall_mem_cons.mp hpath.tables
  have hk := h.dataSize_pos
  unfold enroll
  refine Attempts.rethrow (fun _ => rfl) ?_
  show Attempts F (root.table.add path kind new >>= fun root => do
    root.store v.rootFile
    m.store v.freeMapFile
    Drive.note (.created kind path size new)) _ _
  rw [enroll_eq]
  refine (hpath.passes.amend_attempts path hroot (hpath.place ▸ h.root_header) htables
    (.of_nodup (htree.sublist hpath.sectors)) (Directory.insert_setsSlot path kind new)
    fun dir n => dir.insert_candid path n _ _).bind (fun e w k' _ h => h.cut _) ?_
  rintro ⟨⟩ w k₁ hkeep horder
  obtain rfl := horder.done _ rfl
  have hmap : k₁.HasFile inv.mapFile.place inv.mapFile.content :=
    h.map_file.keeps hkeep fun s hs hmem => by
      obtain ⟨t, ht, heq⟩ := List.mem_map.mp hmem
      cases heq
      exact hpath.chains_apart h.nodup s hs ht
  have hlength : (m.firstBytes (min m.stored v.freeMapFile.length)).length =
      inv.mapFile.content.length := by
    unfold Handle.length
    rw [FreeMap.length_firstBytes, h.map_header, ← h.map_file.length_content hk, h.map_length,
      hstored, Nat.min_self]
  refine (hmap.overwrite_attempts (hkeep.dataSize ▸ hk) h.map_header hlength).bind
    (fun e w k' _ h => .after _ h) ?_
  rintro ⟨⟩ w k₂ - hmapOrder
  refine (Attempts.candid (Candid.note _)).mono ?_
  rintro r w' k' - ⟨rfl, -⟩
  rw [List.append_nil]
  exact .after _ ⟨hmapOrder.sectors, hmapOrder.passed, fun _ _ => hmapOrder.done _ rfl⟩

/-- **A new file is written to free sectors**, and only then anything that leads to it. -/
theorem occupy_attempts (h : v.Consistent k inv) (hpath : k.OnPath inv path root visits)
    (kind : Kind) (size : Nat) :
    Attempts F (v.occupy path kind size root.table (inv.freeMap k.sectors)) k fun r w _ =>
      Staged (inv.freeMap k.sectors).free
        (Visit.chains (root :: visits).reverse ++ inv.mapFile.place.chain) r w := by
  have hk := h.dataSize_pos
  unfold occupy
  rw [FreeMap.claim?_eq]
  cases hfree : (inv.freeMap k.sectors).free with
  | nil => exact Attempts.throw (.none _ _ _)
  | cons s rest =>
    obtain ⟨hfresh, -⟩ := h.fresh_of_free hfree rest.length
    rw [List.take_length] at hfresh
    have hmark : ((inv.freeMap k.sectors).mark s).free = rest := FreeMap.free_mark_head hfree
    obtain ⟨hs, hbehind⟩ := FreeMap.lt_of_free_cons hfree
    dsimp only [List.head?_cons, Option.map_some]
    refine ((Disk.allocate_attempts _ size).and_survives (Disk.allocate_survives
      (m := (inv.freeMap k.sectors).mark s) hk (by rw [FreeMap.size_mark]; rfl) h.sectors_le
      size (C := fun _ _ => True))).bind ?_ ?_
    all_goals rw [hmark]
    · rintro e w k₁ - ⟨hw, -⟩
      exact .early e _ fun y hy => List.mem_cons_of_mem _ (List.mem_of_mem_take (hw y hy))
    rintro ⟨m, header⟩ w k₁ - ⟨hw, hok, -⟩
    have hw : ∀ y ∈ w, y.1 ∈ s :: rest := fun y hy =>
      List.mem_cons_of_mem _ (List.mem_of_mem_take (hw y hy))
    obtain ⟨hkeep, hok⟩ := hok _ rfl
    have hin : k.Keeps k₁ (· ∈ inv.sectors) := hkeep.mono fun t ht hmem =>
      (hfresh t (List.mem_cons_of_mem _ hmem)).2 ht
    cases header with
    | error e =>
      refine Attempts.fails (Candid.throw e) (Yields.throw e k₁) fun e' => ?_
      rw [List.append_nil]
      exact .early e' _ hw
    | ok header =>
      obtain ⟨rfl, hblocks, hchained⟩ := hok header rfl
      have hlt := hfresh s List.mem_cons_self
      have hsc : s ∉ rest.take (Layout.blocksFor size k.dataSize) := fun hmem =>
        absurd (hbehind s (List.mem_of_mem_take hmem)) (Nat.lt_irrefl s)
      have hnew : s :: rest.take (Layout.blocksFor size k.dataSize) ⊆ s :: rest :=
        List.cons_subset_cons s (List.take_subset _ _)
      refine Attempts.read (Candid.pure header) (Yields.pure header k₁) (fun e => ?_) ?_
      · rw [List.append_nil]
        exact .early e _ hw
      refine ((Disk.writeNew_attempts (hkeep.dataSize ▸ hk) (hkeep.sectorSize ▸ h.headerSize_le)
        (hkeep.sectors ▸ hlt.1) hsc hchained (hkeep.dataSize ▸ hblocks)).and_survives
        (Disk.writeNew_survives (hkeep.dataSize ▸ hk) (hkeep.sectorSize ▸ h.headerSize_le)
          (hkeep.sectors ▸ hlt.1) hsc hchained (hkeep.dataSize ▸ hblocks))).bind ?_ ?_
      · rintro e w' k₂ - ⟨hw', -⟩
        exact Staged.before (w := w) hw (.early e _ fun y hy => hnew (hw' y hy))
      rintro ⟨⟩ w' k₂ - ⟨hw', hkept, -⟩
      have hin₂ : k.Keeps k₂ (· ∈ inv.sectors) :=
        hin.trans ((hkept () rfl).mono fun t ht hmem => (hfresh t (hnew hmem)).2 ht)
      refine ((h.keeps hin₂ fun _ hs => hs).enroll_attempts (hpath.keeps hin₂) kind size s
        ?_).mono ?_
      · rw [FreeMap.stored_foldl_mark, FreeMap.stored_mark, hin₂.sectors]
        exact FreeMap.stored_ofBytes h.map_length
      · rintro r w'' k₃ - horder
        exact Staged.before (w := w) hw (Staged.before (w := w') (fun y hy => hnew (hw' y hy))
          ⟨[], w'', rfl, nofun, horder⟩)

/-- **A creation writes free sectors first**, then the directories on the path, the root last, and
then the free map. -/
theorem make_attempts (h : v.Consistent k inv) (hpath : k.OnPath inv path root visits)
    (kind : Kind) (size : Nat) :
    Attempts F (v.make path kind size) k fun r w _ => Staged (inv.freeMap k.sectors).free
      (Visit.chains (root :: visits).reverse ++ inv.mapFile.place.chain) r w := by
  have hnone : ∀ e : VolumeError, Staged (inv.freeMap k.sectors).free
      (Visit.chains (root :: visits).reverse ++ inv.mapFile.place.chain)
      (.error e : Except _ Unit) [] := fun e => .none e _ _
  rw [make_eq]
  refine Attempts.look (checkPath_candid path _) hnone fun _ => ?_
  refine Attempts.read v.freeMap_candid h.freeMap_yields hnone ?_
  refine Attempts.read v.root_candid (h.root_yields hpath.table) hnone ?_
  refine (Attempts.candid (root.table.follow_candid path (.ofPath path))).attempt.bind ?_ ?_
  · rintro e w k' - ⟨r, -, rfl, -⟩
    exact hnone e
  rintro found w k' - ⟨r, -, rfl, rfl⟩
  cases found with
  | ok e => exact Attempts.throw (hnone _)
  -- the search may have failed with an access: what is at the path is not known then
  | error x => exact h.occupy_attempts hpath kind size

end Volume.Consistent

namespace Usage

variable {blank : Drive} {u : Usage}

/-- **A creation writes what others lead to before anything that leads to it.** In every state that
can be reached after a successful format, for every path, kind and size, and whatever accesses `F`
makes fail: the attempted writes are first some to sectors that are free in the map on the disk,
then some to the blocks of the directories on the path, in the order of their chains, the last
directory on the path first and the root last, and then some to the blocks of the free map. As long
as no write to a directory was let through, every sector in use has the bytes that it had. -/
theorem reached_make_in_phases (hblank : blank.FaultFree)
    (hlimit : blank.device.sectors ≤ Link.limit) (h : Reached blank u) {q : Request}
    {path : String} {kind : Kind} {size : Nat} (hq : q.makes = some (path, kind, size)) (F : Faults)
    {r : Except VolumeError (Answer × Volume)} {d' : Drive}
    (hrun : q.perform u.volume { u.drive with faults := F } = ended r d') :
    ∃ (m : FreeMap) (map : Place) (root : Visit) (visits : List Visit) (l : List Access)
      (w₁ w₂ w₃ : List (Nat × Bool)),
      u.ask u.volume.freeMap = .ok m ∧
      map.sector = Layout.freeMapSector ∧ u.drive.disk.Lies map ∧
      root.place.sector = Layout.rootSector ∧ u.drive.disk.Tabled root ∧
      u.drive.disk.Passes (.ofPath path) root.table visits ∧
      d'.accesses.toList = u.drive.accesses.toList ++ l ∧
      F.writes u.drive.tally l = w₁ ++ w₂ ++ w₃ ∧
      Phases m (Visit.chains (root :: visits).reverse) map.chain w₁ w₂ w₃ ∧
      ((∀ y ∈ w₂, y.2 = false) →
        ∀ s, m.isUsed s = true → d'.device.sector? s = u.drive.device.sector? s) := by
  obtain ⟨inv, hu, -⟩ := h.sound hblank hlimit
  have hv := hu.consistent
  obtain ⟨root, visits, hpath⟩ := hv.exists_onPath path
  have hmake : Attempts F (q.perform u.volume) u.drive.disk fun r w _ =>
      Staged (inv.freeMap u.drive.disk.sectors).free
        (Visit.chains (root :: visits).reverse ++ inv.mapFile.place.chain) r w := by
    cases q with
    | create _ _ | makeDirectory _ =>
      cases hq
      refine (hv.make_attempts hpath _ _).bind ?_ ?_
      · exact fun e w k' _ h => h.map fun _ => (Answer.done, u.volume)
      · rintro ⟨⟩ w k' - h
        refine Attempts.pure ?_
        rw [List.append_nil]
        exact h.map fun _ => (Answer.done, u.volume)
    | _ => cases hq
  obtain ⟨r', d₁, l, hrun', hd', -, hlog, hkeep, w₁, w', hwrites, hfree, horder⟩ :=
    hmake { u.drive with faults := F } hu.fault_free.reliable rfl rfl
  obtain ⟨rfl, rfl⟩ := ended_inj (hrun.symm.trans hrun')
  obtain ⟨w₂, w₃, rfl, htables, hmap, hlast⟩ := horder.split
  have hphases : Phases (inv.freeMap u.drive.disk.sectors) (Visit.chains (root :: visits).reverse)
      inv.mapFile.place.chain w₁ w₂ w₃ := ⟨hfree, htables, hmap, hlast⟩
  refine ⟨_, inv.mapFile.place, root, visits, l, w₁, w₂, w₃,
    ask_eq hu.fault_free hv.freeMap_yields, hv.map_sector, hv.map_file.lies,
    hpath.place ▸ hv.root_sector, (hpath.tables root List.mem_cons_self).tabled, hpath.passes,
    hlog.accesses, by rw [List.append_assoc, ← hwrites], hphases, fun hfailed s hused =>
      hkeep.sector?_eq_of_reliable hu.fault_free.reliable hd' ?_⟩
  rw [hwrites, ← List.append_assoc]
  exact hphases.spares hpath.chains_ne_nil hfailed hused

/-- A file is made in a directory, and a block of the root cannot be written. -/
theorem reached_make_in_phases_root : ∃ u e d' F, Reached { device := .blank 64 128 } u ∧
    (Request.create "/d/f" 5).perform u.volume { u.drive with faults := F } = .error e d' ∧
    e = .io (.injected (.write 10)) ∧
    ∃ m tables map w₁ w₂ w₃, u.ask u.volume.freeMap = .ok m ∧ Phases m tables map w₁ w₂ w₃ ∧
      ((∀ y ∈ w₂, y.2 = false) →
        ∀ s, m.isUsed s = true → d'.device.sector? s = u.drive.device.sector? s) := by
  have hblank := Drive.faultFree_blank 64 128
  obtain ⟨v, d, hformat⟩ := (Volume.format_ok_iff hblank (by decide)).mpr (by decide)
  have hrun : (match Volume.format { device := .blank 64 128 } with
    | .error _ _ => false
    | .ok v d =>
      let u := (({ drive := d, volume := v } : Usage).call (.makeDirectory "/d")).2
      match (Request.create "/d/f" 5).perform u.volume
          { u.drive with faults := FaultPlan.pattern { writesLeft := some 20 } u.drive.tally } with
      | .ok _ _ => false
      | .error e _ => e == .io (.injected (.write 10))) = true := by decide +kernel
  rw [hformat] at hrun
  have hreached : Reached { device := .blank 64 128 }
      (({ drive := d, volume := v } : Usage).call (.makeDirectory "/d")).2 :=
    .call _ (.format hformat) trivial
  dsimp only at hrun
  split at hrun
  · cases hrun
  · rename_i e d' hfail
    obtain ⟨m, map, root, visits, l, w₁, w₂, w₃, hmap, -, -, -, -, -, -, -, hphases, hkeep⟩ :=
      reached_make_in_phases hblank (by decide) hreached rfl _ (r := .error e) hfail
    exact ⟨_, e, d', _, hreached, hfail, eq_of_beq hrun, m, _, _, w₁, w₂, w₃, hmap, hphases, hkeep⟩

end Usage

end SectorChain
