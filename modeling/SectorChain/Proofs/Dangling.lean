import SectorChain.Proofs.Claiming
import SectorChain.Proofs.SafeRemoval

/-!
# Making under faults

A new entry is written before the free map marks the sectors that it leads to. When an access fails
in between, the entry stays: it is in the slot that it was put into (`Inventory.vacancy?`), and its
sectors are free. It is the only one. `Disk.Reaches k hole s e` says that the entry `e` is reached
from the directory with its header in `s` without a look at the slot `hole`.

Results:
* `Carries.reaches`: entries that are reached lead to files, when the tables are as they were but
  for one slot.
* `enroll_survives`, `make_survives`: making fails with the volume as it was but for that slot.
* `reached_make_failed`: after a failure every entry that is reached without that slot leads to a
  file all of whose sectors are marked.
* `make_dangling`: an entry in that slot that leads to a free sector.
-/

namespace SectorChain

/-! ## What is reached -/

namespace Disk

/-- The entry is in use in the table of the directory with its header in `s`, and not in the slot
`hole`, which is given by the sector of a header and the number of the slot. -/
def Lists (k : Disk) (hole : Option (Nat × Nat)) (s : Nat) (e : Entry) : Prop :=
  ∃ p content i, ∃ table : Directory, k.HasFile p content ∧ p.sector = s ∧ table.IsIn content ∧
    table.slots[i]? = some e ∧ e.inUse = true ∧ hole ≠ some (s, i)

/-- **The entry is reached** from the directory with its header in a sector: it is in the table, or
is reached from a directory that an entry of the table leads to. -/
inductive Reaches (k : Disk) (hole : Option (Nat × Nat)) : (sector : Nat) → Entry → Prop
  | here {s : Nat} {e : Entry} (h : k.Lists hole s e) : Reaches k hole s e
  | deeper {s s' : Nat} {e e' : Entry} (h : k.Lists hole s e) (hkind : e.kind = .directory)
      (hsector : e.sector? = some s') (hbelow : Reaches k hole s' e') : Reaches k hole s e'

/-- The files of a tree are where they were, and its tables have the same slots but for `hole`. -/
def SameBut (k k' : Disk) (t : Node) (hole : Option (Nat × Nat)) : Prop :=
  ∀ x ∈ t.nodes, ∀ content, k.HasFile (placeOf x) content → ∃ content',
    k'.HasFile (placeOf x) content' ∧ ∀ table : Directory, table.IsIn content →
      ∃ table' : Directory, table'.IsIn content' ∧
        ∀ i, hole ≠ some ((placeOf x).sector, i) → table'.slots[i]? = table.slots[i]?

variable {k k' k'' : Disk} {t : Node} {hole : Option (Nat × Nat)} {s : Nat} {e : Entry}

theorem SameBut.mono {t' : Node} (h : k.SameBut k' t hole) (hsub : t'.nodes ⊆ t.nodes) :
    k.SameBut k' t' hole := fun x hx => h x (hsub hx)

theorem SameBut.of_keeps {p : Nat → Prop} (h : k.Keeps k' p) (hp : ∀ s ∈ t.sectors, p s)
    (hole : Option (Nat × Nat)) : k.SameBut k' t hole := fun x hx content hfile =>
  ⟨content, hfile.keeps h fun s hs => hp s (mem_sectorsOf.mpr ⟨x, hx, hs⟩),
    fun table hin => ⟨table, hin, fun _ _ => rfl⟩⟩

/-- The slots may change on the way to `k'`, but nothing that counts before or behind it. -/
theorem SameBut.keeps {p : Nat → Prop} (h : k.SameBut k' t hole) (hkeep : k'.Keeps k'' p)
    (hp : ∀ s ∈ t.sectors, p s) : k.SameBut k'' t hole := fun x hx content hfile => by
  obtain ⟨content', hfile', hsame⟩ := h x hx content hfile
  exact ⟨content', hfile'.keeps hkeep fun s hs => hp s (mem_sectorsOf.mpr ⟨x, hx, hs⟩), hsame⟩

theorem SameBut.after {p : Nat → Prop} (h : k'.SameBut k'' t hole) (hkeep : k.Keeps k' p)
    (hp : ∀ s ∈ t.sectors, p s) : k.SameBut k'' t hole := fun x hx content hfile =>
  h x hx content (hfile.keeps hkeep fun s hs => hp s (mem_sectorsOf.mpr ⟨x, hx, hs⟩))

/-- One file of a tree is torn by a new record for one slot of its table. -/
theorem Swaps.sameBut {q : Place} {old : Bytes} {table : Directory} {i n : Nat} {e e' : Entry}
    (h : k.Swaps k' t q (old.torn (⟨table.slots.set i e'⟩ : Directory).encode n))
    (hq : k.HasFile q old) (htable : table.IsIn old) (hi : table.slots[i]? = some e) :
    k.SameBut k' t (some (q.sector, i)) := by
  intro x hx content hfile
  refine ⟨_, h x hx content hfile, fun table₀ hin => ?_⟩
  by_cases heq : placeOf x = q
  · cases hq.content_unique (heq ▸ hfile)
    cases htable.unique hin
    obtain ⟨e'', htorn, -⟩ := htable.torn hi e' n
    refine ⟨_, by rw [if_pos heq]; exact htorn, fun j hj => List.getElem?_set_ne ?_⟩
    rintro rfl
    exact hj (by rw [heq])
  · exact ⟨table₀, by rwa [if_neg heq], fun _ _ => rfl⟩

/-- **Every entry that is reached** leads to a file of the tree that was there before. -/
theorem Carries.reaches (h : k.Carries t) (hsame : k.SameBut k' t hole) (hdir : t.kind = .directory)
    (hreach : k'.Reaches hole t.place.sector e) :
    ∃ x ∈ t.nodes, e.sector? = some (placeOf x).sector := by
  induction h generalizing e with
  | file _ => cases hdir
  | @directory p slots table content hfile hin hshows _ ih =>
    obtain ⟨content', hfile', hkept⟩ := hsame _ (Tree.root_mem p slots) _ hfile
    obtain ⟨table', hin', hslots⟩ := hkept table hin
    -- an entry that is listed is the one of a tree in the slots
    have hlisted : ∀ {e}, k'.Lists hole p.sector e → ∃ t, some (e, t) ∈ slots := by
      rintro e ⟨p', content'', i, table'', hfile'', hsector, hin'', hi, hused, hhole⟩
      obtain ⟨rfl, rfl⟩ := hfile'.unique hfile'' hsector.symm
      cases hin'.unique hin''
      rw [hslots i hhole] at hi
      exact hshows.exists_tree hi hused
    cases hreach with
    | here hlists =>
      obtain ⟨t, ht⟩ := hlisted hlists
      obtain ⟨x, hx, hplace⟩ := Node.exists_root t
      exact ⟨x, Slots.nodes_below p ht hx, hplace ▸ (hshows.leads _ _ ht).2⟩
    | deeper hlists hkind hsector hbelow =>
      obtain ⟨t, ht⟩ := hlisted hlists
      obtain ⟨hlead, hleadSector⟩ := hshows.leads _ _ ht
      cases hleadSector.symm.trans hsector
      obtain ⟨x, hx, hx'⟩ := ih _ t ht (hsame.mono (Slots.nodes_below p ht)) (hlead ▸ hkind) hbelow
      exact ⟨x, Slots.nodes_below p ht hx, hx'⟩

/-! ## Changes that fail -/

variable {F : Faults} {path : String} {editM : Directory → String → DriveM Directory}
  {edit : NodeSlots → String → Except VolumeError NodeSlots} {dir : Directory} {slots : NodeSlots}

/-- **A change that fails** in the slots fails whatever happens, and nothing is written. -/
theorem change_refused (hk : 0 < k.dataSize) {r : Route} {x : VolumeError}
    (hedit : Implements editM edit (Slots.lastName r)) (hcandid : ∀ dir n, Candid (editM dir n))
    (h : dir.Shows slots) (hall : k.CarriesAll slots)
    (hx : Slots.change Entry.name path edit r slots = .error x) :
    Survives F (Directory.change path editM r dir) k (fun _ _ => False) (fun _ k' => k' = k) := by
  induction r generalizing dir slots x with
  | invalid rest => exact Survives.throw rfl
  | last n => exact (hcandid dir n).survives_error (hedit.fails h hx)
  | step n rest ih =>
    unfold Directory.change
    unfold Slots.change at hx
    split at hx
    · rename_i hfind
      exact ((dir.search_candid path n).survives_error (search_missing h hfind)).bind
        fun _ _ => False.elim
    · rename_i i e f hfind
      have hlead := h.leads e _ (List.mem_of_getElem? (Slots.find?_eq_some hfind).1)
      refine Survives.read (dir.search_candid path n) (search_yields h hfind) (fun _ _ => rfl) ?_
      exact ((Directory.enter_candid e path).survives_error (enter_file hlead.1 path)).bind
        fun _ _ => False.elim
    · rename_i i e p below hfind
      have ht := List.mem_of_getElem? (Slots.find?_eq_some hfind).1
      obtain ⟨hkind, hsector⟩ := h.leads e _ ht
      cases hbelow : Slots.change Entry.name path edit rest below with
      | ok below' =>
        rw [hbelow] at hx
        cases hx
      | error y =>
        cases hall e _ ht with
        | directory table hfile hin hshows hinner =>
          refine Survives.read (dir.search_candid path n) (search_yields h hfind)
            (fun _ _ => rfl) ?_
          refine Survives.read (Directory.enter_candid e path)
            (enter_yields hkind hsector hk hfile hin path) (fun _ _ => rfl) ?_
          exact (ih hedit hshows hinner hbelow).bind fun _ _ => False.elim

end Disk

namespace Directory

variable {dir : Directory} {slots slots' : NodeSlots}

/-- **Insertion into a table** sets its first slot that is not in use. -/
theorem insert_yields (h : dir.Shows slots) (path : String) {n : String} {t : Node}
    {label : String → Entry} (hok : Slots.insert Entry.name path label t slots n = .ok slots') :
    ∃ i e, slots.findIdx? Option.isNone = some i ∧ dir.slots[i]? = some e ∧
      ∀ k kind sector, Yields (dir.insert path n kind sector) k
        (.ok ⟨dir.slots.set i (.ofFile n kind sector)⟩) k := by
  obtain ⟨hnone, i, hi, -, rfl⟩ := Slots.insert_eq_ok hok
  have hlt : i < dir.slots.length := by
    rw [h.length_eq]
    exact (List.findIdx?_eq_some_iff_getElem.mp hi).1
  refine ⟨i, dir.slots[i], hi, List.getElem?_eq_getElem hlt, fun k kind sector => ?_⟩
  rw [Directory.insert_eq]
  rw [entry?_isSome h, free_eq h, hnone, hi]
  exact (Yields.note _ k).bind (Yields.pure _ k)

end Directory

/-! ## What a failure leaves -/

/-- The slot that a new entry at the path gets: the sector of the header of its directory, and the
first slot there that is not in use. -/
def Inventory.vacancy? (inv : Inventory) (path : String) : Option (Nat × Nat) := do
  let (q, slots) ← Slots.parent Entry.name (.ofPath path) inv.root inv.slots
  return (q.sector, ← slots.findIdx? Option.isNone)

namespace Disk

/-- **All files there were** are where they were and are marked, and the tables are the same but for
the slot `hole`. -/
structure Spares (k k' : Disk) (inv : Inventory) (hole : Option (Nat × Nat)) : Prop where
  size : k.SameSize k'
  map : ∃ content, k'.HasFile inv.mapFile.place content ∧
    content.length = Layout.freeMapSize k.sectors ∧
    ∀ s ∈ inv.sectors, (FreeMap.ofBytes k.sectors content).isUsed s = true
  tree : k.SameBut k' inv.tree hole

/-- What making at the path leaves when it fails: there is no `hole`, or it is the slot of the new
entry, and an access was made to fail. -/
def Fallout (F : Faults) (inv : Inventory) (path : String) (k : Disk) (e : VolumeError)
    (k' : Disk) : Prop :=
  ∃ hole, (hole = none ∨ F.Injects e ∧ hole = inv.vacancy? path) ∧ k.Spares k' inv hole

variable {F : Faults} {k k' k'' : Disk} {v : Volume} {inv : Inventory} {path : String}
  {hole : Option (Nat × Nat)} {e : VolumeError}

theorem Spares.after (h : k'.Spares k'' inv hole) (hkeep : k.Keeps k' (· ∈ inv.sectors)) :
    k.Spares k'' inv hole where
  size := hkeep.sameSize.trans h.size
  map := hkeep.sectors ▸ h.map
  tree := h.tree.after hkeep fun _ => Inventory.mem_of_tree

theorem Fallout.after (h : Fallout F inv path k' e k'') (hkeep : k.Keeps k' (· ∈ inv.sectors)) :
    Fallout F inv path k e k'' := by
  obtain ⟨hole, hhole, hspares⟩ := h
  exact ⟨hole, hhole, hspares.after hkeep⟩

end Disk

namespace Volume

variable {F : Faults} {k k' : Disk} {v : Volume} {inv : Inventory} {path : String} {e : VolumeError}

/-- Outside the files nothing matters. -/
theorem Consistent.fallout (h : v.Consistent k inv) (hkeep : k.Keeps k' (· ∈ inv.sectors)) :
    Disk.Fallout F inv path k e k' := by
  have hmap := h.map_file.keeps hkeep fun _ => Inventory.mem_of_map
  exact ⟨none, .inl rfl, hkeep.sameSize, ⟨_, hmap, h.map_length, fun s hs => (h.used s).mpr hs⟩,
    .of_keeps hkeep (fun _ => Inventory.mem_of_tree) none⟩

/-! ## Adding the entry -/

theorem enroll_eq (v : Volume) (path : String) (kind : Kind) (size s : Nat) (root : Directory)
    (m : FreeMap) :
    (do
      let root ← root.add path kind s
      root.store v.rootFile
      m.store v.freeMapFile
      Drive.note (.created kind path size s)) = (do
      Directory.amend path (fun inner n => inner.insert path n kind s) (.ofPath path)
        v.rootFile root
      m.store v.freeMapFile
      Drive.note (.created kind path size s)) := by
  unfold Directory.amend
  rw [Directory.add_eq, bind_assoc]

/-- **An entry is added** and a map stored that marks all files there were, or this fails. -/
theorem Consistent.enroll_survives (h : v.Consistent k inv) {table : Directory}
    (htable : k.HasTable inv.root table) (hshows : table.Shows inv.slots)
    (hall : k.HoldsAll inv.slots) (kind : Kind) (size : Nat) {new : Nat} (hlt : new < Link.limit)
    {m : FreeMap} (hsize : m.size = k.sectors) (hstored : m.stored = Layout.freeMapSize k.sectors)
    (hmarked : ∀ s ∈ inv.sectors, m.isUsed s = true) :
    Survives F (v.enroll path kind size new table m) k (fun _ _ => True)
      (Disk.Fallout F inv path k) := by
  have hk := h.dataSize_pos
  have hcandid : ∀ (dir : Directory) n, Candid (dir.insert path n kind new) :=
    fun dir n => dir.insert_candid path n _ _
  -- only the kind of the new node and the sector of its header matter for the table
  let t : Node := .blank kind ⟨new, .empty, []⟩ 0
  have hkind : kind = t.kind := (Node.kind_blank kind _ 0).symm
  have hsector : new = t.place.sector := by rw [Node.place_blank]
  unfold enroll
  refine Survives.rethrow (fun _ => rfl) ?_
  cases hinsert : inv.insert path t with
  | error x =>
    have hrefused := Disk.change_refused (F := F) hk
      (Directory.insert_implements path hkind hsector hlt _) hcandid hshows hall.carries
      (by rw [hkind, hsector]; exact hinsert)
    rw [← Directory.add_eq] at hrefused
    refine (hrefused.mono (fun _ _ => id) ?_).bind fun _ _ => False.elim
    rintro e k' rfl
    exact h.fallout (Disk.Keeps.refl _ _)
  | ok slots =>
    obtain ⟨q, s, s', hparent, hedit⟩ := Slots.exists_parent hinsert inv.root
    obtain ⟨old, dir, hq, hdir, hshows'⟩ := h.held.carries.parent_table hparent
    obtain ⟨i, e, hi, hget, hy⟩ := Directory.insert_yields hshows' path hedit
    have hvacancy : inv.vacancy? path = some (q.sector, i) := by
      unfold Inventory.vacancy?
      rw [hparent]
      show (s.findIdx? Option.isNone).bind _ = _
      rw [hi]
      rfl
    obtain ⟨hmapNodup, htree, hout⟩ := Inventory.nodup_split h.nodup
    show Survives F (table.add path kind new >>= fun root => do
      root.store v.rootFile
      m.store v.freeMapFile
      Drive.note (.created kind path size new)) _ _ _
    rw [enroll_eq]
    refine Survives.bind ((Disk.amend_survives hk h.root_header htable.file htable.isIn hshows
      hall.carries htree hparent hq hdir (hcandid dir _) (hy k _ _)).mono (fun _ _ => id) ?_) ?_
    · rintro x k₁ ⟨hx, hkeep, n, hswap⟩
      refine ⟨_, .inr ⟨hx, hvacancy.symm⟩, hkeep.sameSize, ⟨_, h.map_file.keeps hkeep hout,
        h.map_length, fun s hs => (h.used s).mpr hs⟩, hswap.sameBut hq hdir hget⟩
    · rintro - k₁ ⟨hkeep, hswap⟩
      have hmap := h.map_file.keeps hkeep hout
      have hlength : inv.mapFile.content.length = Layout.freeMapSize m.size := hsize ▸ h.map_length
      refine Survives.bind ((Disk.storeMap_survives hmap (hkeep.dataSize ▸ hk) h.map_header
        (List.nodup_cons.mp hmapNodup).1 hlength (hsize ▸ hstored)).mono (fun _ _ => id) ?_) ?_
      · rintro x k₂ ⟨hx, hkeep₂, content, hfile, hlen, hmarks⟩
        refine ⟨_, .inr ⟨hx, hvacancy.symm⟩, hkeep.sameSize.trans hkeep₂.sameSize, ⟨content, hfile,
          hsize ▸ hlen, fun s hs => ?_⟩, (hswap.sameBut hq hdir hget).keeps hkeep₂ fun s hs hmem =>
            hout s (List.mem_cons_of_mem _ hmem) hs⟩
        rw [← hsize]
        rcases hmarks s with heq | heq
        · rw [heq]
          exact hmarked s hs
        · rw [heq, hsize]
          exact (h.used s).mpr hs
      · exact fun _ k₂ _ => (Survives.note _).mono (fun _ _ _ => trivial) fun _ _ => id

/-! ## Making -/

/-- **Sectors are taken** for a new file, or this fails: the free ones are written first, and then
the entry is added. -/
theorem Consistent.occupy_survives (h : v.Consistent k inv) {table : Directory}
    (htable : k.HasTable inv.root table) (hshows : table.Shows inv.slots)
    (hall : k.HoldsAll inv.slots) (kind : Kind) (size : Nat) :
    Survives F (v.occupy path kind size table (inv.freeMap k.sectors)) k (fun _ _ => True)
      (Disk.Fallout F inv path k) := by
  have hk := h.dataSize_pos
  unfold occupy
  rw [FreeMap.claim?_eq]
  cases hfree : (inv.freeMap k.sectors).free with
  | nil => exact Survives.throw (h.fallout (Disk.Keeps.refl _ _))
  | cons s rest =>
    obtain ⟨hfresh, -⟩ := h.fresh_of_free hfree rest.length
    rw [List.take_length] at hfresh
    have hmark : ((inv.freeMap k.sectors).mark s).free = rest := FreeMap.free_mark_head hfree
    obtain ⟨hs, hbehind⟩ := FreeMap.lt_of_free_cons hfree
    dsimp only [List.head?_cons, Option.map_some]
    refine (Disk.allocate_survives (m := (inv.freeMap k.sectors).mark s) hk
      (by rw [FreeMap.size_mark]; rfl) h.sectors_le size).bind ?_
    rintro ⟨m, header⟩ k₁ ⟨hkeep, hok⟩
    rw [hmark] at hkeep hok
    have hin : k.Keeps k₁ (· ∈ inv.sectors) := hkeep.mono fun t ht hmem =>
      (hfresh t (List.mem_cons_of_mem _ hmem)).2 ht
    cases header with
    | error e =>
      exact Survives.bind (Survives.throw (Q := fun _ _ => False) (h.fallout hin))
        fun _ _ => False.elim
    | ok header =>
      obtain ⟨rfl, hblocks, hchained⟩ := hok header rfl
      refine (Survives.pure (Q := fun h k' => h = header ∧ k' = k₁) ⟨rfl, rfl⟩).bind ?_
      rintro header k₁ ⟨rfl, rfl⟩
      have hlt := hfresh s List.mem_cons_self
      have hsc : s ∉ rest.take (Layout.blocksFor size k.dataSize) := fun hmem =>
        absurd (hbehind s (List.mem_of_mem_take hmem)) (Nat.lt_irrefl s)
      have hnew : ∀ {k''}, k₁.Keeps k'' (· ∉ s :: rest.take (Layout.blocksFor size k.dataSize)) →
          k.Keeps k'' (· ∈ inv.sectors) := fun hkeep₂ => hin.trans (hkeep₂.mono fun t ht hmem => by
        rcases List.mem_cons.mp hmem with rfl | hmem
        · exact hlt.2 ht
        · exact (hfresh t (List.mem_cons_of_mem _ (List.mem_of_mem_take hmem))).2 ht)
      refine Survives.bind ((Disk.writeNew_survives (hkeep.dataSize ▸ hk)
        (hkeep.sectorSize ▸ h.headerSize_le) (hkeep.sectors ▸ hlt.1) hsc hchained
        (hkeep.dataSize ▸ hblocks)).mono (fun _ _ => id) fun e k'' hkeep₂ =>
          h.fallout (hnew hkeep₂)) ?_
      rintro - k₂ hkeep₂
      have hin₂ := hnew hkeep₂
      refine ((h.keeps hin₂ fun _ hs => hs).enroll_survives
        (htable.keeps hin₂ fun _ => Inventory.mem_of_root) hshows
        (hall.keeps hin₂ fun _ => Inventory.mem_of_slots) kind size
        (Nat.lt_of_lt_of_le hlt.1 h.sectors_le) ?_ ?_ fun t ht => ?_).mono (fun _ _ => id)
          fun e k'' hfall => hfall.after hin₂
      · rw [FreeMap.size_foldl_mark, FreeMap.size_mark, hin₂.sectors]
        rfl
      · rw [FreeMap.stored_foldl_mark, FreeMap.stored_mark, hin₂.sectors]
        exact FreeMap.stored_ofBytes h.map_length
      · rw [FreeMap.isUsed_foldl_mark, FreeMap.isUsed_mark, (h.used t).mpr ht, Bool.or_true]
        · exact .inl rfl
        · intro t ht
          rw [FreeMap.size_mark]
          exact (hfresh t (List.mem_cons_of_mem _ (List.mem_of_mem_take ht))).1

/-- **Making fails** with all files there were in place and marked, and the tables the same but for
the slot of the new entry. -/
theorem Consistent.make_survives (h : v.Consistent k inv) (path : String) (kind : Kind)
    (size : Nat) :
    Survives F (v.make path kind size) k (fun _ _ => True) (Disk.Fallout F inv path k) := by
  have hsame : ∀ e, Disk.Fallout F inv path k e k := fun e => h.fallout (Disk.Keeps.refl _ _)
  obtain ⟨table, htable, hshows, hall⟩ := h.exists_table
  rw [make_eq]
  refine Survives.bind ((Survives.still (checkPath_candid path _).still).mono (fun _ _ => id) ?_) ?_
  · rintro e k' rfl
    exact hsame e
  rintro - k' rfl
  refine Survives.read v.freeMap_candid h.freeMap_yields (fun e _ => hsame e) ?_
  refine Survives.read v.root_candid (h.root_yields htable) (fun e _ => hsame e) ?_
  refine (Survives.still (table.follow_candid path (.ofPath path)).still).attempt.bind ?_
  -- the search may have failed with an access: what is at the path is not known then
  rintro - k' (⟨_, rfl, rfl⟩ | ⟨_, rfl, rfl⟩)
  · exact Survives.throw (hsame _)
  exact h.occupy_survives htable hshows hall kind size

end Volume

namespace Usage
variable {F : Faults} {blank : Drive} {u : Usage}

/-- **A failed creation spoils one slot at most.** -/
theorem reached_make_failed (hblank : blank.FaultFree)
    (hlimit : blank.device.sectors ≤ Link.limit) (h : Reached blank u) {q : Request}
    {path : String} {kind : Kind} {size : Nat} (hq : q.makes = some (path, kind, size))
    (F : Faults) {e : VolumeError} {d' : Drive}
    (hfail : q.perform u.volume { u.drive with faults := F } = .error e d') :
    ∃ inv, u.ask Volume.survey = .ok inv ∧ ∃ hole,
      (hole = none ∨ F.Injects e ∧ hole = inv.vacancy? path) ∧
      ∃ m, Yields u.volume.freeMap d'.disk (.ok m) d'.disk ∧
        ∀ entry, d'.disk.Reaches hole Layout.rootSector entry → ∃ p content,
          entry.sector? = some p.sector ∧ d'.disk.HasFile p content ∧
          ∀ s ∈ p.sectors, m.isUsed s = true := by
  obtain ⟨inv, hu, -⟩ := h.sound hblank hlimit
  have hv := hu.consistent
  have hmake : Survives F (q.perform u.volume) u.drive.disk (fun _ _ => True)
      (Disk.Fallout F inv path u.drive.disk) := by
    cases q with
    | create _ _ | makeDirectory _ =>
      cases hq
      exact (hv.make_survives path _ _).bind fun _ _ _ => Survives.pure trivial
    | _ => cases hq
  obtain ⟨-, -, herror⟩ := hmake.of_run (d := { u.drive with faults := F })
    hu.fault_free.reliable rfl rfl
  obtain ⟨hole, hhole, hsize, ⟨content, hfile, hlen, hmarked⟩, hsame⟩ := herror e d' hfail
  refine ⟨inv, ask_eq hu.fault_free hv.survey_yields, hole, hhole,
    .ofBytes u.drive.disk.sectors content, ?_, fun entry hreach => ?_⟩
  · rw [← hsize.sectors] at hlen ⊢
    exact (Yields.sectors _).bind (Disk.fetchMap_yields hfile (hsize.dataSize ▸ hv.dataSize_pos)
      hv.map_header hlen)
  · rw [← hv.root_sector] at hreach
    obtain ⟨x, hx, hsector⟩ := hv.held.carries.reaches hsame rfl hreach
    obtain ⟨old, hold⟩ := hv.held.carries.hasFile hx
    obtain ⟨new, hnew, -⟩ := hsame x hx old hold
    exact ⟨placeOf x, new, hsector, hnew, fun s hs => hmarked s (Inventory.mem_of_node hx hs)⟩

/-- A file is made while no sector can be written. -/
theorem reached_make_failed_writes : ∃ u e d', Reached { device := .blank 64 128 } u ∧
    (Request.create "/a" 5).perform u.volume
      { u.drive with faults := fun _ a => a matches .write _ } = .error e d' ∧
    ∃ hole m, Yields u.volume.freeMap d'.disk (.ok m) d'.disk ∧
      ∀ entry, d'.disk.Reaches hole Layout.rootSector entry → ∃ p content,
        entry.sector? = some p.sector ∧ d'.disk.HasFile p content ∧
        ∀ s ∈ p.sectors, m.isUsed s = true := by
  have hblank := Drive.faultFree_blank 64 128
  obtain ⟨v, d, hformat⟩ := (Volume.format_ok_iff hblank (by decide)).mpr (by decide)
  have hrun : (match Volume.format { device := .blank 64 128 } with
    | .error _ _ => false
    | .ok v d => match (Request.create "/a" 5).perform v
          { d with faults := fun _ a => a matches .write _ } with
      | .ok _ _ => false
      | .error _ _ => true) = true := by decide +kernel
  rw [hformat] at hrun
  dsimp only at hrun
  split at hrun
  · cases hrun
  · rename_i e d' hfail
    have hreached : Reached { device := .blank 64 128 } { drive := d, volume := v } :=
      .format hformat
    obtain ⟨-, -, hole, -, m, hmap, hmarked⟩ :=
      reached_make_failed hblank (by decide) hreached rfl _ hfail
    exact ⟨_, e, d', hreached, hfail, hole, m, hmap, hmarked⟩

/-- **An entry dangles**: a file is made in a directory while the second block of its table cannot
be written. Then its entry is in the first one, and leads to a header in a free sector. -/
theorem make_dangling : ∃ v d, Volume.format { device := .blank 64 128 } = .ok v d ∧
    let u := (({ drive := d, volume := v } : Usage).call (.makeDirectory "/d")).2
    let plan : FaultPlan := { writes := [16] }
    Reached { device := .blank 64 128 } u ∧
    ∃ e d', (Request.create "/d/f" 0).perform u.volume
        { u.drive with faults := plan.pattern u.drive.tally } = .error e d' ∧
      ∃ m entry, ({ u with drive := d'.calm } : Usage).ask u.volume.freeMap = .ok m ∧
        ({ u with drive := d'.calm } : Usage).ask (u.volume.findEntry "/d/f") = .ok entry ∧
        entry.inUse = true ∧ entry.sector? = some 26 ∧ m.isUsed 26 = false := by
  obtain ⟨v, d, hformat⟩ :=
    (Volume.format_ok_iff (Drive.faultFree_blank 64 128) (by decide)).mpr (by decide)
  have hrun : (match Volume.format { device := .blank 64 128 } with
    | .error _ _ => false
    | .ok v d =>
      let u := (({ drive := d, volume := v } : Usage).call (.makeDirectory "/d")).2
      match (Request.create "/d/f" 0).perform u.volume
          { u.drive with faults := FaultPlan.pattern { writes := [16] } u.drive.tally } with
      | .ok _ _ => false
      | .error _ d' =>
        let u' : Usage := { u with drive := d'.calm }
        match u'.ask u.volume.freeMap, u'.ask (u.volume.findEntry "/d/f") with
        | .ok m, .ok entry => entry.inUse && entry.sector? == some 26 && !m.isUsed 26
        | _, _ => false) = true := by decide +kernel
  rw [hformat] at hrun
  refine ⟨v, d, hformat, .call _ (.format hformat) trivial, ?_⟩
  dsimp only at hrun ⊢
  split at hrun
  · cases hrun
  · rename_i e d' hfail
    split at hrun
    · rename_i m entry hmap hentry
      rw [Bool.and_eq_true, Bool.and_eq_true, beq_iff_eq, Bool.not_eq_true'] at hrun
      exact ⟨e, d', hfail, m, entry, hmap, hentry, hrun.1.1, hrun.1.2, hrun.2⟩
    · cases hrun

end Usage

end SectorChain
