import SectorChain.Proofs.DamagedChains
import SectorChain.Proofs.SafeRemoval
import Mathlib.Data.List.Chain
import Mathlib.Logic.Relation

/-!
# Trees on a damaged disk

The directories of a damaged disk may lead anywhere: two entries to one header, a chain through the
blocks of another file, a header inside a chain. A release threads the free map through all that is
below an entry and gives back a sector only while it is in use, so it never gives back one twice.
`Disk.Bears` says what is found on such a disk, whatever sectors the files of a tree share.

Results:
* `fetch_cases`: a directory table that is read is that of its chain, or reading fails.
* `Bears.unique`: at most one tree is found from one header on.
* `releaseTree_cases`: what a release gives back are the sectors of a tree, each once.
* `Trail.length_le`: where no directory contains itself, there are not too many in one another.
* `remove_unfit`: a tree with a sector that is shared or not in use is not removed.
* `releaseTree_ends`: every other tree is given back, if no file in it is open.
* `releaseTree_exact`: the outcome of a release and of a removal on every device without faults.
-/

namespace SectorChain

variable {α : Type} {k : Disk}

/-! ## Reading -/

theorem Block.fetch_settles (k : Disk) (s : Nat) : Settles (Block.fetch s) k :=
  (k.block_cases s).imp (fun ⟨_, h⟩ => ⟨_, h.fetch_yields⟩) id

theorem Header.fetch_settles (k : Disk) (s : Nat) : Settles (Header.fetch s) k :=
  (k.header_cases s).imp (fun ⟨_, h⟩ => ⟨_, h.fetch_yields⟩) id

namespace Header

theorem follow_settles (k : Disk) (blocks hops index : Nat) (block : Block) :
    Settles (follow blocks hops index block) k := by
  induction hops generalizing index block with
  | zero => exact Settles.pure _
  | succ hops ih =>
    unfold follow
    cases block.next with
    | none => exact Settles.throw rfl
    | some s => exact (Block.fetch_settles k s).bind fun b => ih (index + 1) b

theorem blockAt_settles (k : Disk) (h : Header) (offset : Nat) : Settles (h.blockAt offset) k := by
  refine (Settles.ofYields (Yields.dataSize k)).bind fun _ => ?_
  dsimp only
  split
  · exact Settles.throw rfl
  · split
    · exact Settles.throw rfl
    · exact (Block.fetch_settles k _).bind fun b => follow_settles k _ _ _ b

end Header

namespace Handle

theorem fetch_settles (k : Disk) (s : Nat) : Settles (Handle.fetch s) k :=
  (Header.fetch_settles k s).bind fun _ => Settles.pure _

theorem readBlocks_settles (k : Disk) (f : Handle) (data count i : Nat) :
    Settles (f.readBlocks data count i) k := by
  induction count generalizing i with
  | zero => exact Settles.pure _
  | succ count ih =>
    exact (f.header.blockAt_settles k _).bind fun _ => (ih (i + 1)).bind fun _ => Settles.pure _

theorem readAt_settles (k : Disk) (f : Handle) (count pos : Nat) :
    Settles (f.readAt count pos) k := by
  unfold readAt
  split
  · exact Settles.pure _
  · exact (Settles.ofYields (Yields.note _ k)).bind fun _ =>
      (Settles.ofYields (Yields.dataSize k)).bind fun data =>
        (f.readBlocks_settles k data _ _).bind fun _ => Settles.pure _

end Handle

theorem FreeMap.fetch_settles (k : Disk) (f : Handle) (size : Nat) :
    Settles (FreeMap.fetch f size) k :=
  (f.readAt_settles k _ _).bind fun _ => (Settles.ofYields (Yields.note _ k)).bind fun _ =>
    Settles.pure _

theorem Entry.header_settles (k : Disk) (e : Entry) (path : String) :
    Settles (e.header path) k := by
  unfold Entry.header
  split
  · exact Settles.pure _
  · exact Settles.throw rfl

namespace Directory

theorem fetch_settles (k : Disk) (f : Handle) : Settles (Directory.fetch f) k :=
  (f.readAt_settles k _ _).bind fun _ => (Settles.decoded _).bind fun _ => Settles.pure _

theorem enter_settles (k : Disk) (e : Entry) (path : String) : Settles (enter e path) k := by
  unfold enter
  split
  · exact Settles.throw rfl
  · exact (e.header_settles k path).bind fun s => (Handle.fetch_settles k s).bind fun f =>
      (fetch_settles k f).bind fun _ => Settles.pure _

theorem search_settles (k : Disk) (dir : Directory) (path name : String) :
    Settles (dir.search path name) k := by
  unfold search
  split
  · exact Settles.pure _
  · exact Settles.throw rfl

theorem follow_settles (k : Disk) (path : String) (r : Route) (dir : Directory) :
    Settles (follow path r dir) k := by
  induction r generalizing dir with
  | invalid rest => exact Settles.throw rfl
  | last name => exact dir.search_settles k path name
  | step name rest ih =>
    exact (dir.search_settles k path name).bind fun e =>
      (enter_settles k e path).bind fun p => ih p.2

theorem findEntry_settles (k : Disk) (dir : Directory) (path : String) :
    Settles (dir.findEntry path) k := follow_settles k path _ dir

end Directory

namespace Disk

/-- A chain that is too short for the blocks is not read to its end. -/
theorem readBlocks_fails {f : Handle} {l : List Nat} (hk : 0 < k.dataSize)
    (hc : k.Chained f.header l) {count i : Nat} (hi : i ≤ l.length)
    (hshort : l.length < i + count) :
    Fails (f.readBlocks k.dataSize count i) k := by
  induction count generalizing i with
  | zero => omega
  | succ count ih =>
    by_cases hlt : i < l.length
    · exact Fails.after (hc.blockAt_yields (Nat.mul_div_cancel i hk) hlt)
        (ih hlt (by omega)).bind
    · have hend : f.header.blocks ≤ i * k.dataSize / k.dataSize := by
        rw [Nat.mul_div_cancel i hk, hc.blocks]
        omega
      refine Fails.bind (Fails.after (Yields.dataSize k) ?_)
      dsimp only
      rw [if_pos hend]
      exact Fails.throw rfl

/-- **A table that is read from a chain** is that of its bytes, and the chain has all that the file
has of it. -/
theorem Chained.fetch_cases {f : Handle} {l : List Nat} (hk : 0 < k.dataSize)
    (hc : k.Chained f.header l) :
    (∃ table, min Layout.directorySize f.header.length ≤ l.length * k.dataSize ∧
      table.IsIn (k.content f.header l) ∧ Yields (Directory.fetch f) k (.ok table) k) ∨
        Fails (Directory.fetch f) k := by
  by_cases hlen : min Layout.directorySize f.header.length ≤ l.length * k.dataSize
  · cases hdecode : Directory.decodeSlots Layout.directorySlots
      (Bytes.fit Layout.directorySize (k.content f.header l)) with
    | ok slots =>
      have hin : (⟨slots⟩ : Directory).IsIn (k.content f.header l) := hdecode
      exact .inl ⟨⟨slots⟩, hlen, hin, hc.fetch_yields hk hlen hin⟩
    | error e =>
      refine .inr (Fails.after (readAt_slice hk hc Layout.directorySize 0
        (by rwa [Nat.zero_add])) ?_)
      rw [List.drop_zero]
      unfold Bytes.fit at hdecode
      dsimp only
      rw [hdecode]
      exact Fails.bind (Fails.throw rfl)
  · have hclamp : Handle.clamp? Layout.directorySize 0 f.header.length =
        some (min Layout.directorySize f.header.length) := by
      unfold Handle.clamp?
      rw [if_neg (by omega), Nat.sub_zero]
    have hread : Fails (f.readAt Layout.directorySize 0) k := by
      unfold Handle.readAt Handle.length
      rw [hclamp]
      refine Fails.after (Yields.note _ k) (Fails.after (Yields.dataSize k) (Fails.bind ?_))
      rw [Nat.zero_div]
      refine readBlocks_fails hk hc (Nat.zero_le _) ?_
      have hblocks : l.length ≤ (min Layout.directorySize f.header.length - 1) / k.dataSize := by
        rw [Nat.le_div_iff_mul_le hk]
        omega
      simp only [span_eq, Nat.zero_div, Nat.zero_add]
      omega
    exact .inr hread.bind

/-- With a header in its sector, a directory is read as the table of its chain, if it has one. -/
theorem HasHeader.fetch_cases {s : Nat} {h : Header} (hs : k.HasHeader s h) :
    (∃ table, Yields (Directory.fetch ⟨h, s, 0⟩) k (.ok table) k ∧ ∀ l, k.Chained h l →
      min Layout.directorySize h.length ≤ l.length * k.dataSize ∧ table.IsIn (k.content h l)) ∨
        Fails (Directory.fetch ⟨h, s, 0⟩) k := by
  by_cases hchain : ∃ l, k.Chained h l
  · obtain ⟨l, hl⟩ := hchain
    rcases Chained.fetch_cases (f := ⟨h, s, 0⟩) hs.dataSize_pos hl with
      ⟨table, hlen, hin, hy⟩ | hfail
    · refine .inl ⟨table, hy, fun l' hl' => ?_⟩
      rw [← hl.unique hl']
      exact ⟨hlen, hin⟩
    · exact .inr hfail
  · rcases Directory.fetch_settles k ⟨h, s, 0⟩ with ⟨table, hy⟩ | hfail
    · exact .inl ⟨table, hy, fun l hl => absurd ⟨l, hl⟩ hchain⟩
    · exact .inr hfail

end Disk

/-! ## Trees that are found -/

namespace Slots

/-- Slots with the same labels are the same if the trees behind each label are. -/
theorem eq_of_labels {slots slots' : NodeSlots} (h : labels slots = labels slots')
    (hall : ∀ e t t', some (e, t) ∈ slots → some (e, t') ∈ slots' → t = t') : slots = slots' := by
  induction slots generalizing slots' with
  | nil =>
    cases slots' with
    | nil => rfl
    | cons slot' rest' => cases h
  | cons slot rest ih =>
    cases slots' with
    | nil => cases h
    | cons slot' rest' =>
      obtain ⟨hslot, hrest⟩ := List.cons.inj h
      obtain rfl := ih hrest fun e t t' ht ht' =>
        hall e t t' (List.mem_cons_of_mem _ ht) (List.mem_cons_of_mem _ ht')
      cases slot with
      | none =>
        cases slot' with
        | none => rfl
        | some c' => cases hslot
      | some c =>
        cases slot' with
        | none => cases hslot
        | some c' =>
          obtain ⟨e, t⟩ := c
          obtain ⟨e', t'⟩ := c'
          obtain rfl : e = e' := Option.some.inj hslot
          rw [hall e t t' List.mem_cons_self List.mem_cons_self]

/-- Trees for all labels fill slots. -/
theorem exists_of_labels {labels : List (Option Entry)} {cs : List (Entry × Node)}
    (h : labels.reduceOption = cs.map Prod.fst) :
    ∃ slots : NodeSlots, Slots.labels slots = labels ∧ children slots = cs := by
  induction labels generalizing cs with
  | nil =>
    obtain rfl : cs = [] := List.map_eq_nil_iff.mp h.symm
    exact ⟨[], rfl, rfl⟩
  | cons label rest ih =>
    cases label with
    | none =>
      obtain ⟨slots, hlabels, hchildren⟩ := ih h
      exact ⟨none :: slots, congrArg (none :: ·) hlabels, hchildren⟩
    | some e =>
      rw [List.reduceOption_cons_of_some] at h
      cases cs with
      | nil => cases h
      | cons c cs =>
        obtain ⟨rfl, hrest⟩ := List.cons.inj h
        obtain ⟨slots, hlabels, hchildren⟩ := ih hrest
        refine ⟨some c :: slots, congrArg (some c.1 :: ·) hlabels, ?_⟩
        unfold children at hchildren ⊢
        rw [List.reduceOption_cons_of_some, hchildren]

end Slots

namespace Disk

/-- **At most one tree is found** from one header on. -/
theorem Bears.unique {t t' : Node} (h : k.Bears t) (h' : k.Bears t') (hkind : t.kind = t'.kind)
    (hsector : t.place.sector = t'.place.sector) : t = t' := by
  induction h generalizing t' with
  | @file f hlies hcontent =>
    cases h' with
    | directory => cases hkind
    | @file f' hlies' hcontent' =>
      obtain ⟨place, content⟩ := f
      obtain ⟨place', content'⟩ := f'
      obtain rfl : place = place' := hlies.unique hlies' hsector
      obtain rfl : content = content' := hcontent.symm.trans hcontent'
      rfl
  | @directory p slots table hlies _ hin hshows _ ih =>
    cases h' with
    | file => cases hkind
    | @directory p' slots' table' hlies' _ hin' hshows' hall' =>
      obtain rfl : p = p' := hlies.unique hlies' hsector
      have htable : table.labels = table'.labels := by
        unfold Directory.IsIn at hin hin'
        have hslots := hin.symm.trans hin'
        unfold Directory.labels
        rw [Except.ok.inj hslots]
      have hslots : slots = slots' := by
        refine Slots.eq_of_labels (hshows.labels.symm.trans (htable.trans hshows'.labels))
          fun e t t' ht ht' => ?_
        obtain ⟨hkind, hsector⟩ := hshows.leads e t ht
        obtain ⟨hkind', hsector'⟩ := hshows'.leads e t' ht'
        exact ih e t ht (hall' e t' ht') (hkind.symm.trans hkind')
          (Option.some.inj (hsector.symm.trans hsector'))
      rw [hslots]

/-- Links can name the sectors of a file if they can name that of its header. -/
theorem Lies.lt_limit {p : Place} (h : k.Lies p) (hp : p.sector < Link.limit) {s : Nat}
    (hs : s ∈ p.sectors) : s < Link.limit := by
  rcases List.mem_cons.mp hs with rfl | hs
  · exact hp
  · obtain ⟨i, hi, rfl⟩ := List.getElem_of_mem hs
    exact (h.chained.linked.hasBlock hi).lt_limit.1

theorem Bears.lt_limit {t : Node} (h : k.Bears t) (ht : t.place.sector < Link.limit) {s : Nat}
    (hs : s ∈ t.sectors) : s < Link.limit := by
  induction h with
  | @file f hlies _ =>
    rw [Tree.sectors_file] at hs
    exact hlies.lt_limit ht hs
  | @directory p slots table hlies _ _ hshows _ ih =>
    rw [Tree.sectors_directory] at hs
    rcases List.mem_append.mp hs with hs | hs
    · exact hlies.lt_limit ht hs
    · obtain ⟨e, t, ht, hs⟩ := Slots.mem_sectors.mp hs
      exact ih e t ht (target_lt (hshows.leads e t ht).2) hs

/-- A tree whose sectors are all different is not too deep for a release. -/
theorem Bears.length_nodes_le {t : Node} (h : k.Bears t) (ht : t.place.sector < Link.limit)
    (hnodup : t.sectors.Nodup) : t.nodes.length ≤ Directory.depthLimit :=
  Nat.le_trans (Volume.length_le_sectorsOf t.nodes)
    (Nat.le_succ_of_le (Volume.length_le_of_nodup hnodup fun _ hs => h.lt_limit ht hs))

/-! ## Giving a tree back -/

/-- The directory with its header in `s` has an entry for the directory with its header in `s'`. -/
def Below (k : Disk) (s s' : Nat) : Prop :=
  ∃ table e, Yields (do Directory.fetch (← Handle.fetch s)) k (.ok table) k ∧ e ∈ table.entries ∧
    e.kind = .directory ∧ e.sector? = some s'

/-- Directories each of which is in the one before, from the one with its header in `s` on. -/
structure Trail (k : Disk) (kind : Kind) (s : Nat) (l : List Nat) : Prop where
  below : l.IsChain k.Below
  head : ∀ x ∈ l.head?, kind = .directory ∧ x = s

/-- **What may come of the release** of what has its header in `s`: a tree is found there, in which
nothing is open, and gives back its sectors, each once; or the release fails, and if it does so for
want of depth, as many directories are in one another. -/
def Releases (k : Disk) (isOpen : Nat → Bool) (x : DriveM FreeMap) (m : FreeMap) (depth : Nat)
    (kind : Kind) (s : Nat) : Prop :=
  (∃ t m', k.Bears t ∧ t.kind = kind ∧ t.place.sector = s ∧ m.Clears m' t.sectors ∧
    (∀ y ∈ t.nodes, isOpen (placeOf y).sector = false) ∧ Yields x k (.ok m') k) ∨
  ∃ e, Yields x k (.error e) k ∧
    (e.isEndless = true → ∃ l, l.length = depth ∧ k.Trail kind s l)

variable {v : Volume} {depth : Nat} {m : FreeMap}

theorem Releases.ofFails {isOpen : Nat → Bool} {x : DriveM FreeMap} {kind : Kind} {s : Nat}
    (h : Fails x k) : k.Releases isOpen x m depth kind s := by
  obtain ⟨e, hy, he⟩ := h
  exact .inr ⟨e, hy, fun hend => absurd (he.symm.trans hend) Bool.false_ne_true⟩

/-- The file with its header in `s` gives back its chain and the header, or the release fails. -/
theorem HasHeader.release_cases {s : Nat} {h : Header} (hs : k.HasHeader s h) (m : FreeMap)
    (path : String) :
    (∃ l m', k.Chained h l ∧ m.Clears m' (s :: l) ∧
      Yields (releaseFile path s m) k (.ok m') k) ∨ Fails (releaseFile path s m) k := by
  rcases k.release_cases h m with ⟨l, hl, hclears⟩ | hfail
  · have hy := hl.release_yields hclears.used
    by_cases hused : (l.foldl FreeMap.clear m).isUsed s = true
    · refine .inl ⟨l, _, hl, (hclears.trans (FreeMap.Clears.clear hused)).perm
        (List.perm_append_singleton s l), hs.fetch_yields.bind (hy.bind ?_)⟩
      rw [if_pos hused]
      exact Yields.pure _ k
    · refine .inr (Fails.after hs.fetch_yields (Fails.after hy ?_))
      rw [if_neg hused]
      exact Fails.throw rfl
  · exact .inr (Fails.after hs.fetch_yields hfail.bind)

/-- The trees that entries lead to give back their sectors in turn, or the release fails in one of
them. -/
theorem releaseAll_cases
    (hrec : ∀ path kind s m,
      k.Releases v.openFiles.holds (v.releaseTree depth path kind s m) m depth kind s)
    (path : String) (entries : List Entry) (m : FreeMap) :
    (∃ (cs : List (Entry × Node)) (m' : FreeMap), cs.map Prod.fst = entries ∧
      (∀ c ∈ cs, k.Bears c.2 ∧ c.1.kind = c.2.kind ∧ c.1.sector? = some c.2.place.sector ∧
        ∀ y ∈ c.2.nodes, v.openFiles.holds (placeOf y).sector = false) ∧
      m.Clears m' (cs.flatMap fun c => c.2.sectors) ∧
      Yields (releaseAll v depth path entries m) k (.ok m') k) ∨
    ∃ e, Yields (releaseAll v depth path entries m) k (.error e) k ∧
      (e.isEndless = true → ∃ c ∈ entries, ∃ s l, c.sector? = some s ∧ l.length = depth ∧
        k.Trail c.kind s l) := by
  induction entries generalizing m with
  | nil => exact .inl ⟨[], m, rfl, nofun, FreeMap.Clears.nil m, Yields.pure m k⟩
  | cons e rest ih =>
    unfold releaseAll at ih ⊢
    rw [List.foldlM_cons]
    cases hsector : e.sector? with
    | none =>
      have hheader := header_fails hsector (Path.join path e.name) k
      exact .inr ⟨_, hheader.bind_error.bind_error, fun hend => absurd hend Bool.false_ne_true⟩
    | some s =>
      have hheader := header_yields hsector (Path.join path e.name) k
      rcases hrec (Path.join path e.name) e.kind s m with
        ⟨t, m', ht, hkind, hplace, hclears, hclosed, hy⟩ | ⟨x, hy, hdeep⟩
      · rcases ih m' with ⟨cs, m'', rfl, hcs, hclears', hy'⟩ | ⟨x, hy', hdeep⟩
        · refine .inl ⟨(e, t) :: cs, m'', rfl, fun c hc => ?_, hclears.trans hclears',
            (hheader.bind hy).bind hy'⟩
          rcases List.mem_cons.mp hc with rfl | hc
          · exact ⟨ht, hkind.symm, hplace ▸ hsector, hclosed⟩
          · exact hcs c hc
        · refine .inr ⟨x, (hheader.bind hy).bind hy', fun hend => ?_⟩
          obtain ⟨c, hc, hlong⟩ := hdeep hend
          exact ⟨c, List.mem_cons_of_mem _ hc, hlong⟩
      · refine .inr ⟨x, (hheader.bind hy).bind_error, fun hend => ?_⟩
        obtain ⟨l, hlen, htrail⟩ := hdeep hend
        exact ⟨e, List.mem_cons_self, s, l, hsector, hlen, htrail⟩

/-- The trees in the slots of a directory, and then the file of the directory. -/
theorem releaseDirectory_cases
    (hrec : ∀ path kind s m,
      k.Releases v.openFiles.holds (v.releaseTree depth path kind s m) m depth kind s)
    {s : Nat} {h : Header} (hs : k.HasHeader s h) (hopen : v.openFiles.holds s = false)
    (path : String) (m : FreeMap) :
    k.Releases v.openFiles.holds (do
        let dir ← Directory.fetch (← Handle.fetch s)
        releaseFile path s (← releaseAll v depth path dir.entries m))
      m (depth + 1) .directory s := by
  rcases hs.fetch_cases with ⟨table, hfetch, htable⟩ | hfail
  · rcases releaseAll_cases hrec path table.entries m with
      ⟨cs, m₁, hentries, hcs, hclears, hy⟩ | ⟨e, hy, hdeep⟩
    · rcases hs.release_cases m₁ path with ⟨l, m₂, hl, hclears', hy'⟩ | hfail
      · obtain ⟨hlen, hin⟩ := htable l hl
        obtain ⟨slots, hlabels, hchildren⟩ :=
          Slots.exists_of_labels (table.entries_eq.symm.trans hentries.symm)
        have hmem : ∀ e t, some (e, t) ∈ slots → (e, t) ∈ cs := fun e t ht =>
          hchildren ▸ Slots.mem_children.mpr ht
        refine .inl ⟨.directory ⟨s, h, l⟩ slots, m₂, .directory table ⟨hs, hl⟩ hlen hin
          ⟨hlabels.symm, fun e t ht =>
            have ⟨_, hkind, hsector, _⟩ := hcs _ (hmem e t ht)
            ⟨hkind, hsector⟩⟩
          fun e t ht => (hcs _ (hmem e t ht)).1, rfl, rfl, ?_, ?_,
          hs.open_yields.bind (hfetch.bind (hy.bind hy'))⟩
        · rw [Tree.sectors_directory, Slots.sectors_eq, hchildren]
          exact (hclears.trans hclears').perm List.perm_append_comm
        · rw [Tree.nodes_directory, Slots.nodes, hchildren]
          refine List.forall_mem_cons.mpr ⟨hopen, fun y hmem => ?_⟩
          obtain ⟨c, hc, hyc⟩ := List.mem_flatMap.mp hmem
          exact (hcs c hc).2.2.2 y hyc
      · exact Releases.ofFails (Fails.after hs.open_yields (Fails.after hfetch
          (Fails.after hy hfail)))
    · refine .inr ⟨e, hs.open_yields.bind (hfetch.bind hy.bind_error), fun hend => ?_⟩
      obtain ⟨c, hc, s', l, hsector, hlen, htrail⟩ := hdeep hend
      refine ⟨s :: l, congrArg (· + 1) hlen, List.isChain_cons.mpr ⟨fun x hx => ?_, htrail.below⟩,
        fun x hx => ⟨rfl, (Option.some.inj hx).symm⟩⟩
      obtain ⟨hkind, rfl⟩ := htrail.head x hx
      exact ⟨table, c, hs.open_yields.bind hfetch, hc, hkind, hsector⟩
  · exact Releases.ofFails (Fails.after hs.open_yields hfail.bind)

/-- **What may come of the release of a tree**, whatever is on the disk. -/
theorem releaseTree_cases (k : Disk) (v : Volume) (depth : Nat) (path : String) (kind : Kind)
    (s : Nat) (m : FreeMap) :
    k.Releases v.openFiles.holds (v.releaseTree depth path kind s m) m depth kind s := by
  induction depth generalizing path kind s m with
  | zero => exact .inr ⟨_, Yields.throw _ k, fun _ => ⟨[], rfl, List.IsChain.nil, nofun⟩⟩
  | succ depth ih =>
    cases hopen : v.openFiles.holds s with
    | true =>
      exact .inr ⟨_, releaseTree_open depth path kind m hopen,
        fun hend => absurd hend Bool.false_ne_true⟩
    | false =>
      rcases k.header_cases s with ⟨h, hs⟩ | hfail
      · cases kind with
        | file =>
          rw [releaseTree_file depth path s m hopen]
          rcases hs.release_cases m path with ⟨l, m', hl, hclears, hy⟩ | hfail
          · refine .inl ⟨.file ⟨⟨s, h, l⟩, k.content h l⟩, m', .file ⟨hs, hl⟩ rfl, rfl, rfl, ?_,
              ?_, hy⟩
            · rw [Tree.sectors_file]
              exact hclears
            · rw [Tree.nodes_file]
              exact List.forall_mem_singleton.mpr hopen
          · exact Releases.ofFails hfail
        | directory =>
          rw [releaseTree_directory depth path s m hopen]
          exact releaseDirectory_cases ih hs hopen path m
      · cases kind with
        | file =>
          rw [releaseTree_file depth path s m hopen]
          exact Releases.ofFails hfail.bind
        | directory =>
          rw [releaseTree_directory depth path s m hopen]
          exact Releases.ofFails (Fails.bind (Fails.bind hfail))

/-! ## Directories that do not contain themselves -/

/-- Directories each of which is in the one before have headers that links can name. -/
theorem Trail.lt_limit {l : List Nat} (h : l.IsChain k.Below)
    (hhead : ∀ x ∈ l.head?, x < Link.limit)
    {x : Nat} (hx : x ∈ l) : x < Link.limit := by
  induction l with
  | nil => cases hx
  | cons y rest ih =>
    obtain ⟨hbelow, hrest⟩ := List.isChain_cons.mp h
    rcases List.mem_cons.mp hx with rfl | hx
    · exact hhead x rfl
    · refine ih hrest (fun z hz => ?_) hx
      obtain ⟨_, _, _, _, _, hsector⟩ := hbelow z hz
      exact target_lt hsector

/-- **Where no directory contains itself**, there are no more of them in one another than links can
name. -/
theorem Trail.length_le {kind : Kind} {s : Nat} {l : List Nat} (h : k.Trail kind s l)
    (hs : s < Link.limit)
    (hacyclic : ∀ x, Relation.ReflTransGen k.Below s x → ¬Relation.TransGen k.Below x x) :
    l.length ≤ Link.limit := by
  have hlt := fun x hx => Trail.lt_limit h.below (fun y hy => (h.head y hy).2 ▸ hs) (x := x) hx
  have hpair := List.isChain_iff_pairwise.mp
    (h.below.imp fun _ _ hbelow => Relation.TransGen.single hbelow)
  refine Volume.length_le_of_nodup ?_ hlt
  cases l with
  | nil => exact List.nodup_nil
  | cons y rest =>
    obtain rfl := (h.head y rfl).2
    have hreach : ∀ x ∈ y :: rest, Relation.ReflTransGen k.Below y x := fun x hx => by
      rcases List.mem_cons.mp hx with rfl | hx
      · exact .refl
      · exact ((List.pairwise_cons.mp hpair).1 x hx).to_reflTransGen
    refine hpair.imp_of_mem ?_
    rintro x _ hx - hbelow rfl
    exact hacyclic x (hreach x hx) hbelow

end Disk

/-- The directory with its header in `s` is read, and has an entry for the directory with its header
in `s'`. -/
def Drive.Contains (d : Drive) (s s' : Nat) : Prop :=
  ∃ table d' e, (do Directory.fetch (← Handle.fetch s)) d = .ok table d' ∧ e ∈ table.entries ∧
    e.kind = .directory ∧ e.sector? = some s'

theorem Disk.Below.contains {d : Drive} (hd : d.FaultFree) {s s' : Nat} (h : d.disk.Below s s') :
    d.Contains s s' := by
  obtain ⟨table, e, hy, he⟩ := h
  obtain ⟨d', hrun, -⟩ := hy d hd rfl
  exact ⟨table, d', e, hrun, he⟩

/-! ## Removing -/

/-- An answer leads on, and an error ends it all. -/
theorem Settles.andThen {β : Type} {x : DriveM α} {f : α → DriveM β} {P : Prop} (hx : Settles x k)
    (hf : ∀ a, Yields x k (.ok a) k → (∃ e, Yields (f a) k (.error e) k) ∨ P) :
    (∃ e, Yields (x >>= f) k (.error e) k) ∨ P := by
  rcases hx with ⟨a, hx⟩ | ⟨e, hx, -⟩
  · exact (hf a hx).imp_left fun ⟨e, hy⟩ => ⟨e, hx.bind hy⟩
  · exact .inl ⟨e, hx.bind_error⟩

namespace Volume

variable {v : Volume} {path : String} {recursive : Bool} {d : Drive}

/-- All of `remove` that comes before the first write: the answer is the root table, the entry, and
the free map without the sectors. -/
def prepare (v : Volume) (path : String) (recursive : Bool) :
    DriveM (Directory × Entry × FreeMap) := do
  checkPath path (.invalidPath path)
  let m ← v.freeMap
  let root ← v.root
  let entry ← root.findEntry path
  let sector ← entry.header path
  checkEmpty entry path recursive
  let m ← v.releaseTree Directory.depthLimit path entry.kind sector m
  return (root, entry, m)

theorem remove_eq_prepare (v : Volume) (path : String) (recursive : Bool) :
    v.remove path recursive =
      v.prepare path recursive >>= fun p => v.strike path p.2.1.kind p.1 p.2.2 := by
  rw [remove_eq, prepare]
  simp only [bind_assoc, pure_bind]

theorem prepare_still (v : Volume) (path : String) (recursive : Bool) :
    Still (v.prepare path recursive) :=
  (checkPath_still _ _).bind fun _ => v.freeMap_still.bind fun m => v.root_still.bind fun root =>
    (root.findEntry_still path).bind fun e => (e.header_still path).bind fun s =>
      (checkEmpty_still e path recursive).bind fun _ =>
        (v.releaseTree_still _ path e.kind s m).bind fun _ => Still.pure _

/-- A path is refused at once, or may be removed. -/
theorem checkPath_cases (k : Disk) (path : String) (atRoot : VolumeError) :
    (∃ x, Yields (checkPath path atRoot) k (.error x) k) ∨
      Yields (checkPath path atRoot) k (.ok ()) k := by
  cases hpath : Path.validate path with
  | error x => exact .inl ⟨x, checkPath_fails k (.inl hpath)⟩
  | ok =>
    by_cases hroot : path = "/"
    · exact .inl ⟨_, checkPath_fails k (.inr ⟨hroot, rfl⟩)⟩
    · exact .inr (checkPath_yields atRoot k hpath hroot)

theorem checkEmpty_settles (k : Disk) (e : Entry) (path : String) (recursive : Bool) :
    Settles (checkEmpty e path recursive) k := by
  unfold checkEmpty
  split
  · refine (Directory.enter_settles k e path).bind fun p => ?_
    dsimp only
    split
    · exact Settles.throw rfl
    · exact Settles.pure _
  · exact Settles.pure _

theorem freeMap_settles (k : Disk) (v : Volume) : Settles v.freeMap k :=
  (Settles.ofYields (Yields.sectors k)).bind fun _ => FreeMap.fetch_settles k _ _

/-- **What comes before the first write of a removal** fails, or the entry at the path leads to a
tree whose sectors are all different and in use. -/
theorem prepare_cases (k : Disk) (v : Volume) (path : String) (recursive : Bool) :
    (∃ x, Yields (v.prepare path recursive) k (.error x) k) ∨
      ∃ m e t, Yields v.freeMap k (.ok m) k ∧ Yields (v.findEntry path) k (.ok e) k ∧ k.Bears t ∧
        t.kind = e.kind ∧ e.sector? = some t.place.sector ∧ t.sectors.Nodup ∧
          ∀ s ∈ t.sectors, m.isUsed s = true := by
  rcases checkPath_cases k path (.invalidPath path) with ⟨x, hx⟩ | hpath
  · exact .inl ⟨x, hx.bind_error⟩
  refine (Settles.ofYields hpath).andThen fun _ _ => (freeMap_settles k v).andThen fun m hm =>
    (Directory.fetch_settles k v.rootFile).andThen fun root hroot =>
      (root.findEntry_settles k path).andThen fun e he => ?_
  cases hsector : e.sector? with
  | none =>
    exact .inl ⟨_, (Disk.header_fails hsector path k).bind_error⟩
  | some s =>
    have hheader := Disk.header_yields hsector path k
    rcases checkEmpty_settles k e path recursive with ⟨_, hempty⟩ | ⟨x, hempty, -⟩
    · rcases Disk.releaseTree_cases k v Directory.depthLimit path e.kind s m with
        ⟨t, m', ht, hkind, hplace, hclears, -, -⟩ | ⟨x, hrelease, -⟩
      · exact .inr ⟨m, e, t, hm, hroot.bind he, ht, hkind, hplace ▸ hsector, hclears.nodup,
          hclears.used⟩
      · exact .inl ⟨x, hheader.bind (hempty.bind hrelease.bind_error)⟩
    · exact .inl ⟨x, hheader.bind hempty.bind_error⟩

/-- **A removal that finds anything wrong** with the sectors of the tree fails, and writes
nothing. -/
theorem remove_unfit (hd : d.FaultFree) {e : Entry} {m : FreeMap} {d₁ d₂ : Drive}
    (hm : v.freeMap d = .ok m d₁) (he : v.findEntry path d = .ok e d₂)
    (hunfit : ∀ t, d.disk.Bears t → t.kind = e.kind → e.sector? = some t.place.sector →
      ¬(t.sectors.Nodup ∧ ∀ s ∈ t.sectors, m.isUsed s = true)) :
    ∃ x d', v.remove path recursive d = .error x d' ∧ d'.device = d.device := by
  rcases prepare_cases d.disk v path recursive with
    ⟨x, hx⟩ | ⟨m', e', t, hm', he', ht, hkind, hsector, hnodup, hused⟩
  · obtain ⟨d', hrun, hdevice⟩ := hd.run (v.prepare_still path recursive) hx
    refine ⟨x, d', ?_, hdevice⟩
    rw [remove_eq_prepare]
    exact run_bind_error hrun
  · obtain ⟨d₃, hrun, -⟩ := hm' d hd rfl
    obtain ⟨d₄, hrun', -⟩ := he' d hd rfl
    rw [hm] at hrun
    rw [he] at hrun'
    cases hrun
    cases hrun'
    exact absurd ⟨hnodup, hused⟩ (hunfit t ht hkind hsector)

/-- **Every release ends**, and just a tree that is found, with sectors that are all different and
in use, is given back. -/
theorem releaseTree_ends (hd : d.FaultFree) (v : Volume) (m : FreeMap) (path : String) (kind : Kind)
    {s : Nat} (hs : s < Link.limit) :
    ∃ r d', v.releaseTree Directory.depthLimit path kind s m d = ended r d' ∧
      d'.device = d.device ∧
      (∀ m', r = .ok m' → ∃ t, d.disk.Bears t ∧ t.kind = kind ∧ t.place.sector = s ∧
        m.Clears m' t.sectors) ∧
      (∀ t, d.disk.Bears t → t.kind = kind → t.place.sector = s → t.sectors.Nodup →
        (∀ i ∈ t.sectors, m.isUsed i = true) → t.firstOpen v.openFiles.holds path = none →
        ∃ m', r = .ok m') ∧
      ((∀ x, Relation.ReflTransGen d.Contains s x → ¬Relation.TransGen d.Contains x x) →
        ∀ q, r ≠ .error (.corrupt (.endlessNesting q))) := by
  have hstill := v.releaseTree_still Directory.depthLimit path kind s m
  rcases d.disk.releaseTree_cases v Directory.depthLimit path kind s m with
    ⟨t, m', ht, hkind, hplace, hclears, -, hy⟩ | ⟨x, hy, hdeep⟩
  · obtain ⟨d', hrun, hdevice⟩ := hd.run hstill hy
    refine ⟨.ok m', d', hrun, hdevice, ?_, fun _ _ _ _ _ _ _ => ⟨m', rfl⟩, fun _ _ => nofun⟩
    rintro m'' ⟨⟩
    exact ⟨t, ht, hkind, hplace, hclears⟩
  · obtain ⟨d', hrun, hdevice⟩ := hd.run hstill hy
    refine ⟨.error x, d', hrun, hdevice, fun _ => nofun, ?_, fun hacyclic q hq => ?_⟩
    · rintro t ht rfl rfl hnodup hused hclosed
      cases hd.yields_unique hy
        (ht.release_yields (ht.length_nodes_le hs hnodup) hnodup hused hclosed)
    · obtain rfl := Except.error.inj hq
      obtain ⟨l, hlen, htrail⟩ := hdeep rfl
      have hle := htrail.length_le hs fun x hx hloop => hacyclic x
        (hx.lift id fun _ _ hbelow => Disk.Below.contains hd hbelow)
        (hloop.lift id fun _ _ hbelow => Disk.Below.contains hd hbelow)
      rw [hlen, Directory.depthLimit] at hle
      omega

/-- **What comes of a release on an arbitrary disk.** On every device without faults, whatever its
sectors hold, the release of what an entry leads to ends and writes nothing. If it succeeds, a tree
is found there whose sectors are all different and were all in use; just their marks are cleared,
and there are as many free sectors more. It does succeed if there is such a tree and no file in it
is open; and where no directory contains itself it does not fail for want of an end. At most one
tree is found behind an entry; and if none is, or two of its sectors are the same, or one is not in
use, then removing what is at a path that leads to the entry fails, and writes nothing. -/
theorem releaseTree_exact (hd : d.FaultFree) (v : Volume) (m : FreeMap) (path : String)
    (e : Entry) :
    (∀ s, e.sector? = some s →
      ∃ r d', v.releaseTree Directory.depthLimit path e.kind s m d = ended r d' ∧
        d'.device = d.device ∧
        (∀ m', r = .ok m' → ∃ t, d.disk.Bears t ∧ t.kind = e.kind ∧ t.place.sector = s ∧
          m.Clears m' t.sectors ∧ m'.numFree = m.numFree + t.sectors.length) ∧
        (∀ t, d.disk.Bears t → t.kind = e.kind → t.place.sector = s → t.sectors.Nodup →
          (∀ i ∈ t.sectors, m.isUsed i = true) → t.firstOpen v.openFiles.holds path = none →
          ∃ m', r = .ok m') ∧
        ((∀ x, Relation.ReflTransGen d.Contains s x → ¬Relation.TransGen d.Contains x x) →
          ∀ q, r ≠ .error (.corrupt (.endlessNesting q)))) ∧
    (∀ t t', d.disk.Bears t → d.disk.Bears t' → t.kind = t'.kind →
      t.place.sector = t'.place.sector → t = t') ∧
    (∀ recursive d₁ d₂, v.freeMap d = .ok m d₁ → v.findEntry path d = .ok e d₂ →
      (∀ t, d.disk.Bears t → t.kind = e.kind → e.sector? = some t.place.sector →
        ¬(t.sectors.Nodup ∧ ∀ s ∈ t.sectors, m.isUsed s = true)) →
      ∃ x d', v.remove path recursive d = .error x d' ∧ d'.device = d.device) := by
  refine ⟨fun s hsector => ?_, fun t t' ht ht' => ht.unique ht',
    fun recursive d₁ d₂ hm he => remove_unfit hd hm he⟩
  obtain ⟨r, d', hrun, hdevice, hfound, hsucceeds, hends⟩ :=
    releaseTree_ends hd v m path e.kind (Disk.target_lt hsector)
  refine ⟨r, d', hrun, hdevice, fun m' hr => ?_, hsucceeds, hends⟩
  obtain ⟨t, ht, hkind, hplace, hclears⟩ := hfound m' hr
  exact ⟨t, ht, hkind, hplace, hclears, hclears.numFree⟩

/-- With an empty map stored in the free map file, all files are still found, but no sector is in
use. -/
theorem Consistent.wiped {inv : Inventory} (h : v.Consistent k inv) : ∃ k' inv',
    Yields ((FreeMap.empty k.sectors).store v.freeMapFile) k (.ok ()) k' ∧ v.Legible k' inv' ∧
      (∀ path, inv'.find path = inv.find path) ∧
        ∀ s, (inv'.freeMap k'.sectors).isUsed s = false := by
  have hapart := h.nodup
  rw [Inventory.sectors_eq, ← Tree.sectors_directory] at hapart
  obtain ⟨hmap, -, hout⟩ := List.nodup_append.mp hapart
  obtain ⟨k', content, hy, hkeep, hfile, hlength, hmarks⟩ := Disk.storeMap_yields h.map_file
    h.dataSize_pos h.map_header (List.nodup_cons.mp hmap).1 (m := FreeMap.empty k.sectors)
    h.map_length rfl
  refine ⟨k', ⟨⟨inv.mapFile.place, content⟩, inv.root, inv.slots⟩, hy,
    ⟨⟨hkeep.sectorSize ▸ h.headerSize_le, hfile, hkeep.sectors ▸ hlength, h.map_sector,
      h.map_header, h.root_sector, h.root_header⟩, hkeep.sectors ▸ h.sectors_le,
    h.held.keeps hkeep fun s hs hmem => hout s (List.mem_cons_of_mem _ hmem) s hs rfl⟩,
    fun _ => rfl, fun s => ?_⟩
  unfold Inventory.freeMap
  rw [hkeep.sectors]
  refine (hmarks s).trans ?_
  unfold FreeMap.isUsed FreeMap.empty
  rw [Marks.contains_empty, Bool.and_false]

/-- A file that was just made is found, and gives back its sectors. Once no sector is in use, it is
still found, but it is not removed. -/
theorem releaseTree_exact_created : ∃ (d d' : Drive) (v : Volume) (e : Entry) (s : Nat)
    (m m' : FreeMap), d.FaultFree ∧ e.sector? = some s ∧
      v.releaseTree Directory.depthLimit "/a" e.kind s m d = .ok m' d' ∧ m.numFree < m'.numFree ∧
        (∃ t, d.disk.Bears t ∧ m.Clears m' t.sectors) ∧
      ∃ (d₀ d₁ d₂ d₃ : Drive) (m₀ : FreeMap) (x : VolumeError), d₀.FaultFree ∧
        v.freeMap d₀ = .ok m₀ d₁ ∧ v.findEntry "/a" d₀ = .ok e d₂ ∧ (∃ t, d₀.disk.Bears t) ∧
          v.remove "/a" false d₀ = .error x d₃ ∧ d₃.device = d₀.device := by
  obtain ⟨_, _, u, _, inv, -, -, heffect, hu, hopen⟩ := Usage.exists_created
  obtain ⟨-, e, p, hfind⟩ := heffect.find_created (by decide)
  obtain ⟨ht, hkind, hsector, -⟩ := hu.consistent.found hfind
  obtain ⟨-, hnodup, hused⟩ := hu.consistent.found_facts hfind
  have hclosed : (Tree.file ⟨p, Bytes.zeros 5⟩ : Node).firstOpen u.volume.openFiles.holds "/a" =
      none := by
    rw [Tree.firstOpen_eq_none, hopen]
    exact fun _ _ => rfl
  obtain ⟨r, d', hrun, -, hok, hsucceeds, -⟩ := (releaseTree_exact hu.fault_free u.volume
    (inv.freeMap u.drive.disk.sectors) "/a" e).1 _ hsector
  obtain ⟨m', rfl⟩ := hsucceeds _ ht.carries.bears hkind.symm rfl hnodup hused hclosed
  obtain ⟨t, hbears, -, -, hclears, hfree⟩ := hok _ rfl
  refine ⟨u.drive, d', u.volume, e, _, _, _, hu.fault_free, hsector, hrun, ?_,
    ⟨t, hbears, hclears⟩, ?_⟩
  · rw [hfree]
    exact Nat.lt_add_of_pos_right (List.length_pos_of_mem (Node.sector_mem_sectors t))
  -- the same volume, with an empty map in its file
  · obtain ⟨_, inv₀, hwipe, hlegible, hsame, hmarks⟩ := hu.consistent.wiped
    obtain ⟨d₀, -, hd₀, rfl⟩ := hwipe u.drive hu.fault_free rfl
    have hfind₀ := (hsame "/a").trans hfind
    have hentry := hlegible.findEntry_yields "/a"
    rw [hfind₀] at hentry
    obtain ⟨d₁, hmap, -⟩ := hlegible.freeMap_yields d₀ hd₀ rfl
    obtain ⟨d₂, hentry, -⟩ := hentry d₀ hd₀ rfl
    obtain ⟨x, d₃, hremove, hdevice⟩ := (releaseTree_exact hd₀ u.volume _ "/a" e).2.2 false d₁ d₂
      hmap hentry fun t _ _ _ hfit => by
        have hmarked := hfit.2 _ (Node.sector_mem_sectors t)
        rw [hmarks] at hmarked
        cases hmarked
    exact ⟨d₀, d₁, d₂, d₃, _, x, hd₀, hmap, hentry, ⟨_, (hlegible.found hfind₀).1.carries.bears⟩,
      hremove, hdevice⟩

end Volume

end SectorChain
