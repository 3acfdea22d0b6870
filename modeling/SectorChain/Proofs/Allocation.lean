import SectorChain.Proofs.Content
import SectorChain.Proofs.FreeSectors

/-!
# Headers and the space of files

A header lies in a sector (`Disk.HasHeader`) when the bytes of the sector start with it. A new file
takes the first free sectors of a map in their order; they are chained as they are claimed, each
block written as the last one first and written again with its link when the next is claimed.

Results:
* `grow_eq_growFirst`: sectors are claimed as if each were searched from the first one on.
* `fetch_yields`, `store_yields`: a header is read as it was written.
* `allocate_zeros`, `allocate_yields`: a new file is a chain of zeros in the first free sectors, and
  no other sector is written.
* `allocate_full`: without room nothing is claimed or written.
* `release_yields`: the sectors of a chain are free again.
-/

namespace SectorChain

/-! ## Claiming from the first sector on -/

namespace Header

/-- The loop of `allocate`, with each sector claimed by `find_and_set`: by a search that begins at
the first sector of the map. `grow` begins behind the last block. -/
def growFirst (data : Nat) : (count : Nat) → (prev : Option Block) → FreeMap →
    DriveM (FreeMap × Except VolumeError Unit)
  | 0, _, m => return (m, .ok ())
  | count + 1, prev, m =>
    match m.claim? with
    | none => return (m, .error (.corrupt .noneToClaim))
    | some (sector, m) => do
      let block : Block := { sector, next := none, data := Bytes.zeros data }
      let written ← Drive.attempt do
        if let some prev := prev then ({ prev with next := some sector } : Block).store
        block.store
      match written with
      | .ok () => growFirst data count (some block) m
      | .error e => return (m, .error e)

/-- No sector is free up to the last block, so both searches find the same one. -/
theorem grow_eq_growFirst_behind {data : Nat} {prev : Option Block} {m : FreeMap} (count : Nat)
    (hprev : ∀ p, prev = some p → p.data = Bytes.zeros data ∧ ∀ s ∈ m.free, p.sector < s) :
    grow data count prev m = growFirst data count prev m := by
  induction count generalizing prev m with
  | zero => rfl
  | succ count ih =>
    have hfind : m.freeFrom? (prev.elim 0 (·.sector + 1)) = m.free.head? := by
      refine FreeMap.freeFrom?_eq fun s hs => ?_
      cases prev with
      | none => exact Nat.zero_le s
      | some p => exact (hprev p rfl).2 s hs
    unfold grow growFirst
    rw [hfind, FreeMap.claim?_eq]
    cases hfree : m.free with
    | nil => rfl
    | cons s rest =>
      dsimp only [List.head?_cons, Option.map_some]
      have hlast : ∀ p, some (⟨s, none, Bytes.zeros data⟩ : Block) = some p →
          p.data = Bytes.zeros data ∧ ∀ t ∈ (m.mark s).free, p.sector < t := by
        rintro p ⟨⟩
        rw [FreeMap.free_mark_head hfree]
        exact ⟨rfl, (FreeMap.lt_of_free_cons hfree).2⟩
      have hnext := ih hlast
      cases prev with
      | none => exact hnext ▸ rfl
      | some p =>
        obtain ⟨sector, next, bytes⟩ := p
        obtain rfl : bytes = Bytes.zeros data := (hprev _ rfl).1
        exact hnext ▸ rfl

/-- **A new file takes the sectors that `find_and_set` gives**, one after the other. -/
theorem grow_eq_growFirst (data count : Nat) (m : FreeMap) :
    grow data count none m = growFirst data count none m :=
  grow_eq_growFirst_behind count fun _ hp => nomatch hp

end Header

namespace Disk

variable {k k' : Disk}

/-! ## Stored headers -/

/-- The sector holds this header. -/
def HasHeader (k : Disk) (s : Nat) (h : Header) : Prop :=
  s < k.sectors ∧ ∃ rest, k.bytes s = h.encode ++ rest

theorem HasHeader.keeps {p : Nat → Prop} {s : Nat} {h : Header} (hs : k.HasHeader s h)
    (hk : Keeps k k' p) (hp : p s) : k'.HasHeader s h := by
  obtain ⟨hlt, rest, hbytes⟩ := hs
  exact ⟨hk.sectors ▸ hlt, rest, by rw [hk.bytes s hp, hbytes]⟩

theorem decode_header (h : Header) (rest : Bytes) :
    Header.decode (h.encode ++ rest) =
      .ok (UInt32.ofNat h.length, UInt32.ofNat h.blocks, h.first) := by
  unfold Header.decode Header.encode
  simp only [List.append_assoc, Record.takeWord_ofWord, Link.take_encode, bind, Except.bind, pure,
    Except.pure]

theorem HasHeader.fetch_yields {s : Nat} {h : Header} (hs : k.HasHeader s h) :
    Yields (Header.fetch s) k (.ok h) k := by
  obtain ⟨hlt, rest, hbytes⟩ := hs
  refine (Drive.readSector_yields hlt).bind ?_
  rw [hbytes, decode_header]
  refine (Yields.decoded _ k).bind ?_
  dsimp only
  rw [Header.ofWords?_words]
  exact Yields.pure _ k

/-- A disk with a header on it has room for data in a block. -/
theorem HasHeader.dataSize_pos {s : Nat} {h : Header} (hs : k.HasHeader s h) : 0 < k.dataSize := by
  obtain ⟨-, rest, hbytes⟩ := hs
  have hlen := congrArg List.length hbytes
  rw [k.length_bytes, List.length_append] at hlen
  refine Disk.dataSize_pos (hlen ▸ ?_)
  exact Nat.le_add_right h.encode.length _

/-- The header is read off the sector. -/
theorem HasHeader.unique {s : Nat} {h h' : Header} (hs : k.HasHeader s h) (hs' : k.HasHeader s h') :
    h = h' := by
  obtain ⟨-, rest, hbytes⟩ := hs
  obtain ⟨-, rest', hbytes'⟩ := hs'
  have hdecode := decode_header h rest
  rw [← hbytes, hbytes', decode_header, Except.ok.injEq, Prod.mk.injEq, Prod.mk.injEq] at hdecode
  obtain ⟨hlength, hblocks, hfirst⟩ := hdecode
  have hwords := Header.ofWords?_words h
  rw [← hlength, ← hblocks, ← hfirst, Header.ofWords?_words] at hwords
  exact (Option.some.inj hwords).symm

/-- A file is opened with its own header. -/
theorem HasHeader.open_yields {s : Nat} {h : Header} (hs : k.HasHeader s h) :
    Yields (Handle.fetch s) k (.ok ⟨h, s, 0⟩) k := hs.fetch_yields.bind (Yields.pure _ k)

/-- The disk with a header written to a sector. -/
def putHeader (k : Disk) (s : Nat) (h : Header) : Disk := k.put s (Bytes.fit k.sectorSize h.encode)

theorem storeHeader_yields {s : Nat} (hs : s < k.sectors) (h : Header) :
    Yields (h.store s) k (.ok ()) (k.putHeader s h) :=
  (Yields.sectorSize k).bind (Drive.writeSector_yields hs (Bytes.length_fit _ _))

theorem hasHeader_putHeader {s : Nat} (hsize : Layout.headerSize ≤ k.sectorSize)
    (hs : s < k.sectors) (h : Header) : (k.putHeader s h).HasHeader s h := by
  have hlen : h.encode.length = Layout.headerSize := rfl
  refine ⟨hs, Bytes.zeros (k.sectorSize - h.encode.length), ?_⟩
  rw [putHeader, bytes_put_self (Bytes.length_fit _ _), Bytes.fit,
    List.take_of_length_le (by rwa [hlen]), Bytes.pad]
  split
  · rfl
  · rw [show k.sectorSize - h.encode.length = 0 by omega]
    exact (List.append_nil _).symm

theorem keeps_putHeader (k : Disk) (s : Nat) (h : Header) : Keeps k (k.putHeader s h) (· ≠ s) :=
  keeps_put k s _

/-! ## Growing a chain -/

/-- The disk with a block of zeros chained behind another. -/
def putNext (k : Disk) (p s : Nat) : Disk :=
  (k.putBlock ⟨p, some s, Bytes.zeros k.dataSize⟩).putBlock ⟨s, none, Bytes.zeros k.dataSize⟩

theorem keeps_putNext (k : Disk) (p s : Nat) : Keeps k (k.putNext p s) fun t => t ≠ p ∧ t ≠ s :=
  ((keeps_putBlock k ⟨p, some s, _⟩).mono fun _ ht => ht.1).trans
    ((keeps_putBlock _ ⟨s, none, _⟩).mono fun _ ht => ht.2)

/-- Both blocks are there, with zeros, as far as links lead to them. -/
theorem hasBlock_putNext (hk : 0 < k.dataSize) {p s : Nat} (hp : p < k.sectors) (hs : s < k.sectors)
    (hne : p ≠ s) :
    (p < Link.limit → (k.putNext p s).HasBlock p (Link.ofSector s).target) ∧
      (s < Link.limit → (k.putNext p s).HasBlock s none) ∧
      (k.putNext p s).dataAt p = Bytes.zeros k.dataSize ∧
      (k.putNext p s).dataAt s = Bytes.zeros k.dataSize := by
  have hlen : (Bytes.zeros k.dataSize).length = k.dataSize := Bytes.length_zeros _
  let linked : Block := ⟨p, some s, Bytes.zeros k.dataSize⟩
  let last : Block := ⟨s, none, Bytes.zeros k.dataSize⟩
  have hkeep := keeps_putBlock (k.putBlock linked) last
  refine ⟨fun hlt => HasBlock.keeps ?_ hkeep hne, fun hlt => ?_, ?_, ?_⟩
  · exact hasBlock_putBlock_target (b := linked) hk hp hlt hlen
  · exact hasBlock_putBlock_target (b := last) hk hs hlt hlen
  · exact (hkeep.dataAt hne).trans (dataAt_putBlock (b := linked) hk hlen)
  · exact dataAt_putBlock (b := last) hk hlen

theorem putNext_yields (hk : 0 < k.dataSize) {p s : Nat} (hp : p < k.sectors)
    (hs : s < k.sectors) :
    Yields (do
      ({ sector := p, next := some s, data := Bytes.zeros k.dataSize } : Block).store
      ({ sector := s, next := none, data := Bytes.zeros k.dataSize } : Block).store) k (.ok ())
      (k.putNext p s) :=
  have hlen : (Bytes.zeros k.dataSize).length = k.dataSize := Bytes.length_zeros _
  (store_yields (b := ⟨p, some s, Bytes.zeros k.dataSize⟩) hk hp hlen).bind
    (store_yields (b := ⟨s, none, Bytes.zeros k.dataSize⟩) hk hs hlen)

/-- The sectors of a chain that links lead to: those before the first one that has no link. -/
def named (l : List Nat) : List Nat := l.takeWhile (· < Link.limit)

theorem named_subset (l : List Nat) : named l ⊆ l := (List.takeWhile_prefix _).subset

theorem lt_of_mem_named {l : List Nat} {s : Nat} (hs : s ∈ named l) : s < Link.limit :=
  of_decide_eq_true (List.all_eq_true.mp List.all_takeWhile s hs)

theorem named_of_lt {l : List Nat} (h : ∀ s ∈ l, s < Link.limit) : named l = l := by
  unfold named
  rw [← List.append_nil l, List.takeWhile_append_of_pos fun s hs => decide_eq_true (h s hs)]
  rfl

/-- A link leads to the first sector of a chain just if this is named. -/
theorem target_ofSector_named {s : Nat} (hs : s < 0x100000000) (rest : List Nat) :
    (Link.ofSector s).target = (named (s :: rest)).head? := by
  rw [Link.target_ofSector_eq hs, named, List.takeWhile_cons]
  by_cases hlt : s < Link.limit <;> simp [hlt]

/-- A block in front of a chain that is linked as far as it is named. -/
theorem linked_named_cons {p : Nat} {rest : List Nat}
    (hp : p < Link.limit → k.HasBlock p (named rest).head?) (hrest : k.Linked (named rest)) :
    k.Linked (named (p :: rest)) := by
  unfold named at *
  rw [List.takeWhile_cons]
  split
  · rename_i hlt
    exact ⟨hp (of_decide_eq_true hlt), hrest⟩
  · trivial

/-- **Growing behind a block** chains the next free sectors to it, all zeros like the block, as far
as they are named. -/
theorem grow_yields {m : FreeMap} (hk : 0 < k.dataSize) (hsectors : m.size = k.sectors) {p : Nat}
    (hp : p < k.sectors) (hbehind : ∀ s ∈ m.free, p < s)
    (hblock : p < Link.limit → k.HasBlock p none)
    (hzeros : k.dataAt p = Bytes.zeros k.dataSize) {count : Nat} (hcount : count ≤ m.free.length)
    (hword : ∀ s ∈ m.free.take count, s < 0x100000000) :
    ∃ k', Yields (Header.grow k.dataSize count (some ⟨p, none, Bytes.zeros k.dataSize⟩) m) k
        (.ok ((m.free.take count).foldl FreeMap.mark m, .ok ())) k' ∧
      k.Keeps k' (· ∉ p :: m.free.take count) ∧ k'.Linked (named (p :: m.free.take count)) ∧
      ∀ s ∈ p :: m.free.take count, k'.dataAt s = Bytes.zeros k'.dataSize := by
  induction count generalizing k m p with
  | zero =>
    refine ⟨k, Yields.pure _ k, Keeps.refl k _, linked_named_cons hblock trivial, fun s hs => ?_⟩
    rw [List.mem_singleton.mp hs, hzeros]
  | succ count ih =>
    cases hfree : m.free with
    | nil =>
      rw [hfree] at hcount
      exact absurd hcount (Nat.not_succ_le_zero count)
    | cons s rest =>
      have hps : p < s := hbehind s (hfree ▸ List.mem_cons_self)
      obtain ⟨hs, hrest⟩ := FreeMap.lt_of_free_cons hfree
      rw [hsectors] at hs
      rw [hfree, List.take_succ_cons] at hword
      have hmark : (m.mark s).free = rest := FreeMap.free_mark_head hfree
      have hne : p ≠ s := by omega
      obtain ⟨hprev, hlast, hprevData, hlastData⟩ := hasBlock_putNext hk hp hs hne
      obtain ⟨k', hy, hkeep, hlinked, hdata⟩ := ih (k := k.putNext p s) (m := m.mark s) (p := s) hk
        (by rw [FreeMap.size_mark]; exact hsectors) hs (by rw [hmark]; exact hrest) hlast
        hlastData (by rw [hmark]; rw [hfree] at hcount; exact Nat.le_of_succ_le_succ hcount)
        (by rw [hmark]; exact fun t ht => hword t (List.mem_cons_of_mem _ ht))
      rw [hmark] at hy hkeep hlinked hdata
      rw [List.take_succ_cons]
      have hpout : p ∉ s :: rest.take count := by
        rintro hmem
        rcases List.mem_cons.mp hmem with rfl | hmem
        · exact hne rfl
        · have := hrest p (List.mem_of_mem_take hmem)
          omega
      have hlink := target_ofSector_named (hword s List.mem_cons_self) (rest.take count)
      refine ⟨k', ?_, ?_, linked_named_cons (fun hlt => ?_) hlinked, fun t ht => ?_⟩
      · have hnext : m.freeFrom? (p + 1) = some s := by
          rw [FreeMap.freeFrom?_eq hbehind, hfree]
          rfl
        unfold Header.grow
        simp only [Option.elim_some, hnext]
        exact (putNext_yields hk hp hs).attempt.bind hy
      · refine ((keeps_putNext k p s).mono fun t ht => ?_).trans
          (hkeep.mono fun t ht hmem => ht (List.mem_cons_of_mem _ hmem))
        exact ⟨fun heq => ht (heq ▸ List.mem_cons_self),
          fun heq => ht (heq ▸ List.mem_cons_of_mem _ List.mem_cons_self)⟩
      · exact hlink ▸ (hprev hlt).keeps hkeep hpout
      · rcases List.mem_cons.mp ht with rfl | ht
        · rw [hkeep.dataAt hpout, hprevData, hkeep.dataSize]
          rfl
        · exact hdata t ht

/-- A chain from nothing: the first free sectors, all zeros. -/
theorem growNew_yields {m : FreeMap} (hk : 0 < k.dataSize) (hsectors : m.size = k.sectors)
    {count : Nat} (hcount : count ≤ m.free.length)
    (hword : ∀ s ∈ m.free.take count, s < 0x100000000) :
    ∃ k', Yields (Header.grow k.dataSize count none m) k
        (.ok ((m.free.take count).foldl FreeMap.mark m, .ok ())) k' ∧
      k.Keeps k' (· ∉ m.free.take count) ∧ k'.Linked (named (m.free.take count)) ∧
      ∀ s ∈ m.free.take count, k'.dataAt s = Bytes.zeros k'.dataSize := by
  cases count with
  | zero => exact ⟨k, Yields.pure _ k, Keeps.refl k _, trivial, by rintro s ⟨⟩⟩
  | succ count =>
    cases hfree : m.free with
    | nil =>
      rw [hfree] at hcount
      exact absurd hcount (Nat.not_succ_le_zero count)
    | cons s rest =>
      obtain ⟨hs, hrest⟩ := FreeMap.lt_of_free_cons hfree
      rw [hsectors] at hs
      rw [hfree, List.take_succ_cons] at hword
      have hmark : (m.mark s).free = rest := FreeMap.free_mark_head hfree
      have hlen : (Bytes.zeros k.dataSize).length = k.dataSize := Bytes.length_zeros _
      let first : Block := ⟨s, none, Bytes.zeros k.dataSize⟩
      have hblock : s < Link.limit → (k.putBlock first).HasBlock s none := fun hlt =>
        hasBlock_putBlock_target (b := first) hk hs hlt hlen
      have hdata : (k.putBlock first).dataAt s = Bytes.zeros k.dataSize :=
        dataAt_putBlock (b := first) hk hlen
      have hcount' : count ≤ (m.mark s).free.length := by
        rw [hfree] at hcount
        rw [hmark]
        exact Nat.le_of_succ_le_succ hcount
      obtain ⟨k', hy, hkeep, hlinked, hzeros⟩ := grow_yields (k := k.putBlock first)
        (m := m.mark s) hk (by rw [FreeMap.size_mark]; exact hsectors) hs
        (by rw [hmark]; exact hrest) hblock hdata hcount'
        (by rw [hmark]; exact fun t ht => hword t (List.mem_cons_of_mem _ ht))
      rw [hmark] at hy hkeep hlinked hzeros
      rw [List.take_succ_cons]
      refine ⟨k', ?_, ?_, hlinked, hzeros⟩
      · have hnext : m.freeFrom? 0 = some s := by
          rw [FreeMap.freeFrom?_eq fun _ _ => Nat.zero_le _, hfree]
          rfl
        unfold Header.grow
        simp only [Option.elim_none, hnext]
        exact (store_yields (b := first) hk hs hlen).attempt.bind hy
      · have hput : k.Keeps (k.putBlock first) (· ∉ s :: rest.take count) :=
          (keeps_putBlock k first).mono fun t ht heq => ht (heq ▸ List.mem_cons_self)
        exact hput.trans hkeep

/-! ## New files -/

theorem le_blocksFor_mul (size : Nat) {data : Nat} (hdata : 0 < data) :
    size ≤ Layout.blocksFor size data * data := by
  have hdiv := Nat.div_add_mod' (size + data - 1) data
  have hmod := Nat.mod_lt (size + data - 1) hdata
  show size ≤ (size + data - 1) / data * data
  omega

theorem chainData_zeros {c : List Nat} (h : ∀ s ∈ c, k.dataAt s = Bytes.zeros k.dataSize) :
    k.chainData c = Bytes.zeros (c.length * k.dataSize) := by
  induction c with
  | nil => rw [List.length_nil, Nat.zero_mul]; rfl
  | cons s rest ih =>
    rw [chainData, List.flatMap_cons, ← chainData, h s List.mem_cons_self,
      ih fun t ht => h t (List.mem_cons_of_mem _ ht), List.length_cons, Nat.succ_mul, Nat.add_comm]
    exact List.replicate_append_replicate

/-- There is room for a new file of `size` bytes. -/
structure Fits (k : Disk) (m : FreeMap) (size : Nat) : Prop where
  size_lt : size < 0x80000000
  blocks_lt : Layout.blocksFor size k.dataSize < 0x80000000
  free : Layout.blocksFor size k.dataSize ≤ m.free.length

/-- The first link of a new file leads to its first sector, if this is named. -/
theorem firstFree_target (m : FreeMap) {blocks : Nat}
    (hword : ∀ s ∈ m.free.take blocks, s < 0x100000000) :
    (Link.ofOption (if blocks = 0 then none else m.leastFree?)).target =
      (named (m.free.take blocks)).head? := by
  have hfirst : (if blocks = 0 then none else m.leastFree?) = (m.free.take blocks).head? := by
    rw [FreeMap.leastFree?_eq, List.head?_take]
  rw [hfirst]
  cases hc : m.free.take blocks with
  | nil => rfl
  | cons s rest => exact target_ofSector_named (hword s (hc ▸ List.mem_cons_self)) rest

/-- **A new file** is a chain of zeros in the first free sectors of the map, in their order, linked
as far as they are named. No other sector is written. -/
theorem allocate_named {m : FreeMap} (hk : 0 < k.dataSize) (hsectors : m.size = k.sectors)
    {size : Nat} (hfits : Fits k m size)
    (hword : ∀ s ∈ m.free.take (Layout.blocksFor size k.dataSize), s < 0x100000000) :
    let c := m.free.take (Layout.blocksFor size k.dataSize)
    ∃ k' h, Yields (Header.allocate m size) k (.ok (c.foldl FreeMap.mark m, .ok h)) k' ∧
      h.length = size ∧ h.blocks = c.length ∧ c.length = Layout.blocksFor size k.dataSize ∧
      k.Keeps k' (· ∉ c) ∧ k'.Linked (named c) ∧ h.first.target = (named c).head? ∧
      ∀ s ∈ c, k'.dataAt s = Bytes.zeros k'.dataSize := by
  intro c
  have hlen : c.length = Layout.blocksFor size k.dataSize := List.length_take_of_le hfits.free
  obtain ⟨k', hy, hkeep, hlinked, hzeros⟩ := growNew_yields hk hsectors hfits.free hword
  refine ⟨k', ⟨size, _, .ofOption _, hfits.size_lt, hfits.blocks_lt⟩, ?_, rfl, hlen.symm, hlen,
    hkeep, hlinked, firstFree_target m hword, hzeros⟩
  have hroom : ¬m.numFree < Layout.blocksFor size k.dataSize := by
    rw [FreeMap.numFree_eq]
    exact Nat.not_lt.mpr hfits.free
  refine (Yields.dataSize k).bind ?_
  dsimp only
  rw [dif_pos ⟨hfits.size_lt, hfits.blocks_lt⟩, if_neg hroom]
  exact hy.bind ((Yields.note _ k').bind (Yields.pure _ k'))

/-- When all sectors have links, the new file has its whole chain. -/
theorem allocate_zeros {m : FreeMap} (hk : 0 < k.dataSize) (hsectors : m.size = k.sectors)
    {size : Nat} (hfits : Fits k m size)
    (hlinks : ∀ s ∈ m.free.take (Layout.blocksFor size k.dataSize), s < Link.limit) :
    let c := m.free.take (Layout.blocksFor size k.dataSize)
    ∃ k' h, Yields (Header.allocate m size) k (.ok (c.foldl FreeMap.mark m, .ok h)) k' ∧
      h.length = size ∧ c.length = Layout.blocksFor size k.dataSize ∧ k.Keeps k' (· ∉ c) ∧
      k'.Chained h c ∧ ∀ s ∈ c, k'.dataAt s = Bytes.zeros k'.dataSize := by
  intro c
  obtain ⟨k', h, hy, hlength, hblocks, hlen, hkeep, hlinked, hfirst, hzeros⟩ :=
    allocate_named hk hsectors hfits fun s hs => Nat.lt_trans (hlinks s hs) (by decide)
  rw [named_of_lt hlinks] at hlinked hfirst
  exact ⟨k', h, hy, hlength, hlen, hkeep, ⟨hlinked, hfirst, hblocks⟩, hzeros⟩

/-- The content of a new file is zeros. -/
theorem allocate_yields {m : FreeMap} (hk : 0 < k.dataSize) (hsectors : m.size = k.sectors)
    {size : Nat} (hfits : Fits k m size)
    (hlinks : ∀ s ∈ m.free.take (Layout.blocksFor size k.dataSize), s < Link.limit) :
    let c := m.free.take (Layout.blocksFor size k.dataSize)
    ∃ k' h, Yields (Header.allocate m size) k (.ok (c.foldl FreeMap.mark m, .ok h)) k' ∧
      h.length = size ∧ c.length = Layout.blocksFor size k.dataSize ∧ k.Keeps k' (· ∉ c) ∧
      k'.Chained h c ∧ k'.content h c = Bytes.zeros size := by
  intro c
  obtain ⟨k', h, hy, hlength, hlen, hkeep, hchain, hzeros⟩ :=
    allocate_zeros hk hsectors hfits hlinks
  refine ⟨k', h, hy, hlength, hlen, hkeep, hchain, ?_⟩
  have hle := le_blocksFor_mul size hk
  rw [content, chainData_zeros hzeros, hlen, hkeep.dataSize, hlength]
  unfold Bytes.zeros
  rw [List.take_replicate, Nat.min_eq_left hle]

/-- **Without room** nothing is claimed or written. -/
theorem allocate_full {m : FreeMap} {size : Nat} (h : ¬Fits k m size) :
    Yields (Header.allocate m size) k (.ok (m, .error .outOfSpace)) k := by
  refine (Yields.dataSize k).bind ?_
  dsimp only
  split
  · rename_i hlt
    rw [if_pos]
    · exact Yields.pure _ k
    · rw [FreeMap.numFree_eq]
      exact Nat.not_le.mp fun hle => h ⟨hlt.1, hlt.2, hle⟩
  · exact Yields.pure _ k

/-! ## Giving space back -/

/-- The sectors of a chain in use are free again. -/
theorem Chained.release_yields {h : Header} {c : List Nat} (hc : k.Chained h c) {m : FreeMap}
    (hm : ∀ s ∈ c, m.isUsed s = true) :
    Yields (h.release m) k (.ok (c.foldl FreeMap.clear m)) k := by
  rw [Header.release_eq]
  refine hc.chain_yields.bind ?_
  have hnone : c.find? (!m.isUsed ·) = none := by
    rw [List.find?_eq_none]
    intro s hs
    simp [hm s hs]
  rw [hnone]
  exact (Yields.note _ k).bind (Yields.pure _ k)

end Disk

end SectorChain
