import SectorChain.Header
import SectorChain.Proofs.Disk

/-!
# Chains on a disk

A sector has a block (`Disk.HasBlock`) when its bytes start with a link to itself; the second link
gives the next block and the rest is data. Sectors are linked (`Disk.Linked`) when each has a
block that leads to the next of them, and the last to none. `Disk.Chained k h l` says that the
header `h` leads to the chain `l` and counts its blocks.

Results:
* `Linked.nodup`: a chain that ends visits no sector twice.
* `walk_yields`, `chain_yields`: walking a chain finds its sectors.
* `blockAt_yields`: looking up an offset finds the block that the full walk has there.
* `Linked.putBlock`: new data in a block leaves every chain linked.
-/

namespace SectorChain

namespace Block

theorem decode_append (own next : Link) (data : Bytes) :
    decode (own.encode ++ next.encode ++ data) = .ok (own, next, data) := by
  rw [List.append_assoc]
  simp only [decode, bind, Except.bind, Link.take_encode]
  rfl

@[simp] theorem length_encode (b : Block) : b.encode.length = Layout.linkSize + b.data.length := by
  simp only [encode, List.length_append, Link.length_encode]
  rfl

end Block

namespace Disk

/-! ## Blocks -/

/-- The bytes of a sector behind the links. -/
def dataAt (k : Disk) (s : Nat) : Bytes := (k.bytes s).drop Layout.linkSize

/-- The sector holds a block of its own that leads to `next`. -/
def HasBlock (k : Disk) (s : Nat) (next : Option Nat) : Prop :=
  s < k.sectors ∧ ∃ own link : Link, k.bytes s = own.encode ++ link.encode ++ k.dataAt s ∧
    own.target = some s ∧ link.target = next

/-- The disk with a block written to its sector. -/
def putBlock (k : Disk) (b : Block) : Disk := k.put b.sector b.encode

/-- `k'` has the geometry of `k`, and its bytes in the sectors that satisfy `p`. -/
structure Keeps (k k' : Disk) (p : Nat → Prop) : Prop where
  sectors : k'.sectors = k.sectors
  sectorSize : k'.sectorSize = k.sectorSize
  bytes : ∀ s, p s → k'.bytes s = k.bytes s

/-- `k'` has the geometry of `k`. -/
abbrev SameSize (k k' : Disk) : Prop := Keeps k k' fun _ => False

variable {k k' k'' : Disk} {p q : Nat → Prop}

namespace Keeps

theorem refl (k : Disk) (p : Nat → Prop) : Keeps k k p := ⟨rfl, rfl, fun _ _ => rfl⟩

theorem trans (h : Keeps k k' p) (h' : Keeps k' k'' p) : Keeps k k'' p :=
  ⟨h'.sectors.trans h.sectors, h'.sectorSize.trans h.sectorSize,
    fun s hs => (h'.bytes s hs).trans (h.bytes s hs)⟩

theorem mono (h : Keeps k k' p) (hq : ∀ s, q s → p s) : Keeps k k' q :=
  ⟨h.sectors, h.sectorSize, fun s hs => h.bytes s (hq s hs)⟩

theorem sameSize (h : Keeps k k' p) : SameSize k k' := h.mono fun _ => False.elim

theorem dataSize (h : Keeps k k' p) : k'.dataSize = k.dataSize := by
  unfold Disk.dataSize
  rw [h.sectorSize]

theorem dataAt (h : Keeps k k' p) {s : Nat} (hs : p s) : k'.dataAt s = k.dataAt s := by
  unfold Disk.dataAt
  rw [h.bytes s hs]

end Keeps

theorem keeps_put (k : Disk) (i : Nat) (new : Bytes) : Keeps k (k.put i new) (· ≠ i) :=
  ⟨rfl, rfl, fun _ hs => bytes_put_of_ne hs⟩

theorem keeps_putBlock (k : Disk) (b : Block) : Keeps k (k.putBlock b) (· ≠ b.sector) :=
  keeps_put k b.sector b.encode

@[simp] theorem length_dataAt (k : Disk) (s : Nat) : (k.dataAt s).length = k.dataSize := by
  unfold dataAt
  rw [List.length_drop, k.length_bytes]
  rfl

theorem length_encode_block {b : Block} (hk : 0 < k.dataSize) (hb : b.data.length = k.dataSize) :
    b.encode.length = k.sectorSize := by
  rw [Block.length_encode, hb]
  unfold dataSize Layout.dataSize at *
  omega

theorem HasBlock.keeps {s : Nat} {next : Option Nat} (h : k.HasBlock s next)
    (hk : Keeps k k' p) (hs : p s) : k'.HasBlock s next := by
  obtain ⟨hlt, own, link, hbytes, hown, hnext⟩ := h
  refine ⟨hk.sectors ▸ hlt, own, link, ?_, hown, hnext⟩
  rw [hk.bytes s hs, hk.dataAt hs]
  exact hbytes

/-- The next block of a sector is a function of its bytes. -/
theorem HasBlock.unique {s : Nat} {next next' : Option Nat} (h : k.HasBlock s next)
    (h' : k.HasBlock s next') : next = next' := by
  obtain ⟨-, own, link, hbytes, -, rfl⟩ := h
  obtain ⟨-, own', link', hbytes', -, rfl⟩ := h'
  have h2 := Block.decode_append own link (k.dataAt s)
  rw [← hbytes, hbytes', Block.decode_append] at h2
  obtain ⟨-, rfl, -⟩ := Prod.mk.injEq .. ▸ Except.ok.inj h2
  rfl

theorem target_lt {l : Link} {s : Nat} (h : l.target = some s) : s < Link.limit := by
  unfold Link.target at h
  split at h
  · rename_i hlt
    cases h
    exact hlt
  · cases h

theorem HasBlock.lt_limit {s : Nat} {next : Option Nat} (h : k.HasBlock s next) :
    s < Link.limit ∧ ∀ t ∈ next, t < Link.limit := by
  obtain ⟨-, own, link, -, hown, hnext⟩ := h
  refine ⟨target_lt hown, fun t ht => target_lt (l := link) ?_⟩
  rw [hnext]
  exact ht

/-- A block is read as it lies on the disk. -/
theorem HasBlock.fetch_yields {s : Nat} {next : Option Nat} (h : k.HasBlock s next) :
    Yields (Block.fetch s) k (.ok ⟨s, next, k.dataAt s⟩) k := by
  obtain ⟨hlt, own, link, hbytes, hown, rfl⟩ := h
  refine (Drive.readSector_yields hlt).bind ?_
  rw [hbytes, Block.decode_append]
  refine (Yields.decoded _ k).bind ?_
  dsimp only
  rw [if_pos hown]
  exact Yields.pure _ k

theorem store_yields {b : Block} (hk : 0 < k.dataSize) (hs : b.sector < k.sectors)
    (hb : b.data.length = k.dataSize) : Yields b.store k (.ok ()) (k.putBlock b) :=
  (Yields.note _ k).bind (Drive.writeSector_yields hs (length_encode_block hk hb))

theorem target_ofOption {next : Option Nat} (h : ∀ t ∈ next, t < Link.limit) :
    (Link.ofOption next).target = next := by
  cases next with
  | none => rfl
  | some t => exact Link.target_ofSector (h t rfl)

theorem dataAt_putBlock {b : Block} (hk : 0 < k.dataSize) (hb : b.data.length = k.dataSize) :
    (k.putBlock b).dataAt b.sector = b.data := by
  have hlen := length_encode_block hk hb
  unfold dataAt putBlock
  rw [bytes_put_self hlen]
  rfl

/-- A written block is there, and leads where the link does that is written for its next sector. -/
theorem hasBlock_putBlock_target {b : Block} (hk : 0 < k.dataSize) (hs : b.sector < k.sectors)
    (hlimit : b.sector < Link.limit) (hb : b.data.length = k.dataSize) :
    (k.putBlock b).HasBlock b.sector (Link.ofOption b.next).target := by
  refine ⟨hs, .ofSector b.sector, .ofOption b.next, ?_, Link.target_ofSector hlimit, rfl⟩
  rw [dataAt_putBlock hk hb, putBlock, bytes_put_self (length_encode_block hk hb)]
  rfl

theorem hasBlock_putBlock {b : Block} (hk : 0 < k.dataSize) (hs : b.sector < k.sectors)
    (hlimit : b.sector < Link.limit) (hnext : ∀ t ∈ b.next, t < Link.limit)
    (hb : b.data.length = k.dataSize) : (k.putBlock b).HasBlock b.sector b.next := by
  have hblock := hasBlock_putBlock_target hk hs hlimit hb
  rwa [target_ofOption hnext] at hblock

/-! ## Linked sectors -/

/-- Each of the sectors has a block that leads to the next one, the last to none. -/
def Linked (k : Disk) : List Nat → Prop
  | [] => True
  | s :: rest => k.HasBlock s rest.head? ∧ k.Linked rest

/-- The data of the sectors, one behind the other. -/
def chainData (k : Disk) (l : List Nat) : Bytes := l.flatMap k.dataAt

namespace Linked

theorem lt_sectors {l : List Nat} (h : k.Linked l) {s : Nat} (hs : s ∈ l) : s < k.sectors := by
  induction l with
  | nil => cases hs
  | cons t rest ih =>
    rcases List.mem_cons.mp hs with rfl | hs
    · exact h.1.1
    · exact ih h.2 hs

theorem keeps {l : List Nat} (h : k.Linked l) (hk : Keeps k k' p) (hc : ∀ s ∈ l, p s) :
    k'.Linked l := by
  induction l with
  | nil => trivial
  | cons t rest ih =>
    exact ⟨h.1.keeps hk (hc t List.mem_cons_self),
      ih h.2 fun s hs => hc s (List.mem_cons_of_mem _ hs)⟩

/-- The links of a sector determine everything that follows it. -/
theorem eq_of_head? {l l' : List Nat} (h : k.Linked l) (h' : k.Linked l')
    (hhead : l.head? = l'.head?) : l = l' := by
  induction l generalizing l' with
  | nil =>
    cases l' with
    | nil => rfl
    | cons _ _ => cases hhead
  | cons s rest ih =>
    cases l' with
    | nil => cases hhead
    | cons s' rest' =>
      obtain rfl : s = s' := Option.some.inj hhead
      rw [ih h.2 h'.2 (h.1.unique h'.1)]

theorem suffix {l l' : List Nat} (h : k.Linked l) (hc : l' <:+ l) : k.Linked l' := by
  obtain ⟨pre, rfl⟩ := hc
  induction pre with
  | nil => exact h
  | cons s pre ih => exact ih h.2

/-- **A chain that ends visits no sector twice**: from a repeated sector on, it would go on for
ever. -/
theorem nodup {l : List Nat} (h : k.Linked l) : l.Nodup := by
  induction l with
  | nil => exact List.nodup_nil
  | cons s rest ih =>
    refine List.nodup_cons.mpr ⟨fun hs => ?_, ih h.2⟩
    obtain ⟨pre, post, rfl⟩ := List.append_of_mem hs
    have hpost : k.Linked (s :: post) := h.2.suffix ⟨pre, rfl⟩
    have heq : s :: (pre ++ s :: post) = s :: post := h.eq_of_head? hpost rfl
    have := congrArg List.length heq
    simp only [List.length_cons, List.length_append] at this
    omega

theorem hasBlock {l : List Nat} (h : k.Linked l) {i : Nat} (hi : i < l.length) :
    k.HasBlock l[i] l[i + 1]? := by
  induction l generalizing i with
  | nil => exact absurd hi (Nat.not_lt_zero i)
  | cons s rest ih =>
    cases i with
    | zero =>
      have h1 := h.1
      rw [List.head?_eq_getElem?] at h1
      exact h1
    | succ i => exact ih h.2 (Nat.lt_of_succ_lt_succ hi)

/-- New data in one block leaves every chain linked. -/
theorem putBlock {b : Block} (hk : 0 < k.dataSize) (hb : b.data.length = k.dataSize)
    (hblock : k.HasBlock b.sector b.next) {l : List Nat} (h : k.Linked l) :
    (k.putBlock b).Linked l := by
  induction l with
  | nil => trivial
  | cons s rest ih =>
    refine ⟨?_, ih h.2⟩
    by_cases hs : s = b.sector
    · subst hs
      obtain ⟨hlimit, hnext⟩ := hblock.lt_limit
      rw [h.1.unique hblock]
      exact hasBlock_putBlock hk hblock.1 hlimit hnext hb
    · exact h.1.keeps (keeps_putBlock k b) hs

end Linked

theorem chainData_keeps {l : List Nat} (hk : Keeps k k' p) (hc : ∀ s ∈ l, p s) :
    k'.chainData l = k.chainData l := by
  unfold chainData
  rw [List.flatMap_def, List.flatMap_def, List.map_congr_left fun s hs => hk.dataAt (hc s hs)]

@[simp] theorem length_chainData (k : Disk) (l : List Nat) :
    (k.chainData l).length = l.length * k.dataSize := by
  induction l with
  | nil => simp [chainData]
  | cons s rest ih =>
    rw [chainData, List.flatMap_cons, List.length_append, length_dataAt, ← chainData, ih,
      List.length_cons, Nat.succ_mul]
    omega

/-! ## Chains of headers -/

/-- The header leads to these sectors, which are linked, and counts them. -/
structure Chained (k : Disk) (h : Header) (l : List Nat) : Prop where
  linked : k.Linked l
  first : h.first.target = l.head?
  blocks : h.blocks = l.length

theorem Chained.keeps {h : Header} {l : List Nat} (hc : k.Chained h l) (hk : Keeps k k' p)
    (hp : ∀ s ∈ l, p s) : k'.Chained h l := ⟨hc.linked.keeps hk hp, hc.first, hc.blocks⟩

/-- A header has one chain at most. -/
theorem Chained.unique {h : Header} {l l' : List Nat} (hl : k.Chained h l) (hl' : k.Chained h l') :
    l = l' := hl.linked.eq_of_head? hl'.linked (hl.first.symm.trans hl'.first)

theorem walk_yields {l : List Nat} (h : k.Linked l) (blocks : Nat) :
    Yields (Header.walk blocks l.length l.head?) k (.ok l) k := by
  induction l with
  | nil => exact Yields.pure _ k
  | cons s rest ih => exact h.1.fetch_yields.bind ((ih h.2).bind (Yields.pure _ k))

theorem Chained.chain_yields {h : Header} {l : List Nat} (hc : k.Chained h l) :
    Yields h.chain k (.ok l) k := by
  unfold Header.chain
  rw [hc.first, hc.blocks]
  exact walk_yields hc.linked l.length

theorem follow_yields {l : List Nat} (h : k.Linked l) (blocks hops : Nat) :
    ∀ {i : Nat} (hi : i + hops < l.length) (index : Nat),
      Yields (Header.follow blocks hops index ⟨l[i], l[i + 1]?, k.dataAt l[i]⟩) k
        (.ok ⟨l[i + hops], l[i + hops + 1]?, k.dataAt l[i + hops]⟩) k := by
  induction hops with
  | zero => exact fun _ _ => Yields.pure _ k
  | succ hops ih =>
    intro i hi index
    have hlt : i + 1 < l.length := by omega
    unfold Header.follow
    dsimp only
    rw [List.getElem?_eq_getElem hlt]
    refine (h.hasBlock hlt).fetch_yields.bind ?_
    have := ih (i := i + 1) (by omega) (index + 1)
    simp only [show i + 1 + hops = i + (hops + 1) by omega] at this
    exact this

/-- **Looking up an offset** finds the block at its place in the chain. -/
theorem Chained.blockAt_yields {h : Header} {l : List Nat} (hc : k.Chained h l) {offset i : Nat}
    (hoff : offset / k.dataSize = i) (hi : i < l.length) :
    Yields (h.blockAt offset) k (.ok ⟨l[i], l[i + 1]?, k.dataAt l[i]⟩) k := by
  refine (Yields.dataSize k).bind ?_
  have hle : ¬h.blocks ≤ i := by
    rw [hc.blocks]
    omega
  have hpos : 0 < l.length := by omega
  dsimp only
  rw [hoff, if_neg hle, hc.first, List.head?_eq_getElem?, List.getElem?_eq_getElem hpos]
  refine (hc.linked.hasBlock hpos).fetch_yields.bind ?_
  have := follow_yields hc.linked h.blocks i (i := 0) (by omega) 0
  simp only [Nat.zero_add] at this
  exact this

end Disk

end SectorChain
