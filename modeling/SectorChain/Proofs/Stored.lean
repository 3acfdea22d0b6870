import SectorChain.Directory
import SectorChain.Proofs.Allocation

/-!
# Files on a disk

`Disk.HasFile k p content` says that the file at the place `p` is on the disk: its header is in its
sector, its chain has just the blocks that the length needs, and its bytes are `content`. Directory
tables and the free map are such files.

Results:
* `Lies.unique`: there is one file with its header in a given sector.
* `HasFile.read_yields`, `HasFile.write_yields`: slices of the content are read and replaced.
* `decodeSlots_eq_ok_iff`: a table is read exactly from its own bytes.
* `HasTable.fetch_yields`, `HasTable.store_yields`: a table in a file is read and replaced.
* `fetchMap_yields`, `storeMap_yields`: so is the free map.
-/

namespace SectorChain

/-- Where a file lies: its header and the sector of the header, and the sectors of its chain. -/
structure Place where
  sector : Nat
  header : Header
  chain : List Nat
  deriving DecidableEq

namespace Place

/-- The sectors that belong to the file. -/
def sectors (p : Place) : List Nat := p.sector :: p.chain

/-- The file, open at its start. -/
def handle (p : Place) : Handle := { header := p.header, sector := p.sector }

/-- The place of the file with its header in `sector`, read from the disk. -/
def fetch (sector : Nat) : DriveM Place := do
  let header ← Header.fetch sector
  return { sector, header, chain := ← header.chain }

end Place

namespace Disk

variable {k k' : Disk} {p : Place} {content : Bytes}

/-- The file at the place is on the disk, whatever length its header gives. -/
structure Lies (k : Disk) (p : Place) : Prop where
  header : k.HasHeader p.sector p.header
  chained : k.Chained p.header p.chain

/-- There is only one file with its header in a sector. -/
theorem Lies.unique {p p' : Place} (h : k.Lies p) (h' : k.Lies p')
    (hsector : p.sector = p'.sector) : p = p' := by
  obtain ⟨s, header, chain⟩ := p
  obtain ⟨s', header', chain'⟩ := p'
  obtain rfl : s = s' := hsector
  obtain rfl : header = header' := h.header.unique h'.header
  obtain rfl : chain = chain' := h.chained.unique h'.chained
  rfl

/-- The file at the place is on the disk, with this content. -/
structure HasFile (k : Disk) (p : Place) (content : Bytes) : Prop where
  header : k.HasHeader p.sector p.header
  chained : k.Chained p.header p.chain
  blocks : p.chain.length = Layout.blocksFor p.header.length k.dataSize
  content : k.content p.header p.chain = content

namespace HasFile

theorem keeps {q : Nat → Prop} (h : k.HasFile p content) (hk : Keeps k k' q)
    (hp : ∀ s ∈ p.sectors, q s) : k'.HasFile p content where
  header := h.header.keeps hk (hp _ List.mem_cons_self)
  chained := h.chained.keeps hk fun s hs => hp s (List.mem_cons_of_mem _ hs)
  blocks := by rw [hk.dataSize, h.blocks]
  content := by
    rw [content_keeps hk fun s hs => hp s (List.mem_cons_of_mem _ hs), h.content]

theorem lt_sectors (h : k.HasFile p content) {s : Nat} (hs : s ∈ p.sectors) : s < k.sectors := by
  rcases List.mem_cons.mp hs with rfl | hs
  · exact h.header.1
  · exact h.chained.linked.lt_sectors hs

/-- The chain has room for the whole file. -/
theorem length_le (h : k.HasFile p content) (hk : 0 < k.dataSize) :
    p.header.length ≤ p.chain.length * k.dataSize := by
  rw [h.blocks]
  exact le_blocksFor_mul p.header.length hk

theorem length_content (h : k.HasFile p content) (hk : 0 < k.dataSize) :
    content.length = p.header.length := by
  rw [← h.content]
  exact Disk.length_content (h.length_le hk)

theorem content_unique {content' : Bytes} (h : k.HasFile p content) (h' : k.HasFile p content') :
    content = content' := h.content.symm.trans h'.content

theorem lies (h : k.HasFile p content) : k.Lies p := ⟨h.header, h.chained⟩

theorem unique {p' : Place} {content' : Bytes} (h : k.HasFile p content)
    (h' : k.HasFile p' content') (hsector : p.sector = p'.sector) :
    p = p' ∧ content = content' := by
  obtain rfl := h.lies.unique h'.lies hsector
  exact ⟨rfl, h.content_unique h'⟩

theorem open_yields (h : k.HasFile p content) :
    Yields (Handle.fetch p.sector) k (.ok p.handle) k := h.header.open_yields

theorem place_yields (h : k.HasFile p content) : Yields (Place.fetch p.sector) k (.ok p) k :=
  h.header.fetch_yields.bind (h.chained.chain_yields.bind (Yields.pure _ k))

variable {f : Handle}

/-- An open file is read by slices of its content. -/
theorem read_yields (h : k.HasFile p content) (hk : 0 < k.dataSize) (hf : f.header = p.header)
    (count pos : Nat) : Yields (f.readAt count pos) k (.ok ((content.drop pos).take count)) k := by
  have hc : k.Chained f.header p.chain := hf ▸ h.chained
  have := readAt_yields hk hc (hf ▸ h.length_le hk) count pos
  rwa [hf, h.content] at this

/-- **A write to an open file** replaces a slice of its content and changes no sector outside its
chain. -/
theorem write_yields (h : k.HasFile p content) (hk : 0 < k.dataSize) (hf : f.header = p.header)
    (hp : p.sector ∉ p.chain) (bytes : Bytes) (pos : Nat) :
    ∃ k', Yields (f.writeAt bytes pos) k (.ok (bytes.take (content.length - pos)).length) k' ∧
      k.Keeps k' (· ∉ p.chain) ∧
      k'.HasFile p (Bytes.splice content pos (bytes.take (content.length - pos))) := by
  have hc : k.Chained f.header p.chain := hf ▸ h.chained
  obtain ⟨k', hy, hkeep, hchained, hcontent⟩ :=
    writeAt_yields hk hc (hf ▸ h.length_le hk) bytes pos
  rw [hf] at hy hchained hcontent
  rw [h.length_content hk]
  refine ⟨k', hy, hkeep, h.header.keeps hkeep hp, hchained, ?_, ?_⟩
  · rw [hkeep.dataSize, h.blocks]
  · rw [hcontent, h.content]

/-- Writing as many bytes as the file has replaces them all. -/
theorem overwrite_yields (h : k.HasFile p content) (hk : 0 < k.dataSize) (hf : f.header = p.header)
    (hp : p.sector ∉ p.chain) {bytes : Bytes} (hlen : bytes.length = content.length) :
    ∃ k', Yields (Functor.discard (f.writeAt bytes 0)) k (.ok ()) k' ∧ k.Keeps k' (· ∉ p.chain) ∧
      k'.HasFile p bytes := by
  obtain ⟨k', hy, hkeep, hfile⟩ := h.write_yields hk hf hp bytes 0
  refine ⟨k', hy.discard, hkeep, ?_⟩
  have hall : Bytes.splice content 0 (bytes.take (content.length - 0)) = bytes := by
    rw [Nat.sub_zero, ← hlen, List.take_length, Bytes.splice, List.take_zero, List.nil_append,
      List.drop_eq_nil_of_le (by omega), List.append_nil]
  rwa [hall] at hfile

end HasFile

/-- A new file is on the disk as soon as its header is. -/
theorem hasFile_putHeader {s : Nat} {h : Header} {c : List Nat}
    (hsize : Layout.headerSize ≤ k.sectorSize) (hs : s < k.sectors) (hsc : s ∉ c)
    (hc : k.Chained h c) (hblocks : c.length = Layout.blocksFor h.length k.dataSize) :
    (k.putHeader s h).HasFile ⟨s, h, c⟩ (k.content h c) := by
  have hkeep : ∀ t ∈ c, t ≠ s := fun t ht heq => hsc (heq ▸ ht)
  exact ⟨hasHeader_putHeader hsize hs h, hc.keeps (keeps_putHeader k s h) hkeep, hblocks,
    content_keeps (keeps_putHeader k s h) hkeep h⟩

end Disk

/-! ## Directory tables -/

namespace Directory

theorem length_encode (dir : Directory) :
    dir.encode.length = dir.slots.length * Layout.entrySize := by
  unfold encode
  induction dir.slots with
  | nil => rfl
  | cons e rest ih =>
    rw [List.flatMap_cons, List.length_append, Entry.length_encode, ih, List.length_cons,
      Nat.succ_mul, Nat.add_comm]

theorem length_encode_empty :
    (empty Layout.directorySlots).encode.length = Layout.directorySize := by
  rw [length_encode]
  exact congrArg (· * Layout.entrySize) List.length_replicate

/-- **A table is read exactly from its own bytes**, whatever follows them. -/
theorem decodeSlots_eq_ok_iff {count : Nat} {bytes : Bytes} {slots : List Entry} :
    decodeSlots count bytes = .ok slots ↔
      slots.length = count ∧ ∃ rest, bytes = slots.flatMap Entry.encode ++ rest := by
  induction count generalizing bytes slots with
  | zero =>
    constructor
    · rintro ⟨⟩
      exact ⟨rfl, bytes, rfl⟩
    · rintro ⟨hlen, -⟩
      rw [List.eq_nil_of_length_eq_zero hlen]
      rfl
  | succ count ih =>
    unfold decodeSlots
    constructor
    · intro h
      cases he : Entry.decode bytes with
      | error x => simp [he, bind, Except.bind] at h
      | ok e =>
        cases hr : decodeSlots count (bytes.drop Layout.entrySize) with
        | error x => simp [he, hr, bind, Except.bind] at h
        | ok rest =>
          simp only [he, hr, bind, Except.bind, pure, Except.pure, Except.ok.injEq] at h
          subst h
          obtain ⟨hlen, tail, htail⟩ := ih.mp hr
          obtain ⟨behind, rfl⟩ := Entry.decode_eq_ok_iff.mp he
          rw [List.drop_left' (Entry.length_encode e)] at htail
          exact ⟨congrArg (· + 1) hlen, tail, by rw [htail, List.flatMap_cons, List.append_assoc]⟩
    · rintro ⟨hlen, tail, rfl⟩
      cases slots with
      | nil => cases hlen
      | cons e rest =>
        have hrest := ih.mpr ⟨Nat.succ.inj hlen, tail, rfl⟩
        rw [List.flatMap_cons, List.append_assoc, Entry.decode_encode,
          List.drop_left' (Entry.length_encode e), hrest]
        rfl

/-- `dir` is the table in a file with these bytes. Bytes that the file does not have count as
zeros, and bytes behind the table do not count. -/
def IsIn (dir : Directory) (content : Bytes) : Prop :=
  decodeSlots Layout.directorySlots (Bytes.fit Layout.directorySize content) = .ok dir.slots

theorem isIn_iff {dir : Directory} {content : Bytes} : dir.IsIn content ↔
    dir.slots.length = Layout.directorySlots ∧
      dir.encode = Bytes.fit Layout.directorySize content := by
  unfold IsIn
  rw [decodeSlots_eq_ok_iff]
  refine and_congr_right fun hlen => ?_
  have hsize : dir.encode.length = Layout.directorySize := by
    rw [length_encode, hlen]
    rfl
  constructor
  · rintro ⟨rest, hrest⟩
    have hnil := congrArg List.length hrest
    rw [Bytes.length_fit, List.length_append] at hnil
    change _ = dir.encode.length + rest.length at hnil
    rw [List.eq_nil_of_length_eq_zero (l := rest) (by omega), List.append_nil] at hrest
    exact hrest.symm
  · intro hencode
    exact ⟨[], by rw [← hencode, List.append_nil]; rfl⟩

/-- **A table is in a file of its own bytes.** -/
theorem isIn_encode {dir : Directory} (h : dir.slots.length = Layout.directorySlots) :
    dir.IsIn dir.encode := by
  refine isIn_iff.mpr ⟨h, (Bytes.fit_of_length ?_).symm⟩
  rw [length_encode, h]
  rfl

end Directory

namespace Disk

variable {k : Disk} {p : Place} {f : Handle} {table table' : Directory}

/-- A table is read if the chain has all that the file has of it. -/
theorem Chained.fetch_yields {l : List Nat} (hk : 0 < k.dataSize) (hc : k.Chained f.header l)
    (hlen : min Layout.directorySize f.header.length ≤ l.length * k.dataSize)
    (hin : table.IsIn (k.content f.header l)) : Yields (Directory.fetch f) k (.ok table) k := by
  refine (readAt_slice hk hc Layout.directorySize 0 (by rwa [Nat.zero_add])).bind ?_
  rw [List.drop_zero]
  unfold Directory.IsIn at hin
  unfold Bytes.fit at hin
  dsimp only
  rw [hin]
  exact (Yields.decoded _ k).bind (Yields.pure _ k)

/-- The table in a file is read. -/
theorem HasFile.fetch_yields {content : Bytes} (h : k.HasFile p content) (hk : 0 < k.dataSize)
    (hf : f.header = p.header) (hin : table.IsIn content) :
    Yields (Directory.fetch f) k (.ok table) k := by
  have hlen := Nat.le_trans (Nat.min_le_right Layout.directorySize _) (h.length_le hk)
  rw [← h.content, ← hf] at hin
  rw [← hf] at hlen
  exact Chained.fetch_yields hk (hf ▸ h.chained) hlen hin

/-- The file at the place holds a directory table. -/
structure HasTable (k : Disk) (p : Place) (table : Directory) : Prop where
  file : k.HasFile p table.encode
  length_slots : table.slots.length = Layout.directorySlots

namespace HasTable

theorem keeps {k' : Disk} {q : Nat → Prop} (h : k.HasTable p table) (hk : Keeps k k' q)
    (hp : ∀ s ∈ p.sectors, q s) : k'.HasTable p table := ⟨h.file.keeps hk hp, h.length_slots⟩

theorem length_encode (h : k.HasTable p table) : table.encode.length = Layout.directorySize := by
  rw [Directory.length_encode, h.length_slots]
  rfl

theorem isIn (h : k.HasTable p table) : table.IsIn table.encode :=
  Directory.isIn_encode h.length_slots

theorem fetch_yields (h : k.HasTable p table) (hk : 0 < k.dataSize) (hf : f.header = p.header) :
    Yields (Directory.fetch f) k (.ok table) k := h.file.fetch_yields hk hf h.isIn

/-- A table is replaced by another of the same size. -/
theorem store_yields (h : k.HasTable p table) (hk : 0 < k.dataSize) (hf : f.header = p.header)
    (hp : p.sector ∉ p.chain) (hlen : table'.slots.length = Layout.directorySlots) :
    ∃ k', Yields (table'.store f) k (.ok ()) k' ∧ k.Keeps k' (· ∉ p.chain) ∧
      k'.HasTable p table' := by
  have hsame : table'.encode.length = table.encode.length := by
    rw [Directory.length_encode, Directory.length_encode, hlen, h.length_slots]
  obtain ⟨k', hy, hkeep, hfile⟩ := h.file.overwrite_yields hk hf hp hsame
  exact ⟨k', hy, hkeep, hfile, hlen⟩

end HasTable

/-! ## The free map -/

variable {content : Bytes}

/-- A free map is read from the content of its file. -/
theorem fetchMap_yields (h : k.HasFile p content) (hk : 0 < k.dataSize) (hf : f.header = p.header)
    {n : Nat} (hlen : content.length = Layout.freeMapSize n) :
    Yields (FreeMap.fetch f n) k (.ok (FreeMap.ofBytes n content)) k := by
  refine (h.read_yields hk hf (Layout.freeMapSize n) 0).bind ?_
  rw [List.drop_zero, List.take_of_length_le (Nat.le_of_eq hlen)]
  exact (Yields.note _ k).bind (Yields.pure _ k)

/-- A free map that is stored in a file of the right length reads back with the same marks. -/
theorem storeMap_yields (h : k.HasFile p content) (hk : 0 < k.dataSize) (hf : f.header = p.header)
    (hp : p.sector ∉ p.chain) {m : FreeMap} (hlen : content.length = Layout.freeMapSize m.size)
    (hstored : m.stored = Layout.freeMapSize m.size) :
    ∃ k' content', Yields (m.store f) k (.ok ()) k' ∧ k.Keeps k' (· ∉ p.chain) ∧
      k'.HasFile p content' ∧ content'.length = Layout.freeMapSize m.size ∧
      ∀ s, (FreeMap.ofBytes m.size content').isUsed s = m.isUsed s := by
  have hcount : min m.stored f.length = Layout.freeMapSize m.size := by
    unfold Handle.length
    rw [hf, ← h.length_content hk, hlen, hstored, Nat.min_self]
  have hsame : (m.firstBytes (min m.stored f.length)).length = content.length := by
    rw [hcount, FreeMap.length_firstBytes, hlen]
  obtain ⟨k', hy, hkeep, hfile⟩ := h.overwrite_yields hk hf hp hsame
  refine ⟨k', _, hy, hkeep, hfile, hsame.trans hlen, fun s => ?_⟩
  rw [hcount]
  exact FreeMap.isUsed_stored (hstored ▸ m.size_le) s

end Disk

end SectorChain
