import SectorChain.Proofs.BlockLookup

/-!
# Records in a sector of their own

A sector is a number of 32 bits, and so is the link that is stored for it; but half of these links
lead nowhere. A block whose sector or next sector lies in that half is not read as it was written:
the first is refused, since the block does not name its own sector, and the second is lost without
a report, which ends the chain there. A header has no such gap: its two counts fit into the
non-negative half, and its link is kept as it is stored.

* `Bytes.wordAt bytes pos`: the word that is stored at `pos`.

Results:
* `target_ofOption_eq`: where the link leads that is stored for the next sector.
* `fetch_encoded`: what is read of a block, in the sector it was written to or in another one.
* `fetch_words`: what is read of the words of a header.
* `records_survive`: blocks and headers that are written and read back on every device without
  faults.
-/

namespace SectorChain

namespace Bytes

/-- The word of the four bytes from `pos` on, the lowest byte first. Bytes that are not there count
as zeros. -/
def wordAt (bytes : Bytes) (pos : Nat) : UInt32 :=
  UInt32.ofNat ((bytes.getD pos 0).toNat + 0x100 * (bytes.getD (pos + 1) 0).toNat +
    0x10000 * (bytes.getD (pos + 2) 0).toNat + 0x1000000 * (bytes.getD (pos + 3) 0).toNat)

theorem wordAt_drop (bytes : Bytes) (n pos : Nat) :
    wordAt (bytes.drop n) pos = wordAt bytes (n + pos) := by
  simp only [wordAt, List.getD_eq_getElem?_getD, List.getElem?_drop, Nat.add_assoc]

/-- A string of four bytes and more starts with a word. -/
theorem eq_wordAt {bytes : Bytes} (h : 4 ≤ bytes.length) :
    bytes = ofWord (wordAt bytes 0) ++ bytes.drop 4 := by
  match bytes, h with
  | a :: b :: c :: d :: rest, _ =>
    have hword : ofWord (wordAt (a :: b :: c :: d :: rest) 0) = [a, b, c, d] :=
      ofWord_of_bytes a b c d
    rw [hword]
    rfl

/-- A word is negative as a signed number just if it is in the upper half. -/
theorem signed_neg_iff {w : UInt32} : signed w < 0 ↔ 0x80000000 ≤ w.toNat := by
  have hlt := w.toNat_lt
  unfold signed
  split <;> omega

theorem signed_of_lt {w : UInt32} (h : w.toNat < 0x80000000) : signed w = w.toNat := if_pos h

end Bytes

/-! ## Links to any sector -/

namespace Link

variable {s : Nat}

/-- A sector beyond the limit is taken for a negative number. -/
theorem value_ofSector (hs : s < 0x100000000) (hlimit : limit ≤ s) :
    (ofSector s).value = (s : Int) - 0x100000000 := by
  unfold value Bytes.signed
  rw [toNat_ofSector hs]
  exact if_neg (Nat.not_lt.mpr hlimit)

/-- A link to a sector beyond the limit ends the chain. -/
theorem target_ofOption_eq {next : Option Nat} (hnext : ∀ t ∈ next, t < 0x100000000) :
    (ofOption next).target = next.filter (· < limit) := by
  cases next with
  | none => rfl
  | some t =>
    show (ofSector t).target = _
    rw [target_ofSector_eq (hnext t rfl)]
    by_cases ht : t < limit <;> simp [ht, Option.filter_some]

/-- A next sector is kept just if it is below the limit. -/
theorem filter_eq_self_iff {next : Option Nat} :
    next.filter (· < limit) = next ↔ ∀ t ∈ next, t < limit := by
  cases next with
  | none => simp
  | some t => simp [Option.filter_some]

end Link

namespace Disk

variable {k : Disk} {s t : Nat}

/-! ## Blocks -/

/-- What is read of a block: it must name the sector that it lies in. -/
theorem fetch_encoded {b : Block} (ht : t < k.sectors) (hbytes : k.bytes t = b.encode) :
    Yields (Block.fetch t) k
      (if (Link.ofSector b.sector).target = some t then
        .ok ⟨t, (Link.ofOption b.next).target, b.data⟩
      else .error (.corrupt (.misplaced t (Link.ofSector b.sector).value))) k := by
  refine (Drive.readSector_yields ht).bind ?_
  rw [hbytes, Block.decode_encode]
  refine (Yields.decoded _ k).bind ?_
  dsimp only
  split
  · exact Yields.pure _ k
  · exact Yields.corrupt _ k

/-- **A block is read back** from its own sector without a link beyond the limit, if its sector is
below it. -/
theorem fetch_stored {b : Block} (hs : b.sector < k.sectors) (hsector : b.sector < 0x100000000)
    (hnext : ∀ t ∈ b.next, t < 0x100000000) (hbytes : k.bytes b.sector = b.encode) :
    Yields (Block.fetch b.sector) k
      (if b.sector < Link.limit then .ok { b with next := b.next.filter (· < Link.limit) }
      else .error (.corrupt (.misplaced b.sector ((b.sector : Int) - 0x100000000)))) k := by
  have hfetch := fetch_encoded hs hbytes
  rw [Link.target_ofSector_eq hsector, Link.target_ofOption_eq hnext] at hfetch
  split
  · rename_i hlt
    rwa [if_pos hlt, if_pos rfl] at hfetch
  · rename_i hge
    rwa [if_neg hge, if_neg (Option.some_ne_none _).symm,
      Link.value_ofSector hsector (Nat.not_lt.mp hge)] at hfetch

/-- A copy of a block in another sector is refused. -/
theorem fetch_copied {b : Block} (ht : t < k.sectors) (hsector : b.sector < 0x100000000)
    (hbytes : k.bytes t = b.encode) (hne : t ≠ b.sector) :
    Yields (Block.fetch t) k
      (.error (.corrupt (.misplaced t (Link.ofSector b.sector).value))) k := by
  have hfetch := fetch_encoded ht hbytes
  rwa [if_neg] at hfetch
  rw [Link.target_ofSector_eq hsector]
  split
  · exact fun heq => hne (Option.some.inj heq).symm
  · exact (Option.some_ne_none t).symm

/-! ## Headers -/

/-- The words of a header are the first three of its sector. -/
theorem decode_words {bytes : Bytes} (h : Layout.headerSize ≤ bytes.length) :
    Header.decode bytes = .ok (bytes.wordAt 0, bytes.wordAt 4, ⟨bytes.wordAt 8⟩) := by
  have hlen : 12 ≤ bytes.length := h
  have hlen₄ : 4 ≤ (bytes.drop 4).length := by rw [List.length_drop]; omega
  have hlen₈ : 4 ≤ (bytes.drop 8).length := by rw [List.length_drop]; omega
  have hfirst := Bytes.eq_wordAt (Nat.le_trans (by decide) hlen)
  have hsecond := Bytes.eq_wordAt hlen₄
  have hthird := Bytes.eq_wordAt hlen₈
  rw [List.drop_drop, Bytes.wordAt_drop] at hsecond hthird
  have htake : Link.take (bytes.drop 8) = .ok (⟨bytes.wordAt 8⟩, bytes.drop 12) :=
    Link.take_eq_ok_iff.mpr hthird
  simp only [Header.decode, bind, Except.bind, Record.takeWord_eq_ok_iff.mpr hfirst,
    Record.takeWord_eq_ok_iff.mpr hsecond, htake]
  rfl

/-- **A sector is read as a header** just if neither of the first two of its words is in the upper
half. -/
theorem fetch_words (hs : s < k.sectors) (hsize : Layout.headerSize ≤ k.sectorSize) :
    Yields (Header.fetch s) k
      ((Header.ofWords? ((k.bytes s).wordAt 0) ((k.bytes s).wordAt 4) ⟨(k.bytes s).wordAt 8⟩).elim
        (.error (.corrupt (.notHeader s))) .ok) k := by
  refine (Drive.readSector_yields hs).bind ?_
  rw [decode_words (by rwa [k.length_bytes])]
  refine (Yields.decoded _ k).bind ?_
  dsimp only
  cases Header.ofWords? ((k.bytes s).wordAt 0) ((k.bytes s).wordAt 4) ⟨(k.bytes s).wordAt 8⟩ with
  | some h => exact Yields.pure h k
  | none => exact Yields.corrupt _ k

end Disk

/-! ## Counts of a header -/

namespace Header

variable {length blocks : UInt32}

theorem ofWords?_of_neg (h : Bytes.signed length < 0 ∨ Bytes.signed blocks < 0) (first : Link) :
    ofWords? length blocks first = none := by
  rw [Bytes.signed_neg_iff, Bytes.signed_neg_iff] at h
  exact dif_neg (by omega)

/-- Counts that are not negative are kept. -/
theorem exists_ofWords? (h : ¬(Bytes.signed length < 0 ∨ Bytes.signed blocks < 0)) (first : Link) :
    ∃ header, ofWords? length blocks first = some header ∧
      (header.length : Int) = Bytes.signed length ∧ (header.blocks : Int) = Bytes.signed blocks ∧
      header.first = first := by
  rw [Bytes.signed_neg_iff, Bytes.signed_neg_iff, not_or, Nat.not_le, Nat.not_le] at h
  exact ⟨_, dif_pos h, (Bytes.signed_of_lt h.1).symm, (Bytes.signed_of_lt h.2).symm, rfl⟩

end Header

/-! ## On a device -/

namespace Drive

variable {d : Drive}

theorem FaultFree.sector?_eq_some (hd : d.FaultFree) {s : Nat} {bytes : Bytes}
    (h : d.device.sector? s = some bytes) : s < d.device.sectors ∧ d.disk.bytes s = bytes := by
  rw [Device.sector?_eq hd.reliable] at h
  split at h
  · rename_i hs
    exact ⟨hs, Option.some.inj h⟩
  · cases h

/-- A block that was written can be read as it is. -/
theorem FaultFree.store_block (hd : d.FaultFree) (hsize : Layout.linkSize < d.device.sectorSize)
    {b : Block} (hs : b.sector < d.device.sectors)
    (hdata : b.data.length = Layout.dataSize d.device.sectorSize) :
    ∃ d₁, b.store d = .ok () d₁ ∧ d₁.FaultFree ∧ d₁.device.sector? b.sector = some b.encode := by
  have hpos : 0 < d.disk.dataSize := Nat.sub_pos_of_lt hsize
  obtain ⟨d₁, hstore, hd₁, hdisk⟩ := Disk.store_yields hpos hs hdata d hd rfl
  have hs₁ : b.sector < d₁.disk.sectors := hdisk ▸ hs
  have hbytes : d₁.disk.bytes b.sector = b.encode := by
    rw [hdisk, Disk.putBlock, Disk.bytes_put_self (Disk.length_encode_block hpos hdata)]
  refine ⟨d₁, hstore, hd₁, ?_⟩
  rw [Device.sector?_eq hd₁.reliable]
  exact (if_pos hs₁).trans (congrArg some hbytes)

/-- **Blocks and headers survive their sector** within the range of links. On every device without
faults, of at most `2 ^ 32` sectors that have room for data:
* a block of a full sector is written to its sector and read back unchanged just if its sector and
  the next one are below the limit. If its own is not, it is refused; if only the next one is not,
  it is read as the last of its chain;
* in every other sector, of this device or another, a copy of its bytes is refused.

If a sector has room for a header, then
* every header is written to every sector and read back unchanged;
* what lies in a sector is refused as a header just if its first or its second word is negative as
  a signed number; otherwise these are the length and the number of blocks that are read. -/
theorem records_survive (hd : d.FaultFree) (hsectors : d.device.sectors ≤ 0x100000000)
    (hsize : Layout.linkSize < d.device.sectorSize) :
    (∀ b : Block, b.sector < d.device.sectors → (∀ t ∈ b.next, t < 0x100000000) →
      b.data.length = Layout.dataSize d.device.sectorSize →
      ∃ d₁, b.store d = .ok () d₁ ∧ d₁.FaultFree ∧
        ((∃ d₂, Block.fetch b.sector d₁ = .ok b d₂) ↔
          b.sector < Link.limit ∧ ∀ t ∈ b.next, t < Link.limit) ∧
        (Link.limit ≤ b.sector → ∃ d₂, Block.fetch b.sector d₁ =
          .error (.corrupt (.misplaced b.sector ((b.sector : Int) - 0x100000000))) d₂) ∧
        (b.sector < Link.limit → (∃ t ∈ b.next, Link.limit ≤ t) →
          ∃ d₂, Block.fetch b.sector d₁ = .ok { b with next := none } d₂) ∧
        ∀ d' t, d'.FaultFree → t ≠ b.sector →
          d'.device.sector? t = d₁.device.sector? b.sector →
          ∃ d₂, Block.fetch t d' =
            .error (.corrupt (.misplaced t (Link.ofSector b.sector).value)) d₂) ∧
    (Layout.headerSize ≤ d.device.sectorSize →
      (∀ (h : Header) s, s < d.device.sectors →
        ∃ d₁ d₂, h.store s d = .ok () d₁ ∧ Header.fetch s d₁ = .ok h d₂) ∧
      ∀ s bytes, d.device.sector? s = some bytes →
        let length := Bytes.signed (bytes.wordAt 0)
        let blocks := Bytes.signed (bytes.wordAt 4)
        (length < 0 ∨ blocks < 0 →
          ∃ d₁, Header.fetch s d = .error (.corrupt (.notHeader s)) d₁) ∧
        (¬(length < 0 ∨ blocks < 0) → ∃ h d₁, Header.fetch s d = .ok h d₁ ∧
          (h.length : Int) = length ∧ (h.blocks : Int) = blocks ∧
          h.first = ⟨bytes.wordAt 8⟩)) := by
  refine ⟨fun b hs hnext hdata => ?_, fun hheader => ⟨fun h s hs => ?_, fun s bytes hbytes => ?_⟩⟩
  · have hsector : b.sector < 0x100000000 := Nat.lt_of_lt_of_le hs hsectors
    obtain ⟨d₁, hstore, hd₁, hstored⟩ := hd.store_block hsize hs hdata
    obtain ⟨hs₁, hbytes₁⟩ := hd₁.sector?_eq_some hstored
    obtain ⟨d₂, hfetch, -⟩ := hd₁.run (Block.fetch_still b.sector)
      (Disk.fetch_stored hs₁ hsector hnext hbytes₁)
    refine ⟨d₁, hstore, hd₁, ⟨fun hread => ?_, fun hlimit => ?_⟩, fun hge => ?_,
      fun hlt hlost => ?_, fun d' t hd' hne hcopy => ?_⟩
    · obtain ⟨d₃, hread⟩ := hread
      rw [hfetch] at hread
      split at hread
      · rename_i hlt
        have hsame := Except.ok.inj (ended_eq_ok hread).1
        exact ⟨hlt, Link.filter_eq_self_iff.mp (congrArg Block.next hsame)⟩
      · cases hread
    · refine ⟨d₂, ?_⟩
      rw [hfetch, if_pos hlimit.1, Link.filter_eq_self_iff.mpr hlimit.2]
      rfl
    · rw [if_neg (Nat.not_lt.mpr hge)] at hfetch
      exact ⟨d₂, hfetch⟩
    · obtain ⟨t, ht, hge⟩ := hlost
      have hnone : b.next.filter (· < Link.limit) = none := by
        rw [Option.mem_def.mp ht, Option.filter_some, if_neg (by simpa using hge)]
      rw [if_pos hlt, hnone] at hfetch
      exact ⟨d₂, hfetch⟩
    · rw [hstored] at hcopy
      obtain ⟨ht, hbytes⟩ := hd'.sector?_eq_some hcopy
      obtain ⟨d₃, hrun, -⟩ := hd'.run (Block.fetch_still t)
        (Disk.fetch_copied ht hsector hbytes hne)
      exact ⟨d₃, hrun⟩
  · obtain ⟨d₁, hstore, hd₁, hdisk⟩ := Disk.storeHeader_yields (k := d.disk) hs h d hd rfl
    have hlies : d₁.disk.HasHeader s h := hdisk ▸ Disk.hasHeader_putHeader hheader hs h
    obtain ⟨d₂, hfetch, -⟩ := hd₁.run (Header.fetch_still s) hlies.fetch_yields
    exact ⟨d₁, d₂, hstore, hfetch⟩
  · intro length blocks
    obtain ⟨hs, rfl⟩ := hd.sector?_eq_some hbytes
    obtain ⟨d₁, hfetch, -⟩ := hd.run (Header.fetch_still s) (Disk.fetch_words hs hheader)
    refine ⟨fun hneg => ⟨d₁, ?_⟩, fun hcounts => ?_⟩
    · rw [hfetch, Header.ofWords?_of_neg hneg]
      rfl
    · obtain ⟨h, hwords, hlength, hblocks, hfirst⟩ :=
        Header.exists_ofWords? hcounts ⟨(d.disk.bytes s).wordAt 8⟩
      refine ⟨h, d₁, ?_, hlength, hblocks, hfirst⟩
      rw [hfetch, hwords]
      rfl

/-- On a device of `2 ^ 32 - 1` sectors a block keeps the link to the last sector below the limit,
and loses the link to the sector behind that. A block that lies there is refused, a header is
not. -/
theorem records_survive_limit :
    ∃ (d : Drive) (header : Header), d.FaultFree ∧ d.device.sectors = 0xFFFFFFFF ∧
      (∃ d₁ d₂, Block.store ⟨5, some 0x7FFFFFFF, [1, 2, 3, 4]⟩ d = .ok () d₁ ∧
        Block.fetch 5 d₁ = .ok ⟨5, some 0x7FFFFFFF, [1, 2, 3, 4]⟩ d₂) ∧
      (∃ d₁ d₂, Block.store ⟨5, some 0x80000000, [1, 2, 3, 4]⟩ d = .ok () d₁ ∧
        Block.fetch 5 d₁ = .ok ⟨5, none, [1, 2, 3, 4]⟩ d₂) ∧
      (∃ d₁ d₂, Block.store ⟨0x80000000, none, [1, 2, 3, 4]⟩ d = .ok () d₁ ∧
        Block.fetch 0x80000000 d₁ =
          .error (.corrupt (.misplaced 0x80000000 (-0x80000000))) d₂) ∧
      header.length = 7 ∧
      ∃ d₁ d₂, header.store 0x80000000 d = .ok () d₁ ∧
        Header.fetch 0x80000000 d₁ = .ok header d₂ := by
  let d : Drive := { device := .blank 0xFFFFFFFF 12 }
  let header : Header := ⟨7, 2, ⟨0xFFFFFFFF⟩, by decide, by decide⟩
  have hd : d.FaultFree := Drive.faultFree_blank 0xFFFFFFFF 12
  obtain ⟨hblocks, hheaders⟩ := records_survive hd (by decide) (by decide)
  obtain ⟨hheader, -⟩ := hheaders (by decide)
  refine ⟨d, header, hd, rfl, ?_, ?_, ?_, rfl, ?_⟩
  · obtain ⟨d₁, hstore, -, hkept, -⟩ :=
      hblocks ⟨5, some 0x7FFFFFFF, [1, 2, 3, 4]⟩ (by decide) (by decide) rfl
    obtain ⟨d₂, hfetch⟩ := hkept.mpr ⟨by decide, by decide⟩
    exact ⟨d₁, d₂, hstore, hfetch⟩
  · obtain ⟨d₁, hstore, -, -, -, hlost, -⟩ :=
      hblocks ⟨5, some 0x80000000, [1, 2, 3, 4]⟩ (by decide) (by decide) rfl
    obtain ⟨d₂, hfetch⟩ := hlost (by decide) ⟨0x80000000, rfl, by decide⟩
    exact ⟨d₁, d₂, hstore, hfetch⟩
  · obtain ⟨d₁, hstore, -, -, hrefused, -⟩ :=
      hblocks ⟨0x80000000, none, [1, 2, 3, 4]⟩ (by decide) (by decide) rfl
    obtain ⟨d₂, hfetch⟩ := hrefused (by decide)
    exact ⟨d₁, d₂, hstore, hfetch⟩
  · obtain ⟨d₁, d₂, hstore, hfetch⟩ := hheader header 0x80000000 (by decide)
    exact ⟨d₁, d₂, hstore, hfetch⟩

end Drive

end SectorChain
