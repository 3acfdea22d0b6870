import SectorChain.Proofs.DamagedChains
import SectorChain.Proofs.Failures

/-!
# Slices of a file

An open file is a string of bytes on the disk: the data of its chain, as far as the file is long.
The sectors of the chain may lie anywhere and hold anything behind that. A read answers a slice of
this string; a write splices into it, and what it does to the rest of the disk is said sector by
sector.

* `Handle.Touches n pos data i`: block number `i` holds some of the `n` bytes from `pos` on.

The links of a block that is written stay as they were but in one case. A chain may end with any
link that leads nowhere, of which there are `2 ^ 31`, and a block does not know which one it was
read with: what is written is always the one of all bits.

Results:
* `mem_touched`: the sectors that a request goes to are those of the blocks that it touches.
* `slice_and_splice`: reads and writes on every device without faults, for every handle whose chain
  can be walked.
* `relinked_end`: the case in which a link changes.
-/

namespace SectorChain

namespace Handle

/-- Block number `i` holds some of the `n` bytes from `pos` on. -/
def Touches (n pos data i : Nat) : Prop := 0 < n ∧ i * data < pos + n ∧ pos < (i + 1) * data

/-- The blocks of a request are those that it touches. -/
theorem span_iff {n pos data i : Nat} (hdata : 0 < data) (hn : 0 < n) :
    (pos / data ≤ i ∧ i < pos / data + span n pos data) ↔ Touches n pos data i := by
  have hfirst : pos / data ≤ i ↔ pos < (i + 1) * data := by
    rw [← Nat.lt_succ_iff, Nat.div_lt_iff_lt_mul hdata]
  have hlast : i ≤ (pos + n - 1) / data ↔ i * data < pos + n := by
    rw [Nat.le_div_iff_mul_le hdata]
    omega
  have hle : pos / data ≤ (pos + n - 1) / data := Nat.div_le_div_right (by omega)
  have hspan : i < pos / data + span n pos data ↔ i ≤ (pos + n - 1) / data := by
    unfold span
    omega
  rw [hspan, hfirst, hlast, and_comm]
  exact ⟨fun h => ⟨hn, h⟩, fun h => h.2⟩

theorem readInto_still (f : Handle) (buffer : Bytes) (pos : Nat) :
    Still (f.readInto buffer pos) := by
  rw [readInto_eq]
  exact (f.readAt_still buffer.length pos).bind fun _ => Still.pure _

end Handle

/-- The link that a link is read and written as. -/
theorem Link.ofOption_target (l : Link) :
    ofOption l.target = if l.target = none then endOfChain else l := by
  cases h : l.target with
  | none => rfl
  | some s =>
    rw [if_neg (Option.some_ne_none s), eq_ofSector h]
    rfl

/-- What lies behind a splice stays. -/
theorem Bytes.drop_splice {bytes new : Bytes} {pos n : Nat} (hpos : pos ≤ bytes.length)
    (hn : pos + new.length ≤ n) : (splice bytes pos new).drop n = bytes.drop n := by
  have hfront : (bytes.take pos ++ new).length = pos + new.length := by
    rw [List.length_append, List.length_take, Nat.min_eq_left hpos]
  unfold splice
  rw [List.drop_append, hfront, List.drop_eq_nil_of_le (hfront ▸ hn), List.nil_append,
    List.drop_drop, Nat.add_sub_cancel' hn]

/-- A walk that ends has found the chain of the header. -/
theorem Drive.FaultFree.chained {d d' : Drive} (hd : d.FaultFree) {h : Header} {l : List Nat}
    (hchain : h.chain d = .ok l d') : d.disk.Chained h l := by
  obtain ⟨r, d₁, hrun, -, hwalk, -⟩ := Header.chain_ends hd h
  have hended : ended r d₁ = ended (.ok l) d' := hrun.symm.trans hchain
  exact (hwalk l).mp (ended_inj hended).1

namespace Disk

variable {k k' : Disk}

/-- The sectors of `count` blocks of a chain from number `first` on. -/
theorem mem_take_drop {l : List Nat} {first count s : Nat} :
    s ∈ (l.drop first).take count ↔ ∃ i, first ≤ i ∧ i < first + count ∧ l[i]? = some s := by
  simp only [List.mem_iff_getElem?, List.getElem?_take, List.getElem?_drop]
  constructor
  · rintro ⟨i, hi⟩
    split at hi
    · exact ⟨first + i, by omega, by omega, hi⟩
    · cases hi
  · rintro ⟨i, hle, hlt, hi⟩
    refine ⟨i - first, ?_⟩
    rw [if_pos (by omega), Nat.add_sub_cancel' hle]
    exact hi

/-- **The sectors of a request** are those of the blocks that it touches. -/
theorem mem_touched (hk : 0 < k.dataSize) {l : List Nat} {n pos s : Nat} :
    s ∈ k.touched l n pos ↔ ∃ i, l[i]? = some s ∧ Handle.Touches n pos k.dataSize i := by
  unfold touched
  by_cases hn : n = 0
  · rw [if_pos hn]
    constructor
    · rintro ⟨⟩
    · rintro ⟨i, -, hpos, -⟩
      omega
  · have hn : 0 < n := Nat.pos_of_ne_zero hn
    rw [if_neg (by omega), mem_take_drop]
    simp only [← Handle.span_iff hk hn]
    exact exists_congr fun i => and_rotate.symm

/-- A chain of as many blocks as its file needs has room for all of it. -/
theorem Chained.length_le {h : Header} {l : List Nat} (hc : k.Chained h l) (hk : 0 < k.dataSize)
    (hblocks : h.blocks = Layout.blocksFor h.length k.dataSize) :
    h.length ≤ l.length * k.dataSize := by
  rw [← hc.blocks, hblocks]
  exact le_blocksFor_mul h.length hk

/-- What is read into a buffer is a slice of the content; the rest of the buffer is left alone. -/
theorem readInto_yields {f : Handle} {l : List Nat} (hk : 0 < k.dataSize)
    (hc : k.Chained f.header l) (hlen : f.header.length ≤ l.length * k.dataSize) (buffer : Bytes)
    (pos : Nat) :
    let n := min buffer.length (f.header.length - pos)
    Yields (f.readInto buffer pos) k
      (.ok (n, ((k.content f.header l).drop pos).take n ++ buffer.drop n)) k := by
  intro n
  have hslice : ((k.content f.header l).drop pos).take buffer.length =
      ((k.content f.header l).drop pos).take n := by
    rw [List.take_eq_take_iff, List.length_drop, length_content hlen]
    omega
  have hlength : (((k.content f.header l).drop pos).take n).length = n := by
    rw [List.length_take, List.length_drop, length_content hlen]
    omega
  rw [Handle.readInto_eq]
  refine (readAt_yields hk hc hlen buffer.length pos).bind ?_
  rw [hslice, hlength, Bytes.splice, hlength, List.take_zero, List.nil_append, Nat.zero_add]
  exact Yields.pure _ k

/-- What is written no further than the file goes leaves what lies behind the file in its blocks. -/
theorem chainData_splice_drop {h : Header} {l : List Nat} (hlen : h.length ≤ l.length * k.dataSize)
    {bytes : Bytes} {pos : Nat}
    (hdata : k'.chainData l = Bytes.splice (k.chainData l) pos (bytes.take (h.length - pos))) :
    (k'.chainData l).drop h.length = (k.chainData l).drop h.length := by
  rw [hdata]
  by_cases hpos : pos < h.length
  · refine Bytes.drop_splice ?_ ?_
    · rw [length_chainData]
      omega
    · rw [List.length_take]
      omega
  · rw [Nat.sub_eq_zero_of_le (Nat.not_lt.mp hpos), List.take_zero, Bytes.splice_nil]

/-- What a relinked sector starts with, on two drives that hold the disks. -/
theorem Relinked.sector? {d d' : Drive} {s : Nat} (h : d.disk.Relinked d'.disk s)
    (hd : d.FaultFree) (hd' : d'.FaultFree) (hs : s < d.device.sectors)
    (hs' : s < d'.device.sectors) :
    ∃ own next : Link,
      (d.device.sector? s).map (·.take Layout.linkSize) = some (own.encode ++ next.encode) ∧
      (d'.device.sector? s).map (·.take Layout.linkSize) = some (own.encode ++
        (if next.target = none then Link.endOfChain else next).encode) := by
  obtain ⟨own, next, hbefore, hafter⟩ := h
  rw [Link.ofOption_target] at hafter
  refine ⟨own, next, ?_, ?_⟩
  · rw [Device.sector?_eq hd.reliable, if_pos hs]
    exact congrArg some hbefore
  · rw [Device.sector?_eq hd'.reliable, if_pos hs']
    exact congrArg some hafter

end Disk

namespace Handle

variable {d d₀ : Drive} {f : Handle} {l : List Nat}

/-- **Reads are slices and writes are splices.** On every device without faults whose sectors have
room for data, for every handle whose header counts the blocks that its length needs and whose
chain can be walked, let the content be the data of the chain as far as the file is long, and `n`
the length of the request, cut at the end of the file:
* a read answers `n` and puts that slice of the content at the front of the buffer, of which the
  rest stays, and nothing changes on the device;
* a write answers `n` and puts the first `n` bytes into the content at the position; what lies
  behind the file in its last block stays, and so does every sector that no touched block is in;
* a touched block keeps its links, but for a last one that leads nowhere: that is now the link of
  all bits. -/
theorem slice_and_splice (hd : d.FaultFree) (hsize : Layout.linkSize < d.device.sectorSize)
    (hblocks : f.header.blocks =
      Layout.blocksFor f.header.length (Layout.dataSize d.device.sectorSize))
    (hchain : f.header.chain d = .ok l d₀) (buffer : Bytes) (pos : Nat) :
    let data := Layout.dataSize d.device.sectorSize
    let n := min buffer.length (f.header.length - pos)
    let content := (d.disk.chainData l).take f.header.length
    (∃ d₁, f.readInto buffer pos d = .ok (n, (content.drop pos).take n ++ buffer.drop n) d₁ ∧
      d₁.device = d.device) ∧
    ∃ d₁, f.writeAt buffer pos d = .ok n d₁ ∧ d₁.FaultFree ∧
      (∃ d₂, f.header.chain d₁ = .ok l d₂) ∧
      (d₁.disk.chainData l).take f.header.length = Bytes.splice content pos (buffer.take n) ∧
      (d₁.disk.chainData l).drop f.header.length = (d.disk.chainData l).drop f.header.length ∧
      (∀ s, (∀ i, l[i]? = some s → ¬Touches n pos data i) →
        d₁.device.sector? s = d.device.sector? s) ∧
      ∀ i s, l[i]? = some s → Touches n pos data i → ∃ own next : Link,
        (d.device.sector? s).map (·.take Layout.linkSize) = some (own.encode ++ next.encode) ∧
        (d₁.device.sector? s).map (·.take Layout.linkSize) = some (own.encode ++
          (if next.target = none then Link.endOfChain else next).encode) := by
  intro data n content
  have hdata : 0 < d.disk.dataSize := Nat.sub_pos_of_lt hsize
  have hchained : d.disk.Chained f.header l := hd.chained hchain
  have hlen := hchained.length_le hdata hblocks
  have hnew : buffer.take (f.header.length - pos) = buffer.take n := by
    rw [List.take_eq_take_iff]
    omega
  have hlength : (buffer.take (f.header.length - pos)).length = n := by
    rw [List.length_take]
    omega
  refine ⟨hd.run (f.readInto_still buffer pos)
      (Disk.readInto_yields hdata hchained hlen buffer pos),
    ?_⟩
  obtain ⟨k', hy, hkeep, hrelinked, hchained', hspliced⟩ :=
    Disk.writeAt_blocks hdata hchained hlen buffer pos
  obtain ⟨d₁, hrun, hd₁, rfl⟩ := hy d hd rfl
  rw [hlength] at hrun hkeep hrelinked
  obtain ⟨d₂, hwalk, -⟩ := hd₁.run f.header.chain_still hchained'.chain_yields
  refine ⟨d₁, hrun, hd₁, ⟨d₂, hwalk⟩, hnew ▸ Disk.content_splice hlen hspliced,
    Disk.chainData_splice_drop hlen hspliced, fun s hs => ?_, fun i s hi htouches => ?_⟩
  · refine hkeep.sector?_eq hd hd₁ fun hmem => ?_
    obtain ⟨i, hi, htouches⟩ := (Disk.mem_touched hdata).mp hmem
    exact hs i hi htouches
  · have hmem : s ∈ d.disk.touched l n pos := (Disk.mem_touched hdata).mpr ⟨i, hi, htouches⟩
    have hs : s ∈ l := List.mem_of_getElem? hi
    exact (hrelinked s hmem).sector? hd hd₁ (hchained.linked.lt_sectors hs)
      (hchained'.linked.lt_sectors hs)

/-- A handle for a file of twelve bytes, in the sectors 3 and 1. -/
def twelve : Handle := ⟨⟨12, 2, .ofSector 3, by decide, by decide⟩, 0, 7⟩

/-- A drive with this file, all zeros. -/
def twelveOn (faults : Faults) : Drive where
  device := ((Device.blank 4 16).put 3 ([3, 0, 0, 0, 1, 0, 0, 0] ++ Bytes.zeros 8)).put 1
    ([1, 0, 0, 0, 0xFF, 0xFF, 0xFF, 0xFF] ++ Bytes.zeros 8)
  faults

theorem reliable_twelveOn (faults : Faults) : (twelveOn faults).device.Reliable :=
  Device.reliable_put (Device.reliable_put (Drive.faultFree_blank 4 16).reliable rfl) rfl

theorem chain_twelveOn : ∃ d₀, twelve.header.chain (twelveOn fun _ _ => false) = .ok [3, 1] d₀ :=
  ⟨_, rfl⟩

/-- The file is read and written across both blocks. -/
theorem slice_and_splice_across : ∃ (d d₀ d₁ d₂ : Drive) (f : Handle), d.FaultFree ∧
    f.header.chain d = .ok [3, 1] d₀ ∧
    f.readInto [1, 2, 3, 4, 5, 6] 7 d = .ok (5, [0, 0, 0, 0, 0, 6]) d₁ ∧
    f.writeAt [1, 2, 3, 4, 5, 6] 7 d = .ok 5 d₂ ∧
    (d₂.disk.chainData [3, 1]).take 12 = [0, 0, 0, 0, 0, 0, 0, 1, 2, 3, 4, 5] := by
  have hd : (twelveOn fun _ _ => false).FaultFree := ⟨reliable_twelveOn _, rfl⟩
  have hzeros : (twelveOn fun _ _ => false).disk.chainData [3, 1] = Bytes.zeros 16 := by
    decide +kernel
  obtain ⟨d₀, hchain⟩ := chain_twelveOn
  obtain ⟨⟨d₁, hread, -⟩, d₂, hwrite, -, -, hcontent, -⟩ :=
    slice_and_splice hd (by decide) (by decide) hchain [1, 2, 3, 4, 5, 6] 7
  rw [hzeros] at hread hcontent
  exact ⟨_, d₀, d₁, d₂, twelve, hd, hchain, hread, hwrite, hcontent⟩

/-- **A link that leads nowhere is not kept as it was**: a chain may end with the link `-2`, which
is found to be `-1` after a byte of its block was written. -/
theorem relinked_end : ∃ (d d₀ d₁ : Drive) (f : Handle), d.FaultFree ∧
    Layout.linkSize < d.device.sectorSize ∧
    f.header.blocks = Layout.blocksFor f.header.length (Layout.dataSize d.device.sectorSize) ∧
    f.header.chain d = .ok [1] d₀ ∧ f.writeAt [0x41] 0 d = .ok 1 d₁ ∧
    (d.device.sector? 1).map (·.take Layout.linkSize) =
      some [1, 0, 0, 0, 0xFE, 0xFF, 0xFF, 0xFF] ∧
    (d₁.device.sector? 1).map (·.take Layout.linkSize) =
      some [1, 0, 0, 0, 0xFF, 0xFF, 0xFF, 0xFF] := by
  have hd : (⟨(Device.blank 4 16).put 1 ([1, 0, 0, 0, 0xFE, 0xFF, 0xFF, 0xFF] ++ Bytes.zeros 8),
      fun _ _ => false, {}, #[], #[], 0⟩ : Drive).FaultFree :=
    ⟨Device.reliable_put (Drive.faultFree_blank 4 16).reliable rfl, rfl⟩
  exact ⟨_, _, _, ⟨⟨8, 1, .ofSector 1, by decide, by decide⟩, 0, 0⟩, hd, by decide, rfl, rfl, rfl,
    rfl, rfl⟩

end Handle

end SectorChain
