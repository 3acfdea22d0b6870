import SectorChain.Proofs.Slices

/-!
# The accesses of a file operation

A file has no index: to find one of its blocks, the chain is walked from its start. A request goes
to its blocks one after the other, and each of them costs a walk of its own. What a block holds
beside the request comes with that walk, so that a block of which only a part is written is not read
again.

* `Traces x k l`: begun on any drive without faults that holds `k`, `x` asks for the accesses `l`,
  in this order, and for no others.
* `Handle.lookup c i`: the accesses that find block number `i` of the chain `c`.
* `Handle.rewrite c i`: the accesses that find this block and write it.

Results:
* `Traces.bind`: operations in sequence.
* `blockAt_traces`: one block is found by as many reads as it has blocks up to it.
* `readBlocks_traces`, `writeBlocks_traces`: several blocks, one after the other.
* `accesses_exact`: the accesses of every read and every write.
-/

namespace SectorChain

/-! ## The order of accesses -/

/-- **The accesses that an operation asks for on a disk**, in their order. -/
def Traces {α : Type} (x : DriveM α) (k : Disk) (l : List Access) : Prop :=
  ∀ d : Drive, d.FaultFree → d.disk = k →
    (driveAfter (x d)).accesses.toList = d.accesses.toList ++ l

namespace Traces

variable {α β : Type} {x : DriveM α} {f : α → DriveM β} {k k₁ : Disk} {l l' : List Access}

/-- Nothing is asked for. -/
theorem none (h : ∀ d, (driveAfter (x d)).accesses = d.accesses) : Traces x k [] := by
  intro d _ _
  rw [h, List.append_nil]

theorem pure (a : α) : Traces (Pure.pure a) k [] := none fun _ => rfl

theorem note (n : Note) : Traces (Drive.note n) k [] := none fun _ => rfl

theorem dataSize : Traces Drive.dataSize k [] := none fun _ => rfl

/-- **Operations in sequence**: the second one begins on the disk that the first one leaves. -/
theorem bind {a : α} (hx : Traces x k l) (hy : Yields x k (.ok a) k₁) (hf : Traces (f a) k₁ l') :
    Traces (x >>= f) k (l ++ l') := by
  intro d hd hk
  obtain ⟨d₁, hrun, hd₁, hk₁⟩ := hy d hd hk
  have hfirst := hx d hd hk
  have hsecond := hf d₁ hd₁ hk₁
  rw [hrun] at hfirst
  rw [run_bind_ok hrun, hsecond]
  simp only [← List.append_assoc, ← hfirst]
  rfl

/-- What follows asks for nothing. -/
theorem bind_none {a : α} (hx : Traces x k l) (hy : Yields x k (.ok a) k₁)
    (hf : Traces (f a) k₁ []) : Traces (x >>= f) k l := by
  simpa using hx.bind hy hf

/-- What comes before asked for nothing. -/
theorem none_bind {a : α} (hx : Traces x k []) (hy : Yields x k (.ok a) k₁)
    (hf : Traces (f a) k₁ l) : Traces (x >>= f) k l := hx.bind hy hf

theorem readSector (s : Nat) : Traces (Drive.readSector s) k [.read s] := by
  intro d _ _
  rw [Drive.accesses_readSector]
  exact Array.toList_push

theorem writeSector (s : Nat) (bytes : Bytes) :
    Traces (Drive.writeSector s bytes) k [.write s] := by
  intro d _ _
  rw [Drive.accesses_writeSector]
  exact Array.toList_push

end Traces

/-! ## One block -/

namespace Handle

/-- Finding block number `i`: every block up to it is read, in the order of the chain. -/
def lookup (chain : List Nat) (i : Nat) : List Access := (chain.take (i + 1)).map .read

/-- Writing block number `i`: it is found, and written once. -/
def rewrite (chain : List Nat) (i : Nat) : List Access :=
  lookup chain i ++ chain[i]?.toList.map .write

/-- The numbers of the blocks that `n` bytes from `pos` on fall into: from the block of the first
byte to the block of the last one, and none if there are no bytes. -/
def blockNumbers (n pos data : Nat) : List Nat :=
  let first := pos / data
  let last := (pos + n - 1) / data
  if n = 0 then [] else List.range' first (last + 1 - first)

theorem blockNumbers_of_pos {n : Nat} (hn : 0 < n) (pos data : Nat) :
    blockNumbers n pos data = List.range' (pos / data) (span n pos data) := by
  have hle : pos / data ≤ (pos + n - 1) / data := Nat.div_le_div_right (by omega)
  have hspan : (pos + n - 1) / data + 1 - pos / data = span n pos data := by
    unfold span
    omega
  simp only [blockNumbers, if_neg (Nat.pos_iff_ne_zero.mp hn), hspan]

end Handle

namespace Disk

variable {k : Disk} {l : List Nat}

theorem HasBlock.fetch_traces {s : Nat} {next : Option Nat} (h : k.HasBlock s next) :
    Traces (Block.fetch s) k [.read s] := by
  obtain ⟨hlt, own, link, hbytes, hown, rfl⟩ := h
  refine (Traces.readSector s).bind_none (Drive.readSector_yields hlt) ?_
  rw [hbytes, Block.decode_append]
  refine (Traces.none fun _ => rfl).none_bind (Yields.decoded _ k) ?_
  dsimp only
  rw [if_pos hown]
  exact Traces.pure _

theorem store_traces (b : Block) : Traces b.store k [.write b.sector] :=
  (Traces.note _).none_bind (Yields.note _ k) (Traces.writeSector _ _)

/-- Each step down the chain is one read. -/
theorem follow_traces (h : k.Linked l) (blocks hops : Nat) :
    ∀ {i : Nat} (hi : i < l.length), i + hops < l.length → ∀ index : Nat,
      Traces (Header.follow blocks hops index ⟨l[i], l[i + 1]?, k.dataAt l[i]⟩) k
        (((l.drop (i + 1)).take hops).map .read) := by
  induction hops with
  | zero =>
    intro i hi hend index
    exact Traces.pure _
  | succ hops ih =>
    intro i hi hend index
    have hlt : i + 1 < l.length := by omega
    unfold Header.follow
    dsimp only
    rw [List.getElem?_eq_getElem hlt, List.drop_eq_getElem_cons hlt, List.take_succ_cons,
      List.map_cons]
    have hblock := h.hasBlock hlt
    exact hblock.fetch_traces.bind hblock.fetch_yields (ih hlt (by omega) (index + 1))

/-- **One block is found** by reading all blocks up to it. -/
theorem Chained.blockAt_traces {h : Header} (hc : k.Chained h l) {offset i : Nat}
    (hoff : offset / k.dataSize = i) (hi : i < l.length) :
    Traces (h.blockAt offset) k (Handle.lookup l i) := by
  refine Traces.dataSize.none_bind (Yields.dataSize k) ?_
  have hle : ¬h.blocks ≤ i := by
    rw [hc.blocks]
    omega
  have hpos : 0 < l.length := by omega
  have hlookup : Handle.lookup l i = .read l[0] :: ((l.drop 1).take i).map .read := by
    unfold Handle.lookup
    conv_lhs => rw [← List.drop_zero (l := l), List.drop_eq_getElem_cons hpos]
    rfl
  dsimp only
  rw [hoff, if_neg hle, hc.first, List.head?_eq_getElem?, List.getElem?_eq_getElem hpos, hlookup]
  have hblock := hc.linked.hasBlock hpos
  exact hblock.fetch_traces.bind hblock.fetch_yields
    (follow_traces hc.linked h.blocks i hpos (by omega) 0)

/-! ## Several blocks -/

theorem readBlocks_traces {f : Handle} (hk : 0 < k.dataSize) (hc : k.Chained f.header l)
    {count i : Nat} (hi : i + count ≤ l.length) :
    Traces (f.readBlocks k.dataSize count i) k
      ((List.range' i count).flatMap (Handle.lookup l)) := by
  induction count generalizing i with
  | zero => exact Traces.pure _
  | succ count ih =>
    have hlt : i < l.length := by omega
    have hoff : i * k.dataSize / k.dataSize = i := Nat.mul_div_cancel i hk
    have hrest : i + 1 + count ≤ l.length := by omega
    rw [List.range'_succ, List.flatMap_cons]
    refine (hc.blockAt_traces hoff hlt).bind (hc.blockAt_yields hoff hlt) ?_
    exact (ih hrest).bind_none (readBlocks_yields hk hc hrest) (Traces.pure _)

/-- Each block is found on the disk that the writes before it leave, where the chain is the same. -/
theorem writeBlocks_traces {f : Handle} (hk : 0 < k.dataSize) (hc : k.Chained f.header l)
    {count pos : Nat} (bytes : Bytes) (hcount : pos / k.dataSize + count ≤ l.length) :
    Traces (f.writeBlocks k.dataSize count bytes pos) k
      ((List.range' (pos / k.dataSize) count).flatMap (Handle.rewrite l)) := by
  induction count generalizing k bytes pos with
  | zero => exact Traces.pure _
  | succ count ih =>
    have hi : pos / k.dataSize < l.length := by omega
    have hoff : pos / k.dataSize * k.dataSize / k.dataSize = pos / k.dataSize :=
      Nat.mul_div_cancel _ hk
    obtain ⟨hblock, -, hlinked, -⟩ := hc.linked.writtenBlock hk bytes hi
    obtain ⟨hnext, -⟩ := next_block pos hk
    have hdata := length_writtenBlock hk bytes hi
    have hrest := ih (k := k.putBlock (k.writtenBlock l bytes pos hi)) hk
      ⟨hlinked, hc.first, hc.blocks⟩ (bytes.drop (k.dataSize - pos % k.dataSize))
      (show (pos + (k.dataSize - pos % k.dataSize)) / k.dataSize + count ≤ l.length by omega)
    rw [List.range'_succ, List.flatMap_cons, Handle.rewrite, List.getElem?_eq_getElem hi,
      List.append_assoc, ← hnext]
    refine (hc.blockAt_traces hoff hi).bind (hc.blockAt_yields hoff hi) ?_
    exact (store_traces _).bind (store_yields hk hblock.1 hdata) hrest

/-! ## A request -/

/-- The blocks of a request are in the chain, if that is long enough for the length of the file. -/
theorem lt_of_mem_blockNumbers (hk : 0 < k.dataSize) {length : Nat}
    (hlen : length ≤ l.length * k.dataSize) {count pos i : Nat}
    (hi : i ∈ Handle.blockNumbers (min count (length - pos)) pos k.dataSize) : i < l.length := by
  by_cases hn : 0 < min count (length - pos)
  · rw [Handle.blockNumbers_of_pos hn, List.mem_range'_1] at hi
    have hend := div_add_span_le hk hn
      (show pos + min count (length - pos) ≤ l.length * k.dataSize by omega)
    omega
  · simp [Handle.blockNumbers, Nat.eq_zero_of_not_pos hn] at hi

theorem readAt_traces {f : Handle} (hk : 0 < k.dataSize) (hc : k.Chained f.header l)
    (hlen : f.header.length ≤ l.length * k.dataSize) (count pos : Nat) :
    Traces (f.readAt count pos) k
      ((Handle.blockNumbers (min count (f.header.length - pos)) pos k.dataSize).flatMap
        (Handle.lookup l)) := by
  unfold Handle.readAt Handle.length
  cases hclamp : Handle.clamp? count pos f.header.length with
  | none =>
    have hzero : min count (f.header.length - pos) = 0 := by
      have := clamp?_eq_none hclamp
      omega
    rw [hzero]
    exact Traces.pure _
  | some n =>
    obtain ⟨hn, hroom, hmin⟩ := clamp?_eq_some hclamp
    have hspan := div_add_span_le hk hn (Nat.le_trans hroom hlen)
    rw [← hmin, Handle.blockNumbers_of_pos hn]
    refine (Traces.note _).none_bind (Yields.note _ k) ?_
    refine Traces.dataSize.none_bind (Yields.dataSize k) ?_
    exact (readBlocks_traces hk hc hspan).bind_none (readBlocks_yields hk hc hspan) (Traces.pure _)

theorem readInto_traces {f : Handle} (hk : 0 < k.dataSize) (hc : k.Chained f.header l)
    (hlen : f.header.length ≤ l.length * k.dataSize) (buffer : Bytes) (pos : Nat) :
    Traces (f.readInto buffer pos) k
      ((Handle.blockNumbers (min buffer.length (f.header.length - pos)) pos k.dataSize).flatMap
        (Handle.lookup l)) := by
  rw [Handle.readInto_eq]
  exact (readAt_traces hk hc hlen buffer.length pos).bind_none
    (readAt_yields hk hc hlen buffer.length pos) (Traces.pure _)

theorem writeAt_traces {f : Handle} (hk : 0 < k.dataSize) (hc : k.Chained f.header l)
    (hlen : f.header.length ≤ l.length * k.dataSize) (bytes : Bytes) (pos : Nat) :
    Traces (f.writeAt bytes pos) k
      ((Handle.blockNumbers (min bytes.length (f.header.length - pos)) pos k.dataSize).flatMap
        (Handle.rewrite l)) := by
  unfold Handle.writeAt Handle.length
  cases hclamp : Handle.clamp? bytes.length pos f.header.length with
  | none =>
    have hzero : min bytes.length (f.header.length - pos) = 0 := by
      have := clamp?_eq_none hclamp
      omega
    rw [hzero]
    exact Traces.pure _
  | some n =>
    obtain ⟨hn, hroom, hmin⟩ := clamp?_eq_some hclamp
    have hspan := div_add_span_le hk hn (Nat.le_trans hroom hlen)
    have htaken : pos % k.dataSize + (bytes.take n).length ≤
        Handle.span n pos k.dataSize * k.dataSize := by
      rw [List.length_take, Nat.min_eq_left (by omega)]
      exact mod_add_le_span n pos hk
    obtain ⟨k', hy, -⟩ := writeBlocks_yields hk hc hspan htaken
    rw [← hmin, Handle.blockNumbers_of_pos hn]
    refine (Traces.note _).none_bind (Yields.note _ k) ?_
    refine Traces.dataSize.none_bind (Yields.dataSize k) ?_
    exact (writeBlocks_traces hk hc (bytes.take n) hspan).bind_none hy (Traces.pure _)

end Disk

namespace Handle

variable {d d₀ : Drive} {f : Handle} {c : List Nat}

/-- **The accesses of a request are its lookups.** On every device without faults whose sectors have
room for data, for every handle whose chain can be walked and is long enough for the length of the
file, let `n` be the length of the request, cut at the end of the file. The blocks that these bytes
fall into are in the chain, and:
* a read asks for one lookup of each of them, in ascending order, and for nothing else;
* a write asks for one lookup of each of them, in ascending order, followed by one write of that
  block, and for nothing else.

So where `n` is 0 nothing is asked for. -/
theorem accesses_exact (hd : d.FaultFree) (hsize : Layout.linkSize < d.device.sectorSize)
    (hchain : f.header.chain d = .ok c d₀)
    (hlen : f.header.length ≤ c.length * Layout.dataSize d.device.sectorSize) (buffer : Bytes)
    (pos : Nat) :
    let n := min buffer.length (f.header.length - pos)
    let blocks := blockNumbers n pos (Layout.dataSize d.device.sectorSize)
    (∀ i ∈ blocks, i < c.length) ∧
    (∃ new d₁, f.readInto buffer pos d = .ok (n, new) d₁ ∧
      d₁.accesses.toList = d.accesses.toList ++ blocks.flatMap (lookup c)) ∧
    ∃ d₁, f.writeAt buffer pos d = .ok n d₁ ∧
      d₁.accesses.toList = d.accesses.toList ++ blocks.flatMap (rewrite c) := by
  intro n blocks
  have hdata : 0 < d.disk.dataSize := Nat.sub_pos_of_lt hsize
  have hc : d.disk.Chained f.header c := hd.chained hchain
  refine ⟨fun i hi => Disk.lt_of_mem_blockNumbers hdata hlen hi, ?_, ?_⟩
  · obtain ⟨d₁, hrun, -⟩ := Disk.readInto_yields hdata hc hlen buffer pos d hd rfl
    have haccesses := Disk.readInto_traces hdata hc hlen buffer pos d hd rfl
    rw [hrun] at haccesses
    exact ⟨_, d₁, hrun, haccesses⟩
  · obtain ⟨k', hy, -⟩ := Disk.writeAt_blocks hdata hc hlen buffer pos
    obtain ⟨d₁, hrun, -⟩ := hy d hd rfl
    have haccesses := Disk.writeAt_traces hdata hc hlen buffer pos d hd rfl
    have hlength : (buffer.take (f.header.length - pos)).length = n := by
      rw [List.length_take]
      omega
    rw [hlength] at hrun
    rw [hrun] at haccesses
    exact ⟨d₁, hrun, haccesses⟩

/-- A request for five bytes across both blocks of a file. -/
theorem accesses_exact_across : ∃ (d d₀ d₁ d₂ : Drive) (f : Handle) (new : Bytes), d.FaultFree ∧
    f.header.chain d = .ok [3, 1] d₀ ∧
    f.readInto [1, 2, 3, 4, 5, 6] 7 d = .ok (5, new) d₁ ∧
    d₁.accesses.toList = [.read 3, .read 3, .read 1] ∧
    f.writeAt [1, 2, 3, 4, 5, 6] 7 d = .ok 5 d₂ ∧
    d₂.accesses.toList = [.read 3, .write 3, .read 3, .read 1, .write 1] := by
  have hd : (twelveOn fun _ _ => false).FaultFree := ⟨reliable_twelveOn _, rfl⟩
  obtain ⟨d₀, hchain⟩ := chain_twelveOn
  obtain ⟨-, ⟨new, d₁, hread, hreads⟩, d₂, hwrite, hwrites⟩ :=
    accesses_exact hd (by decide) hchain (by decide) [1, 2, 3, 4, 5, 6] 7
  exact ⟨_, d₀, d₁, d₂, twelve, new, hd, hchain, hread, hreads.trans (by decide), hwrite,
    hwrites.trans (by decide)⟩

end Handle

end SectorChain
