import SectorChain.Proofs.Checked
import SectorChain.Proofs.DamagedChains
import SectorChain.Proofs.Interruptions

/-!
# Access to files is total

On a damaged volume a header can say anything: more bytes than its blocks hold, more blocks than the
device has sectors, a first sector that is none. Nor need a position lie in the file. The numbers
that are made of all these stay words, and no range of bytes leaves the bytes that it is taken from.

Results:
* `fetch_realizes`, `store_realizes`: one block.
* `blockAt_realizes`, `describe_realizes`: along a chain.
* `readInto_realizes`, `writeAt_realizes`: several blocks.
* `never_stuck`: all of them, on every device that keeps what is written.
-/

namespace SectorChain

open Checked

variable {size : Nat}

/-- What is read of a sector is all of it. -/
theorem Device.length_of_read {d : Device} (hd : d.Reliable) {s : Nat} {bytes : Bytes}
    (h : d.read s d.sectorSize = .ok bytes) : bytes.length = d.sectorSize := by
  by_cases hs : s < d.sectors
  · obtain ⟨found, hread, hlen⟩ := exists_read hd hs
    rw [hread] at h
    cases h
    exact hlen
  · have hrefused : d.read s d.sectorSize = .error (.outOfRange s d.sectors) :=
      read_refused hd (if_neg hs)
    rw [hrefused] at h
    cases h

namespace Realizes

/-! ## Accesses -/

theorem note (n : Note) : Realizes size (Drive.note n) (liftM (Drive.note n)) fun _ => True :=
  lift fun d hd hsize => ⟨.ok (), { d with notes := d.notes.push n }, rfl, hd, hsize,
    fun _ _ => trivial, by rintro e ⟨⟩⟩

theorem corrupt {α : Type} (cause : Corruption) {P : α → Prop} :
    Realizes size (Drive.corrupt cause) (Checked.corrupt cause) P :=
  lift fun d hd hsize => ⟨.error _, d, rfl, hd, hsize, by rintro a ⟨⟩, by rintro e ⟨⟩; rfl⟩

theorem dataSize (h : Layout.linkSize ≤ size) :
    Realizes size Drive.dataSize Checked.dataSize (· = size - Layout.linkSize) := by
  refine .sized ?_
  rw [sub_eq h]
  rintro d hd rfl
  exact ⟨.ok _, d, rfl, rfl, hd, rfl, by rintro a ⟨⟩; rfl, by rintro e ⟨⟩⟩

/-- A sector that can be read is read whole. -/
theorem readSector (s : Nat) :
    Realizes size (Drive.readSector s) (liftM (Drive.readSector s)) (·.length = size) := by
  refine lift fun d hd hsize => ?_
  cases hfails : d.faults d.tally (.read s) with
  | true =>
    exact ⟨.error _, _, Drive.readSector_fails hfails, hd, hsize, by rintro a ⟨⟩,
      by rintro e ⟨⟩; rfl⟩
  | false =>
    have hrun := Drive.readSector_passes hfails
    cases hread : d.device.read s d.device.sectorSize with
    | ok bytes =>
      rw [hread] at hrun
      refine ⟨.ok bytes, _, hrun, hd, hsize, ?_, by rintro e ⟨⟩⟩
      rintro a ⟨⟩
      exact (Device.length_of_read hd hread).trans hsize
    | error e =>
      rw [hread] at hrun
      exact ⟨.error (.io e), _, hrun, hd, hsize, by rintro a ⟨⟩, by rintro e' ⟨⟩; rfl⟩

theorem writeSector (s : Nat) {bytes : Bytes} (h : bytes.length = size) :
    Realizes size (Drive.writeSector s bytes) (liftM (Drive.writeSector s bytes))
      fun _ => True := by
  refine lift fun d hd hsize => ?_
  cases hfails : d.faults d.tally (.write s) with
  | true =>
    exact ⟨.error _, d.asked (.write s), Drive.writeSector_fails hfails, hd, hsize,
      by rintro a ⟨⟩, by rintro e ⟨⟩; rfl⟩
  | false =>
    cases hcheck : d.device.checkWrite s bytes with
    | ok _ =>
      exact ⟨.ok (), _, Drive.writeSector_passes hfails hcheck,
        Device.reliable_put hd (h.trans hsize.symm), (d.device.sectorSize_put s bytes).trans hsize,
        fun _ _ => trivial, by rintro e ⟨⟩⟩
    | error e =>
      exact ⟨.error (.io e), _, Drive.writeSector_refused hfails hcheck, hd, hsize, by rintro a ⟨⟩,
        by rintro e' ⟨⟩; rfl⟩

end Realizes

/-! ## One block -/

/-- Four bytes are a link. -/
theorem Link.exists_encode {bytes : Bytes} (h : bytes.length = 4) :
    ∃ l : Link, bytes = l.encode := by
  match bytes, h with
  | [a, b, c, d], _ => exact ⟨⟨_⟩, (Bytes.ofWord_of_bytes a b c d).symm⟩

/-- Every sector with room for links begins with two. -/
theorem Block.exists_links {bytes : Bytes} (h : Layout.linkSize ≤ bytes.length) :
    ∃ own next : Link, bytes.take Layout.linkSize = own.encode ++ next.encode := by
  have hlen : 4 + 4 ≤ bytes.length := h
  have hfirst : (bytes.take 4).length = 4 := by
    rw [List.length_take]
    omega
  have hsecond : ((bytes.drop 4).take 4).length = 4 := by
    rw [List.length_take, List.length_drop]
    omega
  obtain ⟨own, hown⟩ := Link.exists_encode hfirst
  obtain ⟨next, hnext⟩ := Link.exists_encode hsecond
  refine ⟨own, next, ?_⟩
  rw [← hown, ← hnext, ← List.take_add]
  rfl

/-- Whatever a sector holds, its links are read, and then its data. -/
theorem fetch_realizes (hsize : Layout.linkSize < size) (s : Nat) :
    Realizes size (Block.fetch s) (Checked.fetch s)
      (·.data.length = size - Layout.linkSize) := by
  refine (Realizes.readSector s).bind fun bytes hbytes => ?_
  have hroom : Layout.linkSize ≤ bytes.length := by omega
  obtain ⟨own, next, hlinks⟩ := Block.exists_links hroom
  have hwhole : Block.decode bytes = .ok (own, next, bytes.drop Layout.linkSize) := by
    have hdecode := Block.decode_append own next (bytes.drop Layout.linkSize)
    rwa [← hlinks, List.take_append_drop] at hdecode
  have hfront : Block.decode (bytes.take Layout.linkSize) = .ok (own, next, []) := by
    have hdecode := Block.decode_append own next []
    rwa [← hlinks, List.append_nil] at hdecode
  refine .checked (slice_front hroom) ?_
  rw [hwhole, hfront]
  show Realizes size (if own.target = some s then _ else _) (if own.target = some s then _ else _) _
  by_cases hown : own.target = some s
  · rw [if_pos hown, if_pos hown]
    refine .checked (slice_rest hroom) (.pure ?_)
    rw [List.length_drop, hbytes]
  · rw [if_neg hown, if_neg hown]
    exact .corrupt _

/-- A block whose data fills its sector is written. -/
theorem store_realizes (hsize : Layout.linkSize < size) {b : Block}
    (hb : b.data.length = size - Layout.linkSize) :
    Realizes size b.store (Checked.store b) fun _ => True := by
  have hlen : b.encode.length = size := by
    rw [Block.length_encode, hb]
    omega
  refine .sized (.checked (sub_eq (Nat.le_of_lt hsize)) (.checked (require_eq hb) ?_))
  rw [Bytes.fit_of_length hlen]
  exact (Realizes.note _).bind fun _ _ => Realizes.writeSector b.sector hlen

/-! ## Along a chain -/

theorem walk_realizes (hsize : Layout.linkSize < size) (blocks left : Nat) (current : Option Nat) :
    Realizes size (Header.walk blocks left current) (Checked.walk blocks left current)
      fun _ => True := by
  induction left generalizing current with
  | zero =>
    cases current with
    | none => exact .pure trivial
    | some s => exact .corrupt _
  | succ left ih =>
    cases current with
    | none => exact .corrupt _
    | some s =>
      refine (fetch_realizes hsize s).bind fun b _ => ?_
      exact (ih b.next).bind fun _ _ => .pure trivial

theorem follow_realizes (hsize : Layout.linkSize < size) (blocks hops : Nat) {index : Nat}
    (hindex : index + hops < limit) {b : Block} (hb : b.data.length = size - Layout.linkSize) :
    Realizes size (Header.follow blocks hops index b) (Checked.follow blocks hops index b)
      (·.data.length = size - Layout.linkSize) := by
  induction hops generalizing index b with
  | zero => exact .pure hb
  | succ hops ih =>
    obtain ⟨sector, next, data⟩ := b
    cases next with
    | none => exact .checked (add_eq (by omega)) (.corrupt _)
    | some s => exact (fetch_realizes hsize s).bind fun b' hb' => ih (by omega) hb'

/-- **A byte of a file is looked up**, wherever it is said to be: before the chain is followed, the
number of its block is known to be less than that of the blocks. -/
theorem blockAt_realizes (hsize : Layout.linkSize < size) (h : Header) (offset : Nat) :
    Realizes size (h.blockAt offset) (Checked.blockAt h offset)
      (·.data.length = size - Layout.linkSize) := by
  refine (Realizes.dataSize (Nat.le_of_lt hsize)).bind fun data hdata => ?_
  refine .checked (div_eq (by omega)) ?_
  have hblocks : h.blocks < limit := Nat.lt_trans h.blocks_lt (by decide)
  dsimp only
  by_cases hpast : h.blocks ≤ offset / data
  · rw [if_pos hpast, if_pos hpast]
    exact .corrupt _
  · rw [if_neg hpast, if_neg hpast]
    cases h.first.target with
    | none => exact .corrupt _
    | some s =>
      exact (fetch_realizes hsize s).bind fun b hb => follow_realizes hsize _ _ (by omega) hb

theorem contentLines_realizes (hsize : Layout.linkSize < size) (left : Nat) (chain : List Nat) :
    Realizes size (Header.contentLines left chain) (Checked.contentLines left chain)
      fun _ => True := by
  induction chain generalizing left with
  | nil => exact .pure trivial
  | cons s chain ih =>
    refine (fetch_realizes hsize s).bind fun b _ => ?_
    have hleft : left - min left b.data.length = left - b.data.length := by omega
    refine .checked (slice_front (Nat.min_le_right _ _)) ?_
    refine .checked (sub_eq (Nat.min_le_left _ _)) ?_
    rw [hleft, ← List.take_eq_take_min]
    exact (ih _).bind fun _ _ => .pure trivial

/-- **A report on a file** ends, whatever its chain is. -/
theorem describe_realizes (hsize : Layout.linkSize < size) (h : Header) :
    Realizes size h.describe (Checked.describe h) fun _ => True :=
  (walk_realizes hsize _ _ _).bind fun chain _ =>
    (contentLines_realizes hsize h.length chain).bind fun _ _ => .pure trivial

/-! ## Several blocks -/

/-- The blocks that `n` bytes from `pos` on fall into go from number `first` to number `last`, and
end with a word. -/
structure Extent (n pos data first last : Nat) : Prop where
  first_eq : pos / data = first
  last_eq : (pos + n - 1) / data = last
  le : first ≤ last
  span_eq : Handle.span n pos data = last - first + 1
  start_eq : first * data + pos % data = pos
  room : pos % data + n ≤ (last - first + 1) * data
  stop_lt : (last + 1) * data < pos + n + data
  word : pos + n + data < limit

namespace Extent

variable {n pos data first last : Nat}

/-- The length of a file leaves enough room above it for one more block. -/
theorem exists_of_lt (hn : 0 < n) (hend : pos + n < 0x80000000) (hdata : 0 < data)
    (hmax : data ≤ 0x100000000) : ∃ first last, Extent n pos data first last := by
  have hle : pos / data ≤ (pos + n - 1) / data := Nat.div_le_div_right (by omega)
  have hlast : (pos + n - 1) / data * data ≤ pos + n - 1 := Nat.div_mul_le_self _ _
  refine ⟨pos / data, (pos + n - 1) / data, rfl, rfl, hle, rfl, Nat.div_add_mod' pos data,
    Disk.mod_add_le_span n pos hdata, ?_, ?_⟩
  · rw [Nat.succ_mul]
    omega
  · unfold limit
    omega

/-- As many blocks as a loop from the first to the last one visits. -/
theorem count_eq (h : Extent n pos data first last) : last + 1 - first = last - first + 1 :=
  Nat.sub_add_comm h.le

theorem end_eq (h : Extent n pos data first last) : first + (last - first + 1) = last + 1 := by
  rw [← Nat.add_assoc, Nat.add_sub_cancel' h.le]

theorem stop_word (h : Extent n pos data first last) : (last + 1) * data < limit :=
  Nat.lt_trans h.stop_lt h.word

/-- The buffer for the blocks has a size. -/
theorem buffer_word (h : Extent n pos data first last) : (last - first + 1) * data < limit :=
  Nat.lt_of_le_of_lt (Nat.mul_le_mul_right data (Nat.succ_le_succ (Nat.sub_le _ _))) h.stop_word

theorem count_word (h : Extent n pos data first last) (hdata : 0 < data) :
    last - first + 1 < limit :=
  Nat.lt_of_le_of_lt (Nat.le_mul_of_pos_right _ hdata) h.buffer_word

end Extent

/-- The next part of a buffer is filled. -/
theorem Bytes.splice_zeros (front new : Bytes) (n : Nat) :
    splice (front ++ zeros (new.length + n)) front.length new = front ++ new ++ zeros n := by
  unfold splice zeros
  rw [List.take_left, List.drop_append, List.drop_eq_nil_of_le (Nat.le_add_right _ _),
    List.drop_replicate, List.nil_append, Nat.add_sub_cancel_left, Nat.add_sub_cancel_left]

/-- The buffer fills up from its front. Up to block number `i` it has what was read, and zeros from
there on. -/
theorem readBlocks_realizes (hsize : Layout.linkSize < size) {f : Handle} {data first : Nat}
    (hdata : data = size - Layout.linkSize) {count i : Nat} (hi : first ≤ i)
    (hend : (i + count) * data < limit) {front : Bytes}
    (hfront : front.length = (i - first) * data) :
    Realizes size (do return front ++ (← f.readBlocks data count i))
      (Checked.readBlocks f.header data first count i (front ++ Bytes.zeros (count * data)))
      (·.length = front.length + count * data) := by
  induction count generalizing i front with
  | zero =>
    rw [Nat.zero_mul]
    exact .pure (by rw [List.append_nil]; rfl)
  | succ count ih =>
    have hstep : (do return front ++ (← f.readBlocks data (count + 1) i) : DriveM Bytes) = (do
        let block ← f.header.blockAt (i * data)
        return front ++ block.data ++ (← f.readBlocks data count (i + 1))) := by
      simp only [Handle.readBlocks, bind_assoc, pure_bind, List.append_assoc]
    have hsum : i + (count + 1) = i + 1 + count := by omega
    have hthis : (i - first + 1) * data ≤ (i + (count + 1)) * data :=
      Nat.mul_le_mul_right data (by omega)
    have hplace : i * data ≤ (i + (count + 1)) * data := Nat.mul_le_mul_right data (by omega)
    have hnext : (i - first + 1) * data = (i - first) * data + data := Nat.succ_mul _ _
    have hcount : (count + 1) * data = data + count * data := by
      rw [Nat.succ_mul, Nat.add_comm]
    have hdone : i + 1 - first = i - first + 1 := by omega
    have hword : i - first + 1 ≤ (i - first + 1) * data := Nat.le_mul_of_pos_right _ (by omega)
    rw [hstep]
    refine .checked (sub_eq hi) (.checked (mul_eq (by omega)) ?_)
    refine .checked (sub_eq hi) (.checked (add_eq (by omega)) (.checked (mul_eq (by omega)) ?_))
    refine .checked (slice_eq (by omega) ?_) (.checked (mul_eq (by omega)) ?_)
    · rw [List.length_append, Bytes.length_zeros]
      omega
    refine (blockAt_realizes hsize f.header (i * data)).bind fun block hblock => ?_
    refine .checked (sameLength_eq ?_) ?_
    · rw [List.length_drop, List.length_take, List.length_append, Bytes.length_zeros]
      omega
    have hfilled := Bytes.splice_zeros front block.data (count * data)
    rw [hblock, ← hdata, ← hcount, hfront] at hfilled
    rw [hfilled]
    have hlength : (front ++ block.data).length = (i + 1 - first) * data := by
      rw [List.length_append, hdone, hnext]
      omega
    refine (ih (by omega) (hsum ▸ hend) hlength).mono fun bytes hbytes => ?_
    rw [hbytes, List.length_append]
    omega

theorem Extent.readBlocks_realizes {n pos data first last : Nat} (h : Extent n pos data first last)
    (hsize : Layout.linkSize < size) (hdata : data = size - Layout.linkSize) (f : Handle) :
    Realizes size (f.readBlocks data (last - first + 1) first)
      (Checked.readBlocks f.header data first (last - first + 1) first
        (Bytes.zeros ((last - first + 1) * data)))
      (·.length = (last - first + 1) * data) := by
  have hwords : (first + (last - first + 1)) * data < limit := h.end_eq ▸ h.stop_word
  have hnone : ([] : Bytes).length = (first - first) * data := by
    rw [Nat.sub_self, Nat.zero_mul]
    rfl
  have hall := SectorChain.readBlocks_realizes (f := f) hsize hdata (Nat.le_refl first) hwords hnone
  simpa using hall

/-- What a request reads is a part of the data of its blocks. -/
theorem readInto_some {f : Handle} {into : Bytes} {pos n : Nat}
    (hclamp : Handle.clamp? into.length pos f.length = some n) : f.readInto into pos = (do
      Drive.note (.reading n pos f.length)
      let data ← Drive.dataSize
      let bytes ← f.readBlocks data (Handle.span n pos data) (pos / data)
      let found := (bytes.drop (pos % data)).take n
      return (found.length, Bytes.splice into 0 found)) := by
  simp only [Handle.readInto_eq, Handle.readAt, hclamp, bind_assoc, pure_bind]

theorem readInto_none {f : Handle} {into : Bytes} {pos : Nat}
    (hclamp : Handle.clamp? into.length pos f.length = none) :
    f.readInto into pos = pure (0, into) := by
  simp only [Handle.readInto_eq, Handle.readAt, hclamp, pure_bind, Bytes.splice_nil,
    List.length_nil]

/-- **A read is total**: it is cut at the end of the file before its blocks are counted. -/
theorem readInto_realizes (hsize : Layout.linkSize < size) (hmax : size ≤ 0x100000000) (f : Handle)
    (into : Bytes) (pos : Nat) :
    Realizes size (f.readInto into pos) (Checked.readInto f into pos)
      fun p => p.1 ≤ into.length ∧ p.1 ≤ f.length - pos := by
  refine .checked (clamp?_eq _ _ _) ?_
  cases hclamp : Handle.clamp? into.length pos f.length with
  | none =>
    rw [readInto_none hclamp]
    exact .pure ⟨Nat.zero_le _, Nat.zero_le _⟩
  | some n =>
    obtain ⟨hn, hroom, hmin⟩ := Disk.clamp?_eq_some hclamp
    have hlength : f.length < 0x80000000 := f.header.length_lt
    rw [readInto_some hclamp]
    refine (Realizes.note _).bind fun _ _ => ?_
    refine (Realizes.dataSize (Nat.le_of_lt hsize)).bind fun data hdata => ?_
    have hpos : 0 < data := by omega
    obtain ⟨first, last, hext⟩ := Extent.exists_of_lt hn
      (show pos + n < 0x80000000 by omega) hpos (show data ≤ 0x100000000 by omega)
    have hstart := hext.start_eq
    have hfits := hext.room
    have hword := hext.word
    -- The numbers of the first and of the last block, and the size of the buffer.
    refine .checked (div_eq hpos) (.checked (add_eq (by omega)) (.checked (sub_eq (by omega)) ?_))
    refine .checked (div_eq hpos) ?_
    rw [hext.first_eq, hext.last_eq, hext.span_eq, hext.count_eq]
    refine .checked (sub_eq hext.le) (.checked (add_eq (hext.count_word hpos)) ?_)
    refine .checked (mul_eq hext.buffer_word) ?_
    refine (hext.readBlocks_realizes hsize hdata f).bind fun bytes hbytes => ?_
    -- What was asked for lies in the buffer, behind what its first block has before it.
    have hoff : pos - first * data = pos % data := by omega
    have hfound : (bytes.take (pos - first * data + n)).drop (pos - first * data) =
        (bytes.drop (pos % data)).take n := by
      rw [hoff, List.drop_take, Nat.add_sub_cancel_left]
    have hlen : ((bytes.drop (pos % data)).take n).length = n := by
      rw [List.length_take, List.length_drop]
      omega
    refine .checked (mul_eq (by omega)) (.checked (sub_eq (by omega)) ?_)
    refine .checked (slice_front (by omega)) (.checked (add_eq (by omega)) ?_)
    refine .checked (slice_eq (by omega) (by omega)) ?_
    rw [hfound]
    refine .checked (sameLength_eq ?_) ?_
    · rw [hlen, List.length_take]
      omega
    · dsimp only
      rw [hlen]
      exact .pure (by omega)

/-- The string is written block by block. What is left of it begins at `p`, which lies in block
number `i` or at its start. -/
theorem writeBlocks_realizes (hsize : Layout.linkSize < size) {f : Handle} {data : Nat}
    (hdata : data = size - Layout.linkSize) {bytes : Bytes} {pos n : Nat} (hn : n ≤ bytes.length)
    (hword : pos + n + data < limit) {count i p : Nat} (hp : p = max pos (i * data))
    (hi : pos < (i + 1) * data) (hstop : (i + count) * data < pos + n + data) :
    Realizes size (f.writeBlocks data count ((bytes.take n).drop (p - pos)) p)
      (Checked.writeBlocks f.header data bytes pos (pos + n) count i) fun _ => True := by
  induction count generalizing i p with
  | zero => exact .pure trivial
  | succ count ih =>
    have hnext : (i + 1) * data = i * data + data := Nat.succ_mul i data
    have hlast : (i + (count + 1)) * data = i * data + count * data + data := by
      rw [← Nat.add_assoc, Nat.succ_mul, Nat.add_mul]
    have hpos : 0 < data := by omega
    have hblock : p / data = i := by
      rw [Nat.div_eq_iff hpos]
      omega
    have hoff : p % data = p - i * data := by
      have hdiv := Nat.div_add_mod' p data
      rw [hblock] at hdiv
      omega
    have hplace : ∃ stop, min (pos + n) (i * data + data) = stop := ⟨_, rfl⟩
    obtain ⟨stop, hstop'⟩ := hplace
    -- As much of the string as this block has room for.
    have hpiece : (bytes.take (stop - pos)).drop (p - pos) =
        ((bytes.take n).drop (p - pos)).take (data - p % data) := by
      rw [List.take_drop, List.take_take]
      congr 2
      omega
    have hlength : ((bytes.take (stop - pos)).drop (p - pos)).length = stop - p := by
      rw [List.length_drop, List.length_take]
      omega
    rw [Handle.writeBlocks, hblock]
    refine .checked (mul_eq (by omega)) (.checked (add_eq (by omega)) ?_)
    refine (blockAt_realizes hsize f.header (i * data)).bind fun block hdata' => ?_
    dsimp only
    rw [← hp, hstop']
    obtain ⟨hle, hstart, hlt, hend, hin⟩ : pos ≤ p ∧ i * data ≤ p ∧ p ≤ stop ∧ stop ≤ pos + n ∧
        stop ≤ i * data + data := by omega
    clear hp hstop'
    refine .checked (sub_eq (by omega)) (.checked (sub_eq (by omega)) ?_)
    refine .checked (slice_eq (by omega) (by omega)) ?_
    refine .checked (sub_eq (by omega)) (.checked (sub_eq (by omega)) ?_)
    refine .checked (slice_eq (by omega) (by omega)) (.checked (sameLength_eq ?_) ?_)
    · rw [hlength, List.length_drop, List.length_take]
      omega
    rw [← hpiece, ← hoff]
    refine (store_realizes hsize ?_).bind fun _ _ => ?_
    · show (Bytes.splice _ _ _).length = _
      rw [Bytes.length_splice (by omega), hdata']
    · have hrest : ((bytes.take n).drop (p - pos)).drop (data - p % data) =
          (bytes.take n).drop (p + (data - p % data) - pos) := by
        rw [List.drop_drop]
        congr 1
        omega
      rw [hrest]
      have hsum : i + 1 + count = i + (count + 1) := by omega
      have hlater : (i + 1) * data ≤ (i + 1 + 1) * data := Nat.mul_le_mul_right data (Nat.le_succ _)
      exact ih (by omega) (Nat.lt_of_lt_of_le hi hlater) (hsum ▸ hstop)

theorem Extent.writeBlocks_realizes {n pos data first last : Nat} (h : Extent n pos data first last)
    (hsize : Layout.linkSize < size) (hdata : data = size - Layout.linkSize) (f : Handle)
    {bytes : Bytes} (hn : n ≤ bytes.length) :
    Realizes size (f.writeBlocks data (last - first + 1) (bytes.take n) pos)
      (Checked.writeBlocks f.header data bytes pos (pos + n) (last - first + 1) first)
      fun _ => True := by
  have hmod := Nat.mod_lt pos (show 0 < data by omega)
  have hstart := h.start_eq
  have hnext : (first + 1) * data = first * data + data := Nat.succ_mul first data
  have hall := SectorChain.writeBlocks_realizes (f := f) hsize hdata hn h.word
    (show pos = max pos (first * data) by omega) (by omega) (h.end_eq.symm ▸ h.stop_lt)
  rwa [Nat.sub_self, List.drop_zero] at hall

/-- **A write is total**, as a read is. -/
theorem writeAt_realizes (hsize : Layout.linkSize < size) (hmax : size ≤ 0x100000000) (f : Handle)
    (bytes : Bytes) (pos : Nat) :
    Realizes size (f.writeAt bytes pos) (Checked.writeAt f bytes pos)
      fun n => n ≤ bytes.length ∧ n ≤ f.length - pos := by
  refine .checked (clamp?_eq _ _ _) ?_
  unfold Handle.writeAt
  cases hclamp : Handle.clamp? bytes.length pos f.length with
  | none => exact .pure ⟨Nat.zero_le _, Nat.zero_le _⟩
  | some n =>
    obtain ⟨hn, hroom, hmin⟩ := Disk.clamp?_eq_some hclamp
    have hlength : f.length < 0x80000000 := f.header.length_lt
    refine (Realizes.note _).bind fun _ _ => ?_
    refine (Realizes.dataSize (Nat.le_of_lt hsize)).bind fun data hdata => ?_
    have hpos : 0 < data := by omega
    obtain ⟨first, last, hext⟩ := Extent.exists_of_lt hn
      (show pos + n < 0x80000000 by omega) hpos (show data ≤ 0x100000000 by omega)
    have hword := hext.word
    refine .checked (add_eq (by omega)) (.checked (div_eq hpos) (.checked (sub_eq (by omega)) ?_))
    refine .checked (div_eq hpos) ?_
    rw [hext.first_eq, hext.last_eq, hext.span_eq, hext.count_eq]
    refine (hext.writeBlocks_realizes hsize hdata f ?_).bind fun _ _ => .pure ?_
    · omega
    · omega

namespace Handle

variable {d : Drive}

/-- **Access to files is total and in bounds.** On every device that keeps what is written, whatever
its sectors hold, with sectors that have room for data and no more than `2 ^ 32` bytes, for every
header, whatever it says, every position and every buffer:
* reading, writing, looking up a byte and reporting end as they do with every step checked. So no
  number is too large for a word or negative, nothing is divided by 0, no range leaves the bytes
  that it is taken from, and no copy goes to a place of another length;
* what is read or written is no more than the buffer has, and no more than there is from the
  position to the end of the file;
* an error is one of the device, of a record or of the chain. -/
theorem never_stuck (hd : d.device.Reliable) (hmin : Layout.linkSize < d.device.sectorSize)
    (hmax : d.device.sectorSize ≤ 0x100000000) (f : Handle) (buffer : Bytes) (pos : Nat) :
    (∃ r d₁, f.readInto buffer pos d = ended r d₁ ∧
      (Checked.readInto f buffer pos).run d = ended (r.map some) d₁ ∧
      (∀ n new, r = .ok (n, new) → n ≤ buffer.length ∧ n ≤ f.length - pos) ∧
      ∀ e, r = .error e → e.isDamage = true) ∧
    (∃ r d₁, f.writeAt buffer pos d = ended r d₁ ∧
      (Checked.writeAt f buffer pos).run d = ended (r.map some) d₁ ∧
      (∀ n, r = .ok n → n ≤ buffer.length ∧ n ≤ f.length - pos) ∧
      ∀ e, r = .error e → e.isDamage = true) ∧
    (∃ r d₁, f.header.blockAt pos d = ended r d₁ ∧
      (Checked.blockAt f.header pos).run d = ended (r.map some) d₁ ∧
      ∀ e, r = .error e → e.isDamage = true) ∧
    ∃ r d₁, f.header.describe d = ended r d₁ ∧
      (Checked.describe f.header).run d = ended (r.map some) d₁ ∧
      ∀ e, r = .error e → e.isDamage = true := by
  refine ⟨?_, ?_, ?_, ?_⟩
  · obtain ⟨r, d₁, hrun, hchecked, -, -, hr, he⟩ :=
      readInto_realizes hmin hmax f buffer pos d hd rfl
    exact ⟨r, d₁, hrun, hchecked, fun n new h => hr (n, new) h, he⟩
  · obtain ⟨r, d₁, hrun, hchecked, -, -, hr, he⟩ := writeAt_realizes hmin hmax f buffer pos d hd rfl
    exact ⟨r, d₁, hrun, hchecked, hr, he⟩
  · obtain ⟨r, d₁, hrun, hchecked, -, -, -, he⟩ := blockAt_realizes hmin f.header pos d hd rfl
    exact ⟨r, d₁, hrun, hchecked, he⟩
  · obtain ⟨r, d₁, hrun, hchecked, -, -, -, he⟩ := describe_realizes hmin f.header d hd rfl
    exact ⟨r, d₁, hrun, hchecked, he⟩

/-- A header with as many bytes as there can be, and one block for them: the last bytes are looked
for, and no block is found. -/
theorem never_stuck_damaged : ∃ (d d₁ : Drive) (f : Handle), d.device.Reliable ∧
    f.length = 0x7FFFFFFF ∧
    f.readInto [0, 0, 0] 0x7FFFFFFB d = .error (.corrupt (.pastChain 0x7FFFFFF8 1)) d₁ ∧
    (Checked.readInto f [0, 0, 0] 0x7FFFFFFB).run d =
      .error (.corrupt (.pastChain 0x7FFFFFF8 1)) d₁ := by
  have hd : (Device.blank 4 16).Reliable := (Drive.faultFree_blank 4 16).reliable
  have hcase : ∃ (d : Drive) (f : Handle) (d₁ : Drive), d.device = .blank 4 16 ∧
      f.length = 0x7FFFFFFF ∧
      f.readInto [0, 0, 0] 0x7FFFFFFB d = .error (.corrupt (.pastChain 0x7FFFFFF8 1)) d₁ :=
    ⟨{ device := .blank 4 16 }, ⟨⟨0x7FFFFFFF, 1, .ofSector 7, by decide, by decide⟩, 0, 0⟩, _, rfl,
      rfl, rfl⟩
  obtain ⟨d, f, d₁, hdevice, hlength, hread⟩ := hcase
  obtain ⟨⟨r, d₂, hrun, hchecked, -⟩, -⟩ := never_stuck (d := d) (hdevice ▸ hd)
    (hdevice ▸ by decide) (hdevice ▸ by decide) f [0, 0, 0] 0x7FFFFFFB
  cases r with
  | ok p => cases hread.symm.trans hrun
  | error e =>
    cases hread.symm.trans hrun
    exact ⟨d, d₁, f, hdevice ▸ hd, hlength, hread, hchecked⟩

end Handle

end SectorChain
