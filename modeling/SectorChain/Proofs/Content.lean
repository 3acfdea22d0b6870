import SectorChain.Handle
import SectorChain.Proofs.Chain
import Mathlib.Data.List.Nodup

/-!
# The content of a chain

`Disk.content k h l` is the file of the header `h` with the chain `l`: the data of the chain, cut to
the length of the file. A handle whose header has a chain that is long enough reads slices of it
and splices into it.

Results:
* `readAt_slice`, `readAt_yields`: a read answers a slice of the content.
* `writeAt_slice`, `writeAt_blocks`: a write replaces a slice of the data of the chain; it leaves
  the chain linked, and the sectors of the blocks that it does not fall into as they were.
* `writeAt_yields`: a write replaces a slice of the content, and changes no sector outside the
  chain.
-/

namespace SectorChain

namespace Bytes

@[simp] theorem splice_nil (bytes : Bytes) (pos : Nat) : splice bytes pos [] = bytes := by
  simp [splice]

/-- Two splices side by side are one. -/
theorem splice_splice {bytes : Bytes} {pos : Nat} (h : pos ≤ bytes.length) (x y : Bytes) :
    splice (splice bytes pos x) (pos + x.length) y = splice bytes pos (x ++ y) := by
  have hfront : (bytes.take pos ++ x).length = pos + x.length := by
    rw [List.length_append, List.length_take, Nat.min_eq_left h]
  unfold splice
  rw [List.take_left' hfront, List.drop_append, hfront,
    List.drop_eq_nil_of_le (by rw [hfront]; omega), List.nil_append, List.drop_drop,
    List.length_append, List.append_assoc, List.append_assoc, List.append_assoc, List.append_assoc]
  congr 4
  omega

/-- A splice inside the middle part of a string. -/
theorem splice_append {middle new : Bytes} {off : Nat} (h : off + new.length ≤ middle.length)
    (front back : Bytes) :
    splice (front ++ middle ++ back) (front.length + off) new =
      front ++ splice middle off new ++ back := by
  unfold splice
  rw [List.append_assoc front, List.take_length_add_append, Nat.add_assoc,
    List.drop_length_add_append, List.take_append_of_le_length (by omega),
    List.drop_append_of_le_length h]
  simp only [List.append_assoc]

theorem take_splice {bytes new : Bytes} {pos n : Nat} (hpos : pos ≤ bytes.length)
    (hn : pos + new.length ≤ n) :
    (splice bytes pos new).take n = splice (bytes.take n) pos new := by
  have hfront : (bytes.take pos ++ new).length = pos + new.length := by
    rw [List.length_append, List.length_take, Nat.min_eq_left hpos]
  unfold splice
  rw [List.take_append, hfront, List.take_of_length_le (by rw [hfront]; exact hn), List.take_take,
    Nat.min_eq_left (by omega), List.drop_take]

end Bytes

namespace Disk

variable {k k' : Disk}

/-! ## Data by block -/

theorem chainData_append (k : Disk) (a b : List Nat) :
    k.chainData (a ++ b) = k.chainData a ++ k.chainData b := List.flatMap_append

theorem chainData_drop (k : Disk) (l : List Nat) (i : Nat) :
    k.chainData (l.drop i) = (k.chainData l).drop (i * k.dataSize) := by
  by_cases hi : i ≤ l.length
  · have hlen : (k.chainData (l.take i)).length = i * k.dataSize := by
      rw [length_chainData, List.length_take, Nat.min_eq_left hi]
    have hsplit := k.chainData_append (l.take i) (l.drop i)
    rw [List.take_append_drop] at hsplit
    rw [hsplit, List.drop_left' hlen]
  · have hle : l.length * k.dataSize ≤ i * k.dataSize := Nat.mul_le_mul_right _ (by omega)
    rw [List.drop_eq_nil_of_le (by omega), List.drop_eq_nil_of_le (by rwa [length_chainData])]
    rfl

theorem chainData_take (k : Disk) (l : List Nat) (n : Nat) :
    k.chainData (l.take n) = (k.chainData l).take (n * k.dataSize) := by
  by_cases hn : n ≤ l.length
  · have hlen : (k.chainData (l.take n)).length = n * k.dataSize := by
      rw [length_chainData, List.length_take, Nat.min_eq_left hn]
    have hsplit := k.chainData_append (l.take n) (l.drop n)
    rw [List.take_append_drop] at hsplit
    rw [hsplit, List.take_left' hlen]
  · have hle : l.length * k.dataSize ≤ n * k.dataSize := Nat.mul_le_mul_right _ (by omega)
    rw [List.take_of_length_le (by omega), List.take_of_length_le (by rwa [length_chainData])]

/-- New data in one block of a chain is a splice of the data of the chain. -/
theorem chainData_putBlock {b : Block} (hk : 0 < k.dataSize) (hb : b.data.length = k.dataSize)
    {l : List Nat} (hc : l.Nodup) {i : Nat} (hi : i < l.length) (hs : b.sector = l[i]) :
    (k.putBlock b).chainData l =
      k.chainData (l.take i) ++ b.data ++ k.chainData (l.drop (i + 1)) := by
  have hsplit : l = l.take i ++ l[i] :: l.drop (i + 1) := by
    rw [← List.drop_eq_getElem_cons hi, List.take_append_drop]
  have hnot : ∀ t ∈ l.take i ++ l.drop (i + 1), t ≠ b.sector := by
    rw [hsplit, List.nodup_middle, List.nodup_cons] at hc
    rintro t ht rfl
    exact hc.1 (hs ▸ ht)
  have hfront : (k.putBlock b).chainData (l.take i) = k.chainData (l.take i) :=
    chainData_keeps (keeps_putBlock k b) fun t ht => hnot t (List.mem_append_left _ ht)
  have hback : (k.putBlock b).chainData (l.drop (i + 1)) = k.chainData (l.drop (i + 1)) :=
    chainData_keeps (keeps_putBlock k b) fun t ht => hnot t (List.mem_append_right _ ht)
  have hmiddle : (k.putBlock b).dataAt l[i] = b.data := by
    rw [← hs]
    exact dataAt_putBlock hk hb
  conv => lhs; rw [hsplit]
  rw [chainData_append, chainData, chainData, List.flatMap_cons, ← chainData, ← chainData, hfront,
    hback, hmiddle, List.append_assoc]

/-! ## Files -/

/-- The bytes of the file: the data of its chain, as far as its length goes. -/
def content (k : Disk) (h : Header) (l : List Nat) : Bytes := (k.chainData l).take h.length

theorem content_keeps {p : Nat → Prop} {l : List Nat} (hk : Keeps k k' p) (hc : ∀ s ∈ l, p s)
    (h : Header) : k'.content h l = k.content h l := by
  unfold content
  rw [chainData_keeps hk hc]

theorem length_content {h : Header} {l : List Nat} (hlen : h.length ≤ l.length * k.dataSize) :
    (k.content h l).length = h.length := by
  rw [content, List.length_take, length_chainData, Nat.min_eq_left hlen]

/-! ## Reading -/

theorem readBlocks_yields {f : Handle} {l : List Nat} (hk : 0 < k.dataSize)
    (hc : k.Chained f.header l) {count i : Nat} (hi : i + count ≤ l.length) :
    Yields (f.readBlocks k.dataSize count i) k (.ok (k.chainData ((l.drop i).take count))) k := by
  induction count generalizing i with
  | zero => exact Yields.pure _ k
  | succ count ih =>
    have hlt : i < l.length := by omega
    refine (hc.blockAt_yields (Nat.mul_div_cancel i hk) hlt).bind ?_
    refine (ih (i := i + 1) (by omega)).bind ?_
    rw [List.drop_eq_getElem_cons hlt, List.take_succ_cons]
    exact Yields.pure _ k

theorem span_eq (n pos data : Nat) :
    Handle.span n pos data = (pos + n - 1) / data - pos / data + 1 := rfl

/-- The blocks of a request end where its last byte lies. -/
theorem div_add_span_le {n pos data length : Nat} (hdata : 0 < data) (hn : 0 < n)
    (hlen : pos + n ≤ length * data) : pos / data + Handle.span n pos data ≤ length := by
  have hlt : (pos + n - 1) / data < length := by
    rw [Nat.div_lt_iff_lt_mul hdata]
    omega
  have hle : pos / data ≤ (pos + n - 1) / data := Nat.div_le_div_right (by omega)
  rw [span_eq]
  omega

/-- The blocks of a request have room for all of it. -/
theorem mod_add_le_span (n pos : Nat) {data : Nat} (hdata : 0 < data) :
    pos % data + n ≤ Handle.span n pos data * data := by
  have hmod := Nat.div_add_mod' pos data
  have hlast := Nat.div_add_mod' (pos + n - 1) data
  have hlt := Nat.mod_lt (pos + n - 1) hdata
  have hle : pos / data ≤ (pos + n - 1) / data ∨ n = 0 := by
    by_cases hn : n = 0
    · exact Or.inr hn
    · exact Or.inl (Nat.div_le_div_right (by omega))
  have hpos := Nat.mod_lt pos hdata
  rw [span_eq, Nat.add_mul, Nat.sub_mul]
  rcases hle with hle | rfl
  · have := Nat.mul_le_mul_right data hle
    omega
  · omega

theorem clamp?_eq_none {count pos length : Nat} (h : Handle.clamp? count pos length = none) :
    count = 0 ∨ length ≤ pos := by
  unfold Handle.clamp? at h
  split at h
  · assumption
  · cases h

theorem clamp?_eq_some {count pos length n : Nat} (h : Handle.clamp? count pos length = some n) :
    0 < n ∧ pos + n ≤ length ∧ n = min count (length - pos) := by
  unfold Handle.clamp? at h
  split at h
  · cases h
  · cases h
    omega

/-- **A read answers a slice of the content**, as far as the file goes, if the chain goes so far. -/
theorem readAt_slice {f : Handle} {l : List Nat} (hk : 0 < k.dataSize)
    (hc : k.Chained f.header l) (count pos : Nat)
    (hlen : min (pos + count) f.header.length ≤ l.length * k.dataSize) :
    Yields (f.readAt count pos) k (.ok (((k.content f.header l).drop pos).take count)) k := by
  unfold Handle.readAt Handle.length
  cases hclamp : Handle.clamp? count pos f.header.length with
  | none =>
    have hnil : ((k.content f.header l).drop pos).take count = [] := by
      rcases clamp?_eq_none hclamp with rfl | hpos
      · exact List.take_zero
      · have hend : (k.content f.header l).length ≤ pos :=
          Nat.le_trans (List.length_take_le _ _) hpos
        rw [List.drop_eq_nil_of_le hend, List.take_nil]
    rw [hnil]
    exact Yields.pure _ k
  | some n =>
    obtain ⟨hn, hroom, hmin⟩ := clamp?_eq_some hclamp
    refine (Yields.note _ k).bind ((Yields.dataSize k).bind ?_)
    have hspan := div_add_span_le hk hn (show pos + n ≤ l.length * k.dataSize by omega)
    refine (readBlocks_yields hk hc hspan).bind ?_
    have hslice : ((k.chainData ((l.drop (pos / k.dataSize)).take
        (Handle.span n pos k.dataSize))).drop (pos % k.dataSize)).take n =
          ((k.content f.header l).drop pos).take count := by
      have hmod := mod_add_le_span n pos hk
      rw [chainData_take, chainData_drop, List.drop_take, List.drop_drop, Nat.div_add_mod',
        List.take_take, content, List.drop_take, List.take_take, Nat.min_eq_left (by omega), hmin]
    rw [hslice]
    exact Yields.pure _ k

theorem readAt_yields {f : Handle} {l : List Nat} (hk : 0 < k.dataSize)
    (hc : k.Chained f.header l) (hlen : f.header.length ≤ l.length * k.dataSize) (count pos : Nat) :
    Yields (f.readAt count pos) k (.ok (((k.content f.header l).drop pos).take count)) k :=
  readAt_slice hk hc count pos (Nat.le_trans (Nat.min_le_right _ _) hlen)

/-! ## Writing -/

/-- The bytes for one block, spliced into the data of the chain. -/
theorem splice_block {l : List Nat} {i : Nat} (hi : i < l.length) {off : Nat} {new : Bytes}
    (hoff : off + new.length ≤ k.dataSize) :
    k.chainData (l.take i) ++ Bytes.splice (k.dataAt l[i]) off new ++ k.chainData (l.drop (i + 1)) =
      Bytes.splice (k.chainData l) (i * k.dataSize + off) new := by
  have hsplit : k.chainData l =
      k.chainData (l.take i) ++ k.dataAt l[i] ++ k.chainData (l.drop (i + 1)) := by
    conv => lhs; rw [← List.take_append_drop i l, List.drop_eq_getElem_cons hi]
    rw [chainData_append, List.append_assoc]
    rfl
  have hfront : (k.chainData (l.take i)).length = i * k.dataSize := by
    rw [length_chainData, List.length_take, Nat.min_eq_left (by omega)]
  rw [hsplit, ← hfront, Bytes.splice_append (by rwa [length_dataAt])]

/-- The block at `pos`, with as many of the bytes as it has room for. -/
def writtenBlock (k : Disk) (l : List Nat) (bytes : Bytes) (pos : Nat)
    (hi : pos / k.dataSize < l.length) : Block where
  sector := l[pos / k.dataSize]
  next := l[pos / k.dataSize + 1]?
  data := Bytes.splice (k.dataAt l[pos / k.dataSize]) (pos % k.dataSize)
    (bytes.take (k.dataSize - pos % k.dataSize))

theorem length_writtenBlock {l : List Nat} (hk : 0 < k.dataSize) (bytes : Bytes) {pos : Nat}
    (hi : pos / k.dataSize < l.length) :
    (k.writtenBlock l bytes pos hi).data.length = k.dataSize := by
  have hmod := Nat.mod_lt pos hk
  show (Bytes.splice _ _ _).length = _
  rw [Bytes.length_splice, length_dataAt]
  rw [length_dataAt, List.length_take]
  omega

/-- The link of the sector to itself is the same on both disks, and its link to the next block is
now as it is written: of the links that lead nowhere, always the one of all bits. -/
def Relinked (k k' : Disk) (s : Nat) : Prop :=
  ∃ own next : Link, (k.bytes s).take Layout.linkSize = own.encode ++ next.encode ∧
    (k'.bytes s).take Layout.linkSize = own.encode ++ (Link.ofOption next.target).encode

/-- A block that is written again with its next block is relinked. -/
theorem HasBlock.relinked {b : Block} (hk : 0 < k.dataSize) (hb : b.data.length = k.dataSize)
    (hblock : k.HasBlock b.sector b.next) : k.Relinked (k.putBlock b) b.sector := by
  obtain ⟨-, own, next, hbytes, hown, hnext⟩ := hblock
  refine ⟨own, next, ?_, ?_⟩
  · rw [hbytes]
    rfl
  · rw [putBlock, bytes_put_self (length_encode_block hk hb), hnext, Link.eq_ofSector hown]
    rfl

/-- Two parts of a write that are apart: a sector is relinked by the one that writes it. -/
theorem Relinked.keeps {k'' : Disk} {p : Nat → Prop} {s : Nat} (h : k.Relinked k' s)
    (hkeep : k'.Keeps k'' p) (hs : p s) : k.Relinked k'' s := by
  obtain ⟨own, next, hbefore, hafter⟩ := h
  exact ⟨own, next, hbefore, (hkeep.bytes s hs).symm ▸ hafter⟩

theorem Relinked.of_keeps {k'' : Disk} {p : Nat → Prop} {s : Nat} (h : k'.Relinked k'' s)
    (hkeep : k.Keeps k' p) (hs : p s) : k.Relinked k'' s := by
  obtain ⟨own, next, hbefore, hafter⟩ := h
  exact ⟨own, next, hkeep.bytes s hs ▸ hbefore, hafter⟩

/-- **One block is written**: the chain stays linked, and the bytes are spliced into its data. -/
theorem Linked.writtenBlock {l : List Nat} (h : k.Linked l) (hk : 0 < k.dataSize) (bytes : Bytes)
    {pos : Nat} (hi : pos / k.dataSize < l.length) :
    k.HasBlock l[pos / k.dataSize] l[pos / k.dataSize + 1]? ∧
      k.Keeps (k.putBlock (k.writtenBlock l bytes pos hi)) (· ∉ l) ∧
      (k.putBlock (k.writtenBlock l bytes pos hi)).Linked l ∧
      (k.putBlock (k.writtenBlock l bytes pos hi)).chainData l =
        Bytes.splice (k.chainData l) pos (bytes.take (k.dataSize - pos % k.dataSize)) := by
  have hblock := h.hasBlock hi
  have hdata := length_writtenBlock hk bytes hi
  have hmod := Nat.mod_lt pos hk
  have hoff : pos % k.dataSize + (bytes.take (k.dataSize - pos % k.dataSize)).length ≤
      k.dataSize := by
    rw [List.length_take]
    omega
  refine ⟨hblock, ?_, h.putBlock hk hdata hblock, ?_⟩
  · exact (keeps_putBlock k _).mono fun s hs heq => hs (heq ▸ List.getElem_mem hi)
  · rw [chainData_putBlock hk hdata h.nodup hi rfl]
    have hsplice := splice_block (k := k) hi hoff
    rwa [Nat.div_add_mod'] at hsplice

/-- The next block starts where this one ends. -/
theorem next_block (pos : Nat) {data : Nat} (hdata : 0 < data) :
    (pos + (data - pos % data)) / data = pos / data + 1 ∧
      (pos + (data - pos % data)) % data = 0 := by
  have hmod := Nat.mod_lt pos hdata
  have hdiv := Nat.div_add_mod' pos data
  have hpos : pos + (data - pos % data) = (pos / data + 1) * data := by
    rw [Nat.succ_mul]
    omega
  rw [hpos]
  exact ⟨Nat.mul_div_cancel _ hdata, Nat.mul_mod_left _ _⟩

/-- The bytes for this block and some of those behind it, spliced into the data of the chain. -/
theorem splice_next (hk : 0 < k.dataSize) {l : List Nat} {pos : Nat}
    (hi : pos / k.dataSize < l.length) (bytes : Bytes) (n : Nat) :
    Bytes.splice (Bytes.splice (k.chainData l) pos (bytes.take (k.dataSize - pos % k.dataSize)))
        (pos + (k.dataSize - pos % k.dataSize))
        ((bytes.drop (k.dataSize - pos % k.dataSize)).take n) =
      Bytes.splice (k.chainData l) pos (bytes.take (k.dataSize - pos % k.dataSize + n)) := by
  by_cases hfull : k.dataSize - pos % k.dataSize ≤ bytes.length
  · have hle : pos ≤ (k.chainData l).length := by
      rw [length_chainData]
      have hdiv := Nat.div_add_mod' pos k.dataSize
      have hmod := Nat.mod_lt pos hk
      have := Nat.mul_le_mul_right k.dataSize hi
      rw [Nat.succ_mul] at this
      omega
    have hlen := List.length_take_of_le hfull
    conv_lhs => arg 2; rw [← hlen]
    rw [Bytes.splice_splice hle, List.take_add]
  · rw [List.drop_eq_nil_of_le (by omega), List.take_nil, Bytes.splice_nil,
      List.take_of_length_le (by omega), List.take_of_length_le (by omega)]

/-- The bytes for this block and all those behind it. -/
theorem splice_rest (hk : 0 < k.dataSize) {l : List Nat} {pos : Nat}
    (hi : pos / k.dataSize < l.length) (bytes : Bytes) :
    Bytes.splice (Bytes.splice (k.chainData l) pos (bytes.take (k.dataSize - pos % k.dataSize)))
        (pos + (k.dataSize - pos % k.dataSize)) (bytes.drop (k.dataSize - pos % k.dataSize)) =
      Bytes.splice (k.chainData l) pos bytes := by
  have hall := splice_next hk hi bytes bytes.length
  have hdrop : (bytes.drop (k.dataSize - pos % k.dataSize)).take bytes.length =
      bytes.drop (k.dataSize - pos % k.dataSize) :=
    List.take_of_length_le (by rw [List.length_drop]; exact Nat.sub_le _ _)
  have htake : bytes.take (k.dataSize - pos % k.dataSize + bytes.length) = bytes :=
    List.take_of_length_le (Nat.le_add_left _ _)
  rwa [hdrop, htake] at hall

/-- Writing block by block splices the bytes into the data of the chain. The blocks are relinked,
and all other sectors are as they were. -/
theorem writeBlocks_yields {f : Handle} {l : List Nat} (hk : 0 < k.dataSize)
    (hc : k.Chained f.header l) {count : Nat} {bytes : Bytes} {pos : Nat}
    (hcount : pos / k.dataSize + count ≤ l.length)
    (hroom : pos % k.dataSize + bytes.length ≤ count * k.dataSize) :
    ∃ k', Yields (f.writeBlocks k.dataSize count bytes pos) k (.ok ()) k' ∧
      k.Keeps k' (· ∉ (l.drop (pos / k.dataSize)).take count) ∧
      (∀ s ∈ (l.drop (pos / k.dataSize)).take count, k.Relinked k' s) ∧ k'.Linked l ∧
      k'.chainData l = Bytes.splice (k.chainData l) pos bytes := by
  induction count generalizing k bytes pos with
  | zero =>
    obtain rfl : bytes = [] := List.eq_nil_of_length_eq_zero (by omega)
    exact ⟨k, Yields.pure _ k, Keeps.refl k _, by rintro s ⟨⟩, hc.linked,
      (Bytes.splice_nil _ _).symm⟩
  | succ count ih =>
    have hi : pos / k.dataSize < l.length := by omega
    obtain ⟨hblock, -, hlinked, hspliced⟩ := hc.linked.writtenBlock hk bytes hi
    obtain ⟨hnext, hzero⟩ := next_block pos hk
    have hcount' : (pos + (k.dataSize - pos % k.dataSize)) / k.dataSize + count ≤ l.length := by
      omega
    have hroom' : (pos + (k.dataSize - pos % k.dataSize)) % k.dataSize +
        (bytes.drop (k.dataSize - pos % k.dataSize)).length ≤ count * k.dataSize := by
      rw [hzero, List.length_drop]
      rw [Nat.succ_mul] at hroom
      omega
    have hdata := length_writtenBlock hk bytes hi
    have hput := keeps_putBlock k (k.writtenBlock l bytes pos hi)
    obtain ⟨k', hy, hkeep, hrelinked, hlinked', hdata'⟩ :=
      ih (k := k.putBlock (k.writtenBlock l bytes pos hi))
        hk ⟨hlinked, hc.first, hc.blocks⟩ hcount' hroom'
    have hrest : (k.putBlock (k.writtenBlock l bytes pos hi)).Keeps k'
        (· ∉ (l.drop (pos / k.dataSize + 1)).take count) := hnext ▸ hkeep
    have hrelinked : ∀ s ∈ (l.drop (pos / k.dataSize + 1)).take count,
        (k.putBlock (k.writtenBlock l bytes pos hi)).Relinked k' s := hnext ▸ hrelinked
    have hnodup := hc.linked.nodup.sublist (List.drop_sublist (pos / k.dataSize) l)
    rw [List.drop_eq_getElem_cons hi, List.nodup_cons] at hnodup
    rw [List.drop_eq_getElem_cons hi, List.take_succ_cons]
    refine ⟨k', ?_, ?_, fun s hs => ?_, hlinked', ?_⟩
    · refine (hc.blockAt_yields (Nat.mul_div_cancel _ hk) hi).bind ?_
      exact (store_yields hk hblock.1 hdata).bind hy
    · refine (hput.mono fun s hs heq => hs ?_).trans
        (hrest.mono fun s hs hmem => hs (List.mem_cons_of_mem _ hmem))
      exact heq ▸ List.mem_cons_self
    · rcases List.mem_cons.mp hs with rfl | hs
      · have hwritten : k.Relinked _ l[pos / k.dataSize] := hblock.relinked hk hdata
        exact hwritten.keeps hrest fun hmem => hnodup.1 (List.mem_of_mem_take hmem)
      · have hmem := List.mem_of_mem_take hs
        exact (hrelinked s hs).of_keeps hput fun heq : s = l[pos / k.dataSize] =>
          hnodup.1 (heq ▸ hmem)
    · rw [hdata', hspliced, splice_rest hk hi]

/-- The sectors of the blocks that `n` bytes from `pos` on fall into. -/
def touched (k : Disk) (l : List Nat) (n pos : Nat) : List Nat :=
  if n = 0 then [] else (l.drop (pos / k.dataSize)).take (Handle.span n pos k.dataSize)

theorem mem_of_mem_touched {l : List Nat} {n pos s : Nat} (hs : s ∈ k.touched l n pos) :
    s ∈ l := by
  unfold touched at hs
  split at hs
  · cases hs
  · exact List.mem_of_mem_drop (List.mem_of_mem_take hs)

/-- **A write replaces a slice of the data**, as far as the file goes, if the chain goes so far. The
chain stays as it is, the blocks that the bytes fall into are relinked, and all other sectors are as
they were. -/
theorem writeAt_slice {f : Handle} {l : List Nat} (hk : 0 < k.dataSize)
    (hc : k.Chained f.header l) (bytes : Bytes) (pos : Nat)
    (hlen : min (pos + bytes.length) f.header.length ≤ l.length * k.dataSize) :
    let new := bytes.take (f.header.length - pos)
    ∃ k', Yields (f.writeAt bytes pos) k (.ok new.length) k' ∧
      k.Keeps k' (· ∉ k.touched l new.length pos) ∧
      (∀ s ∈ k.touched l new.length pos, k.Relinked k' s) ∧ k'.Chained f.header l ∧
      k'.chainData l = Bytes.splice (k.chainData l) pos new := by
  intro new
  unfold Handle.writeAt Handle.length
  cases hclamp : Handle.clamp? bytes.length pos f.header.length with
  | none =>
    have hnil : new = [] := by
      rw [List.take_eq_nil_iff]
      rcases clamp?_eq_none hclamp with hbytes | hpos
      · exact .inr (List.eq_nil_of_length_eq_zero hbytes)
      · exact .inl (Nat.sub_eq_zero_of_le hpos)
    rw [hnil]
    exact ⟨k, Yields.pure _ k, Keeps.refl k _, by rintro s ⟨⟩, hc, (Bytes.splice_nil _ _).symm⟩
  | some n =>
    obtain ⟨hn, hroom, hmin⟩ := clamp?_eq_some hclamp
    have htake : new = bytes.take n := by
      rw [hmin, List.take_eq_take_iff]
      omega
    have hlength : (bytes.take n).length = n := by
      rw [List.length_take]
      omega
    have hspan : pos % k.dataSize + (bytes.take n).length ≤
        Handle.span n pos k.dataSize * k.dataSize := by
      rw [hlength]
      exact mod_add_le_span n pos hk
    obtain ⟨k', hy, hkeep, hrelinked, hlinked, hdata⟩ :=
      writeBlocks_yields hk hc
        (div_add_span_le hk hn (show pos + n ≤ l.length * k.dataSize by omega)) hspan
    have htouched : k.touched l n pos =
        (l.drop (pos / k.dataSize)).take (Handle.span n pos k.dataSize) :=
      if_neg (Nat.pos_iff_ne_zero.mp hn)
    rw [htake, hlength, htouched]
    exact ⟨k', (Yields.note _ k).bind ((Yields.dataSize k).bind (hy.bind (Yields.pure n k'))),
      hkeep, hrelinked, ⟨hlinked, hc.first, hc.blocks⟩, hdata⟩

/-- A write replaces a slice of the data, if the chain has room for the whole file. -/
theorem writeAt_blocks {f : Handle} {l : List Nat} (hk : 0 < k.dataSize)
    (hc : k.Chained f.header l) (hlen : f.header.length ≤ l.length * k.dataSize) (bytes : Bytes)
    (pos : Nat) :
    let new := bytes.take (f.header.length - pos)
    ∃ k', Yields (f.writeAt bytes pos) k (.ok new.length) k' ∧
      k.Keeps k' (· ∉ k.touched l new.length pos) ∧
      (∀ s ∈ k.touched l new.length pos, k.Relinked k' s) ∧ k'.Chained f.header l ∧
      k'.chainData l = Bytes.splice (k.chainData l) pos new :=
  writeAt_slice hk hc bytes pos (Nat.le_trans (Nat.min_le_right _ _) hlen)

/-- What is spliced into the data of a chain no further than its file goes is spliced into the
content. -/
theorem content_splice {h : Header} {l : List Nat} (hlen : h.length ≤ l.length * k.dataSize)
    {bytes : Bytes} {pos : Nat}
    (hdata : k'.chainData l = Bytes.splice (k.chainData l) pos (bytes.take (h.length - pos))) :
    k'.content h l = Bytes.splice (k.content h l) pos (bytes.take (h.length - pos)) := by
  by_cases hpos : pos < h.length
  · have hroom : pos + (bytes.take (h.length - pos)).length ≤ h.length := by
      rw [List.length_take]
      omega
    rw [content, hdata, Bytes.take_splice _ hroom]
    · rfl
    · rw [length_chainData]
      omega
  · rw [Nat.sub_eq_zero_of_le (Nat.not_lt.mp hpos), List.take_zero] at hdata ⊢
    rw [content, hdata, Bytes.splice_nil, Bytes.splice_nil, content]

/-- **A write replaces a slice of the content**, as far as the file goes, and no sector outside the
chain changes. -/
theorem writeAt_yields {f : Handle} {l : List Nat} (hk : 0 < k.dataSize)
    (hc : k.Chained f.header l) (hlen : f.header.length ≤ l.length * k.dataSize) (bytes : Bytes)
    (pos : Nat) :
    ∃ k', Yields (f.writeAt bytes pos) k
        (.ok (bytes.take (f.header.length - pos)).length) k' ∧
      k.Keeps k' (· ∉ l) ∧ k'.Chained f.header l ∧
      k'.content f.header l = Bytes.splice (k.content f.header l) pos
        (bytes.take (f.header.length - pos)) := by
  obtain ⟨k', hy, hkeep, -, hchained, hdata⟩ := writeAt_blocks hk hc hlen bytes pos
  exact ⟨k', hy, hkeep.mono fun s hs hmem => hs (mem_of_mem_touched hmem), hchained,
    content_splice hlen hdata⟩

end Disk

end SectorChain
