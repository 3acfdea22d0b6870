import SectorChain.Proofs.Slices
import Mathlib.Algebra.GroupWithZero.Nat

/-!
# Sequential access

A request at the position of a handle begins where the last one ended, which may be anywhere in a
block, or behind the end of the file. It makes no difference where a long request is cut into short
ones: what they read is the same, and so is every byte on the device after they have written.

* `Wrote k k' l pos new`: all that there is to say of the disk `k'`, when `new` was written to the
  chain `l` of the disk `k`.
* `Handle.reads`, `Handle.writes`: requests at the position, one after the other.

Results:
* `Wrote.unique`: a disk and what is written to it determine the disk after it.
* `Wrote.append`: two writes, the second one where the first one ended, are one.
* `reads_yields`, `writes_yields`: any number of requests.
* `cut_anywhere`: short requests and a long one, on every device without faults.
-/

namespace SectorChain

/-- Devices that keep what is written have the same sectors if the disks are the same. -/
theorem Drive.FaultFree.sector?_eq {d d' : Drive} (hd : d.FaultFree) (hd' : d'.FaultFree)
    (h : d.disk = d'.disk) (s : Nat) : d.device.sector? s = d'.device.sector? s := by
  have hkeeps : d'.disk.Keeps d.disk fun _ => True := h ▸ Disk.Keeps.refl _ _
  exact hkeeps.sector?_eq hd' hd trivial

/-- A splice right behind another one. Behind the end of the string, both are appended to it. -/
theorem Bytes.splice_append_new (bytes : Bytes) (pos : Nat) (x y : Bytes) :
    splice (splice bytes pos x) (pos + x.length) y = splice bytes pos (x ++ y) := by
  by_cases hpos : pos ≤ bytes.length
  · exact splice_splice hpos x y
  · have hall : ∀ z : Bytes, splice bytes pos z = bytes ++ z := by
      intro z
      unfold splice
      rw [List.take_of_length_le (by omega), List.drop_eq_nil_of_le (by omega), List.append_nil]
    have hlen : (bytes ++ x).length ≤ pos + x.length := by
      rw [List.length_append]
      omega
    rw [hall, hall, splice, List.take_of_length_le hlen, List.drop_eq_nil_of_le (by omega),
      List.append_nil, List.append_assoc]

namespace Handle

/-- Read at the position as much as each of the counts says, one after the other. -/
def reads (f : Handle) : List Nat → DriveM (Bytes × Handle)
  | [] => return ([], f)
  | count :: counts => do
    let (bytes, f) ← f.read count
    let (rest, f) ← f.reads counts
    return (bytes ++ rest, f)

/-- Write each of the strings at the position, one after the other: the number of bytes that were
written. -/
def writes (f : Handle) : List Bytes → DriveM (Nat × Handle)
  | [] => return (0, f)
  | bytes :: pieces => do
    let (n, f) ← f.write bytes
    let (m, f) ← f.writes pieces
    return (n + m, f)

theorem read_still (f : Handle) (count : Nat) : Still (f.read count) := by
  rw [read_eq]
  exact (f.readAt_still _ _).bind fun _ => Still.pure _

theorem reads_still (f : Handle) (counts : List Nat) : Still (f.reads counts) := by
  induction counts generalizing f with
  | nil => exact Still.pure _
  | cons count counts ih =>
    exact (f.read_still count).bind fun p => (ih p.2).bind fun _ => Still.pure _

/-- Behind bytes that the file has, the position is in the file. -/
theorem position_le (f : Handle) {n : Nat} (hn : n ≤ f.header.length - f.position) :
    (f.seek (f.position + n)).position ≤ max f.position f.length := by
  show f.position + n ≤ max f.position f.header.length
  omega

/-- A block that holds some of the bytes of two strings side by side holds some of one of them. -/
theorem touches_add {n m pos data i : Nat} (hdata : 0 < data) :
    Touches (n + m) pos data i ↔ Touches n pos data i ∨ Touches m (pos + n) data i := by
  have hend : (i + 1) * data = i * data + data := Nat.succ_mul i data
  unfold Touches
  omega

end Handle

namespace Disk

variable {k k₁ k₂ : Disk} {l : List Nat} {pos : Nat} {new x y : Bytes}

/-! ## What a write determines -/

/-- A write to a block that was written gives it no other links. -/
theorem Relinked.trans {s : Nat} (h : k.Relinked k₁ s) (h' : k₁.Relinked k₂ s) :
    k.Relinked k₂ s := by
  obtain ⟨own, next, hbefore, hbetween⟩ := h
  obtain ⟨own', next', hbetween', hafter⟩ := h'
  obtain ⟨rfl, hnext⟩ := Link.append_inj (hbetween.symm.trans hbetween')
  have hlink : Link.ofOption next.target = next' := by
    have hboth : (Link.ofOption next.target).encode ++ [] = next'.encode ++ [] := by
      rw [hnext]
    exact (Link.append_inj hboth).1
  have htarget : next'.target = next.target := by
    rw [← hlink]
    exact target_ofOption fun t ht => target_lt ht
  exact ⟨own, next, hbefore, htarget ▸ hafter⟩

/-- Two disks on which a sector was relinked have the same links in it. -/
theorem Relinked.take_eq {s : Nat} (h : k.Relinked k₁ s) (h' : k.Relinked k₂ s) :
    (k₁.bytes s).take Layout.linkSize = (k₂.bytes s).take Layout.linkSize := by
  obtain ⟨own, next, hbefore, hafter⟩ := h
  obtain ⟨own', next', hbefore', hafter'⟩ := h'
  obtain ⟨rfl, hnext⟩ := Link.append_inj (hbefore.symm.trans hbefore')
  have hboth : next.encode ++ [] = next'.encode ++ [] := by
    rw [hnext]
  obtain ⟨rfl, -⟩ := Link.append_inj hboth
  rw [hafter, hafter']

/-- The data of a chain is that of each of its sectors. -/
theorem dataAt_eq_of_chainData (hsize : k₁.dataSize = k₂.dataSize)
    (h : k₁.chainData l = k₂.chainData l) : ∀ s ∈ l, k₁.dataAt s = k₂.dataAt s := by
  induction l with
  | nil =>
    intro s hs
    cases hs
  | cons t l ih =>
    have hlength : (k₁.dataAt t).length = (k₂.dataAt t).length := by
      rw [length_dataAt, length_dataAt, hsize]
    obtain ⟨hhead, hrest⟩ := List.append_inj (by simpa only [chainData, List.flatMap_cons] using h)
      hlength
    intro s hs
    rcases List.mem_cons.mp hs with rfl | hs
    · exact hhead
    · exact ih hrest s hs

/-- **A write that is done.** The string is in the data of the chain, the blocks that it falls into
have the links that they are written with, and no other sector has changed. -/
structure Wrote (k k' : Disk) (l : List Nat) (pos : Nat) (new : Bytes) : Prop where
  keeps : k.Keeps k' (· ∉ k.touched l new.length pos)
  relinked : ∀ s ∈ k.touched l new.length pos, k.Relinked k' s
  data : k'.chainData l = Bytes.splice (k.chainData l) pos new

namespace Wrote

theorem nil (k : Disk) (l : List Nat) (pos : Nat) : k.Wrote k l pos [] where
  keeps := Keeps.refl k _
  relinked := by rintro s ⟨⟩
  data := (Bytes.splice_nil _ _).symm

/-- **Nothing is left open** on a disk by what was written to it. -/
theorem unique (h₁ : k.Wrote k₁ l pos new) (h₂ : k.Wrote k₂ l pos new) : k₁ = k₂ := by
  have hsize : k₁.dataSize = k₂.dataSize := h₁.keeps.dataSize.trans h₂.keeps.dataSize.symm
  have hdata := dataAt_eq_of_chainData hsize (h₁.data.trans h₂.data.symm)
  ext1
  · rw [h₁.keeps.sectors, h₂.keeps.sectors]
  · rw [h₁.keeps.sectorSize, h₂.keeps.sectorSize]
  · funext s
    by_cases hs : s ∈ k.touched l new.length pos
    · have hlinks := (h₁.relinked s hs).take_eq (h₂.relinked s hs)
      have hrest : (k₁.bytes s).drop Layout.linkSize = (k₂.bytes s).drop Layout.linkSize :=
        hdata s (mem_of_mem_touched hs)
      rw [← List.take_append_drop Layout.linkSize (k₁.bytes s), hlinks, hrest,
        List.take_append_drop]
    · rw [h₁.keeps.bytes s hs, h₂.keeps.bytes s hs]

/-- The sectors of two writes side by side. -/
theorem mem_touched_append (hk : 0 < k.dataSize) (h : k.Wrote k₁ l pos x) (s : Nat) :
    s ∈ k.touched l (x ++ y).length pos ↔
      s ∈ k.touched l x.length pos ∨ s ∈ k₁.touched l y.length (pos + x.length) := by
  have hk₁ : 0 < k₁.dataSize := h.keeps.dataSize.symm ▸ hk
  rw [mem_touched hk, mem_touched hk, mem_touched hk₁, h.keeps.dataSize, List.length_append]
  simp only [Handle.touches_add hk]
  grind

/-- **Two writes are one**, if the second one begins where the first one ended. A block that both
fall into is written twice, and the links that it has then are those that it had after the first
time. -/
theorem append (hk : 0 < k.dataSize) (hx : k.Wrote k₁ l pos x)
    (hy : k₁.Wrote k₂ l (pos + x.length) y) : k.Wrote k₂ l pos (x ++ y) where
  keeps := by
    have hfirst : k.Keeps k₁ (· ∉ k.touched l (x ++ y).length pos) :=
      hx.keeps.mono fun s hs hmem => hs ((hx.mem_touched_append hk s).mpr (.inl hmem))
    have hsecond : k₁.Keeps k₂ (· ∉ k.touched l (x ++ y).length pos) :=
      hy.keeps.mono fun s hs hmem => hs ((hx.mem_touched_append hk s).mpr (.inr hmem))
    exact hfirst.trans hsecond
  relinked s hs := by
    by_cases hfirst : s ∈ k.touched l x.length pos
    · by_cases hsecond : s ∈ k₁.touched l y.length (pos + x.length)
      · exact (hx.relinked s hfirst).trans (hy.relinked s hsecond)
      · exact (hx.relinked s hfirst).keeps hy.keeps hsecond
    · have hsecond := ((hx.mem_touched_append hk s).mp hs).resolve_left hfirst
      exact (hy.relinked s hsecond).of_keeps hx.keeps hfirst
  data := by rw [hy.data, hx.data, Bytes.splice_append_new]

end Wrote

/-! ## Requests at the position -/

variable {f : Handle}

theorem write_yields (hk : 0 < k.dataSize) (hc : k.Chained f.header l)
    (hlen : f.header.length ≤ l.length * k.dataSize) (bytes : Bytes) :
    let new := bytes.take (f.header.length - f.position)
    ∃ k', Yields (f.write bytes) k (.ok (new.length, f.seek (f.position + new.length))) k' ∧
      k.Wrote k' l f.position new ∧ k'.Chained f.header l := by
  intro new
  obtain ⟨k', hy, hkeep, hrelinked, hc', hdata⟩ := writeAt_blocks hk hc hlen bytes f.position
  rw [Handle.write_eq]
  exact ⟨k', hy.bind (Yields.pure _ k'), ⟨hkeep, hrelinked, hdata⟩, hc'⟩

/-- Cut at the end of the file, two strings side by side are still side by side. -/
theorem take_append_clamp (a b : Bytes) (pos length : Nat) :
    (a ++ b).take (length - pos) = a.take (length - pos) ++
      b.take (length - (pos + (a.take (length - pos)).length)) := by
  rw [List.take_append, List.length_take]
  congr 2
  omega

/-- **Any number of writes**, one after the other, write the strings as one. -/
theorem writes_yields (hk : 0 < k.dataSize) (hc : k.Chained f.header l)
    (hlen : f.header.length ≤ l.length * k.dataSize) (pieces : List Bytes) :
    let new := pieces.flatten.take (f.header.length - f.position)
    ∃ k', Yields (f.writes pieces) k (.ok (new.length, f.seek (f.position + new.length))) k' ∧
      k.Wrote k' l f.position new ∧ k'.Chained f.header l := by
  induction pieces generalizing k f with
  | nil =>
    intro new
    have hnew : new = [] := List.take_nil
    rw [hnew]
    exact ⟨k, Yields.pure _ k, Wrote.nil k l f.position, hc⟩
  | cons bytes pieces ih =>
    intro new
    obtain ⟨k₁, hfirst, hwrote, hc₁⟩ := write_yields hk hc hlen bytes
    have hsize : k₁.dataSize = k.dataSize := hwrote.keeps.dataSize
    let f₁ := f.seek (f.position + (bytes.take (f.header.length - f.position)).length)
    obtain ⟨k₂, hrest, hwrote', hc₂⟩ := ih (f := f₁) (hsize ▸ hk) hc₁ (hsize ▸ hlen)
    have hnew : new = bytes.take (f.header.length - f.position) ++
        pieces.flatten.take (f₁.header.length - f₁.position) := take_append_clamp _ _ _ _
    rw [hnew, List.length_append, ← Nat.add_assoc]
    exact ⟨k₂, hfirst.bind (hrest.bind (Yields.pure _ k₂)), hwrote.append hk hwrote', hc₂⟩

/-- What is read in two parts is what is read at once. -/
theorem take_drop_append {α : Type} (content : List α) (pos n m : Nat) :
    (content.drop pos).take n ++
        (content.drop (pos + ((content.drop pos).take n).length)).take m =
      (content.drop pos).take (n + m) := by
  by_cases hn : n ≤ (content.drop pos).length
  · rw [List.length_take, Nat.min_eq_left hn, ← List.drop_drop, ← List.take_add]
  · have hshort : (content.drop pos).length ≤ n := by omega
    have hend : content.length ≤ pos + (content.drop pos).length := by
      rw [List.length_drop]
      omega
    rw [List.take_of_length_le hshort, List.drop_eq_nil_of_le hend, List.take_nil, List.append_nil,
      List.take_of_length_le (by omega)]

theorem read_yields (hk : 0 < k.dataSize) (hc : k.Chained f.header l)
    (hlen : f.header.length ≤ l.length * k.dataSize) (count : Nat) :
    let bytes := ((k.content f.header l).drop f.position).take count
    Yields (f.read count) k (.ok (bytes, f.seek (f.position + bytes.length))) k := by
  intro bytes
  rw [Handle.read_eq]
  exact (readAt_yields hk hc hlen count f.position).bind (Yields.pure _ k)

/-- **Any number of reads**, one after the other, read a slice as one. -/
theorem reads_yields (hk : 0 < k.dataSize) (hc : k.Chained f.header l)
    (hlen : f.header.length ≤ l.length * k.dataSize) (counts : List Nat) :
    let bytes := ((k.content f.header l).drop f.position).take counts.sum
    Yields (f.reads counts) k (.ok (bytes, f.seek (f.position + bytes.length))) k := by
  induction counts generalizing f with
  | nil => exact Yields.pure _ k
  | cons count counts ih =>
    intro bytes
    let first := ((k.content f.header l).drop f.position).take count
    let f₁ := f.seek (f.position + first.length)
    have hfirst : Yields (f.read count) k (.ok (first, f₁)) k := read_yields hk hc hlen count
    have hbytes : bytes = first ++ ((k.content f₁.header l).drop f₁.position).take counts.sum := by
      show ((k.content f.header l).drop f.position).take (count :: counts).sum = _
      rw [List.sum_cons]
      exact (take_drop_append _ _ _ _).symm
    rw [hbytes, List.length_append, ← Nat.add_assoc]
    exact hfirst.bind ((ih (f := f₁) hc hlen).bind (Yields.pure _ k))

end Disk

namespace Handle

variable {d d₀ : Drive} {f : Handle} {l : List Nat}

/-- **Sequential access may be cut anywhere.** On every device without faults whose sectors have
room for data, for every handle whose header counts the blocks that its length needs and whose chain
can be walked, wherever its position is:
* a string `a` and then a string `b` are written as `a ++ b` is: the numbers of bytes add up, and
  the position and every sector are the same in the end;
* so is any number of strings;
* any number of reads one after the other answer together what one read of as many bytes does, with
  the same position in the end, and change nothing.

The position goes no further than the end of the file, or stays where it is behind it. -/
theorem cut_anywhere (hd : d.FaultFree) (hsize : Layout.linkSize < d.device.sectorSize)
    (hblocks : f.header.blocks =
      Layout.blocksFor f.header.length (Layout.dataSize d.device.sectorSize))
    (hchain : f.header.chain d = .ok l d₀) :
    (∀ a b, ∃ n m f₁ f₂ d₁ d₂ d₃, f.write a d = .ok (n, f₁) d₁ ∧ f₁.write b d₁ = .ok (m, f₂) d₂ ∧
      f.write (a ++ b) d = .ok (n + m, f₂) d₃ ∧
      (∀ s, d₃.device.sector? s = d₂.device.sector? s) ∧
      f₁.position ≤ max f.position f.length ∧ f₂.position ≤ max f.position f.length) ∧
    (∀ pieces, ∃ n f₁ d₁ d₂, f.writes pieces d = .ok (n, f₁) d₁ ∧
      f.write pieces.flatten d = .ok (n, f₁) d₂ ∧
      (∀ s, d₂.device.sector? s = d₁.device.sector? s) ∧
      f₁.position ≤ max f.position f.length) ∧
    ∀ counts, ∃ bytes f₁ d₁ d₂, f.reads counts d = .ok (bytes, f₁) d₁ ∧
      f.read counts.sum d = .ok (bytes, f₁) d₂ ∧
      d₁.device = d.device ∧ d₂.device = d.device ∧
      f₁.position ≤ max f.position f.length := by
  have hdata : 0 < d.disk.dataSize := Nat.sub_pos_of_lt hsize
  have hc : d.disk.Chained f.header l := hd.chained hchain
  have hlen := hc.length_le hdata hblocks
  refine ⟨fun a b => ?_, fun pieces => ?_, fun counts => ?_⟩
  · obtain ⟨k₁, hy₁, hwrote₁, hc₁⟩ := Disk.write_yields hdata hc hlen a
    obtain ⟨d₁, hrun₁, hd₁, rfl⟩ := hy₁ d hd rfl
    have hsame : d₁.disk.dataSize = d.disk.dataSize := hwrote₁.keeps.dataSize
    let f₁ := f.seek (f.position + (a.take (f.header.length - f.position)).length)
    obtain ⟨k₂, hy₂, hwrote₂, -⟩ :=
      Disk.write_yields (f := f₁) (hsame ▸ hdata) hc₁ (hsame ▸ hlen) b
    obtain ⟨d₂, hrun₂, hd₂, rfl⟩ := hy₂ d₁ hd₁ rfl
    obtain ⟨k₃, hy₃, hwrote₃, -⟩ := Disk.write_yields hdata hc hlen (a ++ b)
    obtain ⟨d₃, hrun₃, hd₃, rfl⟩ := hy₃ d hd rfl
    rw [Disk.take_append_clamp] at hrun₃ hwrote₃
    rw [List.length_append, ← Nat.add_assoc] at hrun₃
    have hfirst : f₁.position ≤ max f.position f.length := f.position_le (List.length_take_le _ _)
    have hsecond := f₁.position_le (List.length_take_le (f₁.header.length - f₁.position) b)
    have hdisk : d₃.disk = d₂.disk := hwrote₃.unique (hwrote₁.append hdata hwrote₂)
    exact ⟨_, _, f₁, _, d₁, d₂, d₃, hrun₁, hrun₂, hrun₃, hd₃.sector?_eq hd₂ hdisk,
      hfirst, Nat.le_trans hsecond (Nat.max_le.mpr ⟨hfirst, Nat.le_max_right _ _⟩)⟩
  · obtain ⟨k₁, hy₁, hwrote₁, -⟩ := Disk.writes_yields hdata hc hlen pieces
    obtain ⟨d₁, hrun₁, hd₁, rfl⟩ := hy₁ d hd rfl
    obtain ⟨k₂, hy₂, hwrote₂, -⟩ := Disk.write_yields hdata hc hlen pieces.flatten
    obtain ⟨d₂, hrun₂, hd₂, rfl⟩ := hy₂ d hd rfl
    exact ⟨_, _, d₁, d₂, hrun₁, hrun₂, hd₂.sector?_eq hd₁ (hwrote₂.unique hwrote₁),
      f.position_le (List.length_take_le _ _)⟩
  · have hmany := Disk.reads_yields hdata hc hlen counts
    have hone := Disk.read_yields hdata hc hlen counts.sum
    obtain ⟨d₁, hrun₁, hdevice₁⟩ := hd.run (f.reads_still counts) hmany
    obtain ⟨d₂, hrun₂, hdevice₂⟩ := hd.run (f.read_still counts.sum) hone
    have hlength : (((d.disk.content f.header l).drop f.position).take counts.sum).length ≤
        f.header.length - f.position := by
      rw [List.length_take, List.length_drop, Disk.length_content hlen]
      exact Nat.min_le_right _ _
    exact ⟨_, _, d₁, d₂, hrun₁, hrun₂, hdevice₁, hdevice₂, f.position_le hlength⟩

/-- Two strings are written to a file at byte 7. The second one reaches into the next block, and is
cut at the end of the file. -/
theorem cut_anywhere_across : ∃ (d d₀ d₁ d₂ d₃ : Drive) (f f₁ f₂ : Handle) (n m : Nat),
    d.FaultFree ∧ f.header.chain d = .ok [3, 1] d₀ ∧ f.position = 7 ∧
    f.write [1, 2] d = .ok (n, f₁) d₁ ∧ f₁.write [3, 4, 5, 6] d₁ = .ok (m, f₂) d₂ ∧
    f.write [1, 2, 3, 4, 5, 6] d = .ok (n + m, f₂) d₃ ∧
    ∀ s, d₃.device.sector? s = d₂.device.sector? s := by
  have hd : (twelveOn fun _ _ => false).FaultFree := ⟨reliable_twelveOn _, rfl⟩
  obtain ⟨d₀, hchain⟩ := chain_twelveOn
  obtain ⟨hcut, -⟩ := cut_anywhere hd (by decide) (by decide) hchain
  obtain ⟨n, m, f₁, f₂, d₁, d₂, d₃, hfirst, hsecond, hboth, hsame, -⟩ := hcut [1, 2] [3, 4, 5, 6]
  exact ⟨_, d₀, d₁, d₂, d₃, twelve, f₁, f₂, n, m, hd, hchain, rfl, hfirst, hsecond, hboth, hsame⟩

end Handle

end SectorChain
