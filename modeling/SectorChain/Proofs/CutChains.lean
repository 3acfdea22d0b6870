import SectorChain.Proofs.BlockLookup
import SectorChain.Proofs.OneRecord

/-!
# Chains that end early

On a device with more sectors than links can name, the chain of a file goes only as far as its
sectors have links: its header counts more blocks than there are. `Disk.Begins k p` is what is left
of a file then. Its bytes are read and written up to where the chain ends, and no access goes
anywhere else.

Results:
* `Linked.blockAt_cases`: a lookup finds a block of the chain or fails.
* `writeAt_within`: a write changes the blocks of the chain only, whether it succeeds or not.
* `Lies.store_yields`: with room for it, a table is written to the chain.
* `Begins.store_fails`: without, writing a table fails.
-/

namespace SectorChain

namespace Disk

variable {k k' : Disk} {p p' : Place} {l : List Nat} {f : Handle} {table : Directory}

/-- **A file begins at the place**: its header is in its sector, and leads to the chain. The header
may count more blocks. -/
structure Begins (k : Disk) (p : Place) : Prop where
  header : k.HasHeader p.sector p.header
  linked : k.Linked p.chain
  first : p.header.first.target = p.chain.head?

theorem Lies.begins (h : k.Lies p) : k.Begins p := ⟨h.header, h.chained.linked, h.chained.first⟩

namespace Begins

theorem keeps {q : Nat → Prop} (h : k.Begins p) (hk : k.Keeps k' q) (hp : ∀ s ∈ p.sectors, q s) :
    k'.Begins p :=
  ⟨h.header.keeps hk (hp _ List.mem_cons_self),
    h.linked.keeps hk fun s hs => hp s (List.mem_cons_of_mem _ hs), h.first⟩

/-- There is only one file with its header in a sector. -/
theorem unique (h : k.Begins p) (h' : k.Begins p') (hsector : p.sector = p'.sector) : p = p' := by
  obtain ⟨s, header, chain⟩ := p
  obtain ⟨s', header', chain'⟩ := p'
  obtain rfl : s = s' := hsector
  obtain rfl : header = header' := h.header.unique h'.header
  obtain rfl : chain = chain' := h.linked.eq_of_head? h'.linked (h.first.symm.trans h'.first)
  rfl

end Begins

/-! ## Lookups -/

/-- Blocks behind the end of a chain are not found. -/
theorem follow_short (h : k.Linked l) (blocks hops : Nat) {i : Nat} (hi : i < l.length)
    (hshort : l.length ≤ i + hops) (index : Nat) :
    ∃ x, Yields (Header.follow blocks hops index ⟨l[i], l[i + 1]?, k.dataAt l[i]⟩) k
      (.error x) k := by
  induction hops generalizing i index with
  | zero => omega
  | succ hops ih =>
    unfold Header.follow
    dsimp only
    by_cases hnext : i + 1 < l.length
    · obtain ⟨x, hx⟩ := ih hnext (by omega) (index + 1)
      rw [List.getElem?_eq_getElem hnext]
      exact ⟨x, (h.hasBlock hnext).fetch_yields.bind hx⟩
    · rw [List.getElem?_eq_none (by omega)]
      exact ⟨_, Yields.corrupt _ k⟩

/-- **A lookup** finds the block at its place in the chain, or fails. -/
theorem Linked.blockAt_cases (h : k.Linked l) {header : Header}
    (hfirst : header.first.target = l.head?) {offset i : Nat} (hoff : offset / k.dataSize = i) :
    (∃ hi : i < l.length, Yields (header.blockAt offset) k
      (.ok ⟨l[i], l[i + 1]?, k.dataAt l[i]⟩) k) ∨
      ∃ x, Yields (header.blockAt offset) k (.error x) k := by
  by_cases hblocks : header.blocks ≤ offset / k.dataSize
  · exact .inr ⟨_, blockAt_past hblocks⟩
  have hlookup : ∀ {r : Except VolumeError Block} (hpos : 0 < l.length),
      Yields (Header.follow header.blocks i 0 ⟨l[0], l[1]?, k.dataAt l[0]⟩) k r k →
      Yields (header.blockAt offset) k r k := fun hpos hy => by
    refine (Yields.dataSize k).bind ?_
    dsimp only
    rw [if_neg hblocks, hoff, hfirst, List.head?_eq_getElem?, List.getElem?_eq_getElem hpos]
    exact (h.hasBlock hpos).fetch_yields.bind hy
  by_cases hi : i < l.length
  · have hy := follow_yields h header.blocks i (i := 0) (by omega) 0
    simp only [Nat.zero_add] at hy
    exact .inl ⟨hi, hlookup (by omega) hy⟩
  · cases hl : l with
    | nil =>
      refine .inr ⟨.corrupt (.noFirstBlock header.length), (Yields.dataSize k).bind ?_⟩
      dsimp only
      rw [if_neg hblocks, hfirst, hl]
      exact Yields.corrupt _ k
    | cons s rest =>
      rw [← hl]
      have hpos : 0 < l.length := hl ▸ Nat.succ_pos _
      obtain ⟨x, hx⟩ := follow_short h header.blocks i hpos (by omega) 0
      exact .inr ⟨x, hlookup hpos hx⟩

/-! ## Writes -/

/-- Writing block by block changes the blocks of the chain only. -/
theorem writeBlocks_within (hk : 0 < k.dataSize) (h : k.Linked l)
    (hfirst : f.header.first.target = l.head?) (count : Nat) (bytes : Bytes) (pos : Nat) :
    ∃ r k', Yields (f.writeBlocks k.dataSize count bytes pos) k r k' ∧ k.Keeps k' (· ∉ l) ∧
      k'.Linked l ∧ (r = .ok () → count = 0 ∨ pos / k.dataSize + count ≤ l.length) := by
  induction count generalizing k bytes pos with
  | zero => exact ⟨_, k, Yields.pure _ k, Keeps.refl k _, h, fun _ => .inl rfl⟩
  | succ count ih =>
    rcases h.blockAt_cases hfirst (Nat.mul_div_cancel (pos / k.dataSize) hk) with
      ⟨hi, hblock⟩ | ⟨x, hx⟩
    · obtain ⟨hhas, hkeep, hlinked, -⟩ := h.writtenBlock hk bytes hi
      obtain ⟨r, k', hy, hkeep', hlinked', hok⟩ :=
        ih (k := k.putBlock (k.writtenBlock l bytes pos hi)) hk hlinked
          (bytes.drop (k.dataSize - pos % k.dataSize)) (pos + (k.dataSize - pos % k.dataSize))
      refine ⟨r, k', hblock.bind ((store_yields hk hhas.1 (length_writtenBlock hk bytes hi)).bind
        hy), hkeep.trans hkeep', hlinked', fun hr => .inr ?_⟩
      have hnext := (next_block pos hk).1
      change (pos + (k.dataSize - pos % k.dataSize)) / k.dataSize = _ at hnext
      rcases hok hr with rfl | hcount
      · omega
      · change (pos + (k.dataSize - pos % k.dataSize)) / k.dataSize + count ≤ _ at hcount
        omega
    · exact ⟨_, k, hx.bind_error, Keeps.refl k _, h, nofun⟩

/-- **A write changes the blocks of the chain only**, and leaves it linked, whether it succeeds or
not. If it does, the chain goes as far as the bytes. -/
theorem writeAt_within (hk : 0 < k.dataSize) (h : k.Linked l)
    (hfirst : f.header.first.target = l.head?) (bytes : Bytes) (pos : Nat) :
    ∃ r k', Yields (f.writeAt bytes pos) k r k' ∧ k.Keeps k' (· ∉ l) ∧ k'.Linked l ∧
      ∀ n, r = .ok n → n = min bytes.length (f.length - pos) ∧
        (n = 0 ∨ pos + n ≤ l.length * k.dataSize) := by
  unfold Handle.writeAt
  cases hclamp : Handle.clamp? bytes.length pos f.length with
  | none =>
    refine ⟨_, k, Yields.pure _ k, Keeps.refl k _, h, ?_⟩
    rintro n ⟨⟩
    have := clamp?_eq_none hclamp
    omega
  | some n =>
    obtain ⟨hn, hroom, hmin⟩ := clamp?_eq_some hclamp
    obtain ⟨r, k', hy, hkeep, hlinked, hok⟩ := writeBlocks_within (f := f) hk h hfirst
      (Handle.span n pos k.dataSize) (bytes.take n) pos
    cases r with
    | error x =>
      exact ⟨_, k', (Yields.note _ k).bind ((Yields.dataSize k).bind hy.bind_error), hkeep, hlinked,
        nofun⟩
    | ok =>
      refine ⟨_, k', (Yields.note _ k).bind ((Yields.dataSize k).bind (hy.bind (Yields.pure n k'))),
        hkeep, hlinked, ?_⟩
      rintro n' ⟨⟩
      refine ⟨hmin, .inr ?_⟩
      have hlast : (pos + n - 1) / k.dataSize < l.length := by
        have := hok rfl
        rw [span_eq] at this
        omega
      rw [Nat.div_lt_iff_lt_mul hk] at hlast
      omega

/-- A file stays where it begins when its chain is written to. -/
theorem Begins.written (h : k.Begins p) (houtside : p.sector ∉ p.chain)
    (hkeep : k.Keeps k' (· ∉ p.chain)) (hlinked : k'.Linked p.chain) : k'.Begins p :=
  ⟨h.header.keeps hkeep houtside, hlinked, h.first⟩

/-! ## Tables -/

/-- **A table is written to a chain** that has room for it, and is there then. -/
theorem Lies.store_yields (h : k.Lies p) (hf : f.header = p.header) (houtside : p.sector ∉ p.chain)
    (hlength : Layout.directorySize ≤ p.header.length)
    (hroom : Layout.directorySize ≤ p.chain.length * k.dataSize)
    (hslots : table.slots.length = Layout.directorySlots) :
    ∃ k', Yields (table.store f) k (.ok ()) k' ∧ k.Keeps k' (· ∉ p.chain) ∧
      k'.Tabled ⟨p, table⟩ := by
  have hsize : table.encode.length = Layout.directorySize := by
    rw [Directory.length_encode, hslots]
    rfl
  obtain ⟨k', hy, hkeep, -, hchained, hdata⟩ :=
    writeAt_slice (f := f) h.header.dataSize_pos (hf ▸ h.chained) table.encode 0
      (Nat.le_trans (Nat.min_le_left _ _) (by rwa [hsize, Nat.zero_add]))
  rw [Nat.sub_zero, List.take_of_length_le (by rw [hsize, hf]; exact hlength)] at hdata
  have hkeep' : k.Keeps k' (· ∉ p.chain) :=
    hkeep.mono fun s hs hmem => hs (mem_of_mem_touched hmem)
  refine ⟨k', hy.discard, hkeep', ⟨h.header.keeps hkeep' houtside, hf ▸ hchained⟩, hlength,
    hkeep'.dataSize.symm ▸ hroom, Directory.isIn_iff.mpr ⟨hslots, ?_⟩⟩
  -- the bytes of the table are the first ones of the data
  have hfront : (k'.chainData p.chain).take Layout.directorySize = table.encode := by
    rw [hdata, Bytes.splice, List.take_zero, List.nil_append, Nat.zero_add, ← hsize,
      List.take_left]
  have hlen : Layout.directorySize ≤
      ((k'.content p.header p.chain).take Layout.directorySize).length := by
    rw [content, List.take_take, Nat.min_eq_left hlength, hfront]
    exact Nat.le_of_eq hsize.symm
  rw [Bytes.fit, Bytes.pad_of_le hlen, content, List.take_take, Nat.min_eq_left hlength, hfront]

/-- A table is replaced by another of the same size. -/
theorem Tabled.store_yields {v : Visit} (h : k.Tabled v) (hf : f.header = v.place.header)
    (houtside : v.place.sector ∉ v.place.chain)
    (hslots : table.slots.length = Layout.directorySlots) :
    ∃ k', Yields (table.store f) k (.ok ()) k' ∧ k.Keeps k' (· ∉ v.place.chain) ∧
      k'.Tabled ⟨v.place, table⟩ := h.lies.store_yields hf houtside h.length h.room hslots

/-- **Without room for it** a table is not written, and only the chain may have changed. -/
theorem Begins.store_fails (h : k.Begins p) (hf : f.header = p.header)
    (hlength : p.header.length = Layout.directorySize)
    (hroom : p.chain.length * k.dataSize < Layout.directorySize)
    (hslots : table.slots.length = Layout.directorySlots) :
    ∃ x k', Yields (table.store f) k (.error x) k' ∧ k.Keeps k' (· ∉ p.chain) := by
  obtain ⟨r, k', hy, hkeep, -, hok⟩ := writeAt_within (f := f) h.header.dataSize_pos h.linked
    (hf ▸ h.first) table.encode 0
  cases r with
  | error x => exact ⟨x, k', hy.bind_error, hkeep⟩
  | ok n =>
    obtain ⟨hn, hreach⟩ := hok n rfl
    have hsize : table.encode.length = Layout.directorySize := by
      rw [Directory.length_encode, hslots]
      rfl
    rw [hsize, Handle.length, hf, hlength, Nat.sub_zero, Nat.min_self] at hn
    have hpos : 0 < Layout.directorySize := by decide
    omega

end Disk

end SectorChain
