import SectorChain.Proofs.Slices

/-!
# Lookups and the full walk

A chain is read in two ways. The full walk collects its sectors until they are as many as the
header counts, and fails if the chain is longer or shorter. A lookup goes just as far as an offset
needs, and sees nothing of what is behind that. On any disk, where chains may be cut off, go on too
long or lead back to themselves, the two agree.

* `Disk.Stores k b`: the block `b` is on the disk, with its links and its data.

Results:
* `follow_cases`, `blockAt_cases`: a lookup that answers has gone along linked blocks, and if its
  block is the last one they are a chain.
* `lookup_agrees_with_walk`: after a walk that answers every lookup is known; and lookups that all
  answer are a walk.
-/

namespace SectorChain

namespace Disk

variable {k : Disk}

/-- The block lies in its sector, with these links and these data. -/
structure Stores (k : Disk) (b : Block) : Prop where
  hasBlock : k.HasBlock b.sector b.next
  data : b.data = k.dataAt b.sector

theorem HasBlock.stores {s : Nat} {next : Option Nat} (h : k.HasBlock s next) :
    k.Stores ⟨s, next, k.dataAt s⟩ := ⟨h, rfl⟩

/-- A block on the disk is known by its sector and its next one. -/
theorem Stores.eq {b : Block} (h : k.Stores b) {s : Nat} {next : Option Nat}
    (hs : some s = some b.sector) (hnext : b.next = next) : b = ⟨s, next, k.dataAt s⟩ := by
  cases hs
  cases hnext
  rw [← h.data]

/-- **Blocks are followed over linked sectors**: if the block that is reached has no next one, the
sectors on the way are a whole chain from the first block on. -/
theorem follow_cases (blocks hops index : Nat) {b : Block} (hb : k.Stores b) :
    (∃ b', Yields (Header.follow blocks hops index b) k (.ok b') k ∧
      (b'.next = none → ∃ rest, k.Linked (b.sector :: rest) ∧ rest.length = hops)) ∨
    Fails (Header.follow blocks hops index b) k := by
  induction hops generalizing b index with
  | zero =>
    refine .inl ⟨b, Yields.pure b k, fun hnext => ⟨[], ⟨?_, trivial⟩, rfl⟩⟩
    have hlast := hb.hasBlock
    rwa [hnext] at hlast
  | succ hops ih =>
    unfold Header.follow
    cases hnext : b.next with
    | none => exact .inr (Fails.throw rfl)
    | some s =>
      have hlink := hb.hasBlock
      rw [hnext] at hlink
      rcases k.block_cases s with ⟨next, hs⟩ | hfail
      · rcases ih (index + 1) hs.stores with ⟨b', hy, hend⟩ | hfail
        · refine .inl ⟨b', hs.fetch_yields.bind hy, fun hlast => ?_⟩
          obtain ⟨rest, hlinked, hlen⟩ := hend hlast
          exact ⟨s :: rest, ⟨hlink, hlinked⟩, congrArg (· + 1) hlen⟩
        · exact .inr (Fails.after hs.fetch_yields hfail)
      · exact .inr hfail.bind

theorem blockAt_past {h : Header} {offset : Nat} (hi : h.blocks ≤ offset / k.dataSize) :
    Yields (h.blockAt offset) k (.error (.corrupt (.pastChain offset h.blocks))) k := by
  refine (Yields.dataSize k).bind ?_
  dsimp only
  rw [if_pos hi]
  exact Yields.corrupt _ k

/-- **A lookup that answers with a last block** has gone along a chain that ends there. -/
theorem blockAt_cases (k : Disk) (h : Header) (offset : Nat) :
    (∃ b, Yields (h.blockAt offset) k (.ok b) k ∧
      (b.next = none → ∃ l, k.Linked l ∧ h.first.target = l.head? ∧
        l.length = offset / k.dataSize + 1)) ∨
    Fails (h.blockAt offset) k := by
  by_cases hi : h.blocks ≤ offset / k.dataSize
  · exact .inr ⟨_, blockAt_past hi, rfl⟩
  cases hfirst : h.first.target with
  | none =>
    refine .inr ⟨.corrupt (.noFirstBlock h.length), (Yields.dataSize k).bind ?_, rfl⟩
    dsimp only
    rw [if_neg hi, hfirst]
    exact Yields.corrupt _ k
  | some first =>
    have hlookup : ∀ {r : Except VolumeError Block},
        Yields (Block.fetch first >>= Header.follow h.blocks (offset / k.dataSize) 0) k r k →
        Yields (h.blockAt offset) k r k := fun hy => by
      refine (Yields.dataSize k).bind ?_
      dsimp only
      rwa [if_neg hi, hfirst]
    rcases k.block_cases first with ⟨next, hblock⟩ | ⟨e, hy, he⟩
    · rcases follow_cases h.blocks (offset / k.dataSize) 0 hblock.stores with
        ⟨b, hy, hend⟩ | ⟨e, hy, he⟩
      · refine .inl ⟨b, hlookup (hblock.fetch_yields.bind hy), fun hlast => ?_⟩
        obtain ⟨rest, hlinked, hlen⟩ := hend hlast
        exact ⟨first :: rest, hlinked, rfl, congrArg (· + 1) hlen⟩
      · exact .inr ⟨e, hlookup (hblock.fetch_yields.bind hy), he⟩
    · exact .inr ⟨e, hlookup hy.bind_error, he⟩

/-- The sectors of an offset are those of its block. -/
theorem sectorAt_yields {h : Header} {offset : Nat} {r : Except VolumeError Block}
    (hy : Yields (h.blockAt offset) k r k) :
    Yields (h.sectorAt offset) k (r.map fun b => (b.sector, b.next)) k := by
  cases r with
  | ok b => exact hy.bind (Yields.pure _ k)
  | error e => exact hy.bind_error

end Disk

namespace Header

theorem sectorAt_still (h : Header) (offset : Nat) : Still (h.sectorAt offset) :=
  (h.blockAt_still offset).bind fun _ => Still.pure _

variable {d : Drive} {h : Header}

/-- What is known of a block is known of its sectors, and the device stays as it is. -/
theorem lookup_run (hd : d.FaultFree) {offset : Nat} {r : Except VolumeError Block}
    (hy : Yields (h.blockAt offset) d.disk r d.disk) :
    ∃ d₁ d₂, h.blockAt offset d = ended r d₁ ∧
      h.sectorAt offset d = ended (r.map fun b => (b.sector, b.next)) d₂ ∧
      d₁.device = d.device ∧ d₂.device = d.device := by
  obtain ⟨d₁, hblock, hdevice₁⟩ := hd.run (h.blockAt_still offset) hy
  obtain ⟨d₂, hsector, hdevice₂⟩ := hd.run (h.sectorAt_still offset) (Disk.sectorAt_yields hy)
  exact ⟨d₁, d₂, hblock, hsector, hdevice₁, hdevice₂⟩

/-- The chain of a header whose last block can be looked up, and is the last one. -/
theorem chained_of_last (hd : d.FaultFree) (hdata : 0 < d.disk.dataSize) (hblocks : 0 < h.blocks)
    {b : Block} {d' : Drive} (hlast : h.blockAt ((h.blocks - 1) * d.disk.dataSize) d = .ok b d')
    (hnext : b.next = none) : ∃ l, d.disk.Chained h l := by
  rcases d.disk.blockAt_cases h ((h.blocks - 1) * d.disk.dataSize) with
    ⟨b', hy, hend⟩ | ⟨e, hy, -⟩
  · obtain ⟨d₁, hrun, -⟩ := hy d hd rfl
    cases (ended_eq_ok (hrun.symm.trans hlast)).1
    obtain ⟨l, hlinked, hfirst, hlen⟩ := hend hnext
    rw [Nat.mul_div_cancel _ hdata] at hlen
    exact ⟨l, hlinked, hfirst, by omega⟩
  · obtain ⟨d₁, hrun, -⟩ := hy d hd rfl
    cases (ended_eq_ok (hrun.symm.trans hlast)).1

/-- **Lookups agree with the full walk**, on every device without faults whose sectors have room for
data, whatever they hold.

* If the walk along `h` finds the sectors `l`, an offset whose index `i` is below the number of
  blocks is looked up as the block that lies in `l[i]`, and as this sector and the one behind it in
  `l`, which is none at the end of `l`. Any other offset is past the chain for both.
* If all offsets below the end of the last block are looked up as the blocks that `b` gives, and the
  last of them leads nowhere, the walk finds just their sectors. -/
theorem lookup_agrees_with_walk (hd : d.FaultFree) (hsize : Layout.linkSize < d.device.sectorSize)
    (h : Header) :
    (∀ l d₀, h.chain d = .ok l d₀ → ∀ offset i,
      offset / Layout.dataSize d.device.sectorSize = i →
      (i < h.blocks → ∃ b d₁ d₂, l[i]? = some b.sector ∧ b.next = l[i + 1]? ∧ d.disk.Stores b ∧
        h.blockAt offset d = .ok b d₁ ∧ h.sectorAt offset d = .ok (b.sector, b.next) d₂ ∧
        d₁.device = d.device ∧ d₂.device = d.device) ∧
      (h.blocks ≤ i → ∃ d₁ d₂,
        h.blockAt offset d = .error (.corrupt (.pastChain offset h.blocks)) d₁ ∧
        h.sectorAt offset d = .error (.corrupt (.pastChain offset h.blocks)) d₂ ∧
        d₁.device = d.device ∧ d₂.device = d.device)) ∧
    ∀ b : Nat → Block, 0 < h.blocks →
      (∀ offset, offset < h.blocks * Layout.dataSize d.device.sectorSize →
        ∃ d', h.blockAt offset d = .ok (b offset) d') →
      (b ((h.blocks - 1) * Layout.dataSize d.device.sectorSize)).next = none →
      ∃ d', h.chain d = .ok ((List.range h.blocks).map fun i =>
        (b (i * Layout.dataSize d.device.sectorSize)).sector) d' ∧ d'.device = d.device := by
  have hdata : 0 < d.disk.dataSize := Nat.sub_pos_of_lt hsize
  constructor
  · intro l d₀ hchain offset i hoff
    have hc := hd.chained hchain
    refine ⟨fun hi => ?_, fun hi => ?_⟩
    · have hlt : i < l.length := hc.blocks ▸ hi
      obtain ⟨d₁, d₂, hblock, hsector, hdevices⟩ := lookup_run hd (hc.blockAt_yields hoff hlt)
      exact ⟨_, d₁, d₂, List.getElem?_eq_getElem hlt, rfl, (hc.linked.hasBlock hlt).stores,
        hblock, hsector, hdevices⟩
    · exact lookup_run hd (Disk.blockAt_past (k := d.disk) (hoff.symm ▸ hi))
  · intro b hblocks hall hnext
    have hlast : (h.blocks - 1) * d.disk.dataSize < h.blocks * d.disk.dataSize :=
      Nat.mul_lt_mul_of_pos_right (by omega) hdata
    obtain ⟨d', hlookup⟩ := hall _ hlast
    obtain ⟨l, hc⟩ := chained_of_last hd hdata hblocks hlookup hnext
    -- Each lookup is that of the chain, so the sectors in `b` are those of `l`, one by one.
    have hsectors : (List.range h.blocks).map (fun i =>
        (b (i * Layout.dataSize d.device.sectorSize)).sector) = l := by
      refine List.ext_getElem (by simp [hc.blocks]) fun i hi hlt => ?_
      rw [List.getElem_map, List.getElem_range]
      have hoff : i * d.disk.dataSize < h.blocks * d.disk.dataSize :=
        Nat.mul_lt_mul_of_pos_right (hc.blocks ▸ hlt) hdata
      obtain ⟨d₁, hb⟩ := hall _ hoff
      obtain ⟨d₂, hl, -⟩ := hc.blockAt_yields (Nat.mul_div_cancel i hdata) hlt d hd rfl
      exact congrArg Block.sector (Except.ok.inj (ended_eq_ok (hl.symm.trans hb)).1).symm
    rw [hsectors]
    exact hd.run h.chain_still hc.chain_yields

/-- A file of two blocks: lookups in the second one and behind it, and the walk from the lookups. -/
theorem lookup_agrees_with_walk_twelve : ∃ (d d₁ d₂ d₃ : Drive) (h : Header), d.FaultFree ∧
    Layout.linkSize < d.device.sectorSize ∧ h.sectorAt 11 d = .ok (1, none) d₁ ∧
    h.sectorAt 16 d = .error (.corrupt (.pastChain 16 2)) d₂ ∧
    (∀ offset, offset < 16 → ∃ b d', h.blockAt offset d = .ok b d') ∧
    h.chain d = .ok [3, 1] d₃ := by
  let d := Handle.twelveOn fun _ _ => false
  have hd : d.FaultFree := ⟨Handle.reliable_twelveOn _, rfl⟩
  have hsize : Layout.linkSize < d.device.sectorSize := by decide
  obtain ⟨hlookup, hwalk⟩ := lookup_agrees_with_walk hd hsize Handle.twelve.header
  obtain ⟨d₀, hchain⟩ := Handle.chain_twelveOn
  obtain ⟨-, hpast⟩ := hlookup _ _ hchain 16 2 (by decide)
  obtain ⟨-, d₂, -, hbehind, -⟩ := hpast (by decide)
  let b : Nat → Block := fun offset =>
    if offset < 8 then ⟨3, some 1, d.disk.dataAt 3⟩ else ⟨1, none, d.disk.dataAt 1⟩
  have hall : ∀ offset, offset < 16 → ∃ d₁ d₂, Handle.twelve.header.blockAt offset d =
      .ok (b offset) d₁ ∧
      Handle.twelve.header.sectorAt offset d = .ok ((b offset).sector, (b offset).next) d₂ := by
    intro offset h
    by_cases hlt : offset < 8
    · obtain ⟨hin, -⟩ := hlookup _ _ hchain offset 0 (Nat.div_eq_of_lt hlt)
      obtain ⟨first, d₁, d₂, hs, hnext, hstores, hblock, hsector, -⟩ := hin (by decide)
      obtain rfl := hstores.eq hs hnext
      simp only [b, if_pos hlt]
      exact ⟨d₁, d₂, hblock, hsector⟩
    · have hsecond : offset / 8 = 1 := by omega
      obtain ⟨hin, -⟩ := hlookup _ _ hchain offset 1 hsecond
      obtain ⟨last, d₁, d₂, hs, hnext, hstores, hblock, hsector, -⟩ := hin (by decide)
      obtain rfl := hstores.eq hs hnext
      simp only [b, if_neg hlt]
      exact ⟨d₁, d₂, hblock, hsector⟩
  have hblocks : ∀ offset, offset < 16 → ∃ d', Handle.twelve.header.blockAt offset d =
      .ok (b offset) d' := fun offset h => by
    obtain ⟨d', -, hblock, -⟩ := hall offset h
    exact ⟨d', hblock⟩
  obtain ⟨-, d₁, -, hsector⟩ := hall 11 (by decide)
  obtain ⟨d₃, hfound, -⟩ := hwalk b (by decide) hblocks rfl
  exact ⟨d, d₁, d₂, d₃, Handle.twelve.header, hd, hsize, hsector, hbehind,
    fun offset h => ⟨_, hblocks offset h⟩, hfound⟩

end Header

end SectorChain
