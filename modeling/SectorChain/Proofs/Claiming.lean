import SectorChain.Proofs.Making
import SectorChain.Proofs.Tearing

/-!
# Claiming sectors under faults

The sectors of a new file are written before anything leads to them. An access that fails on the
way leaves some of them written: all are free in the map that the new file was claimed from, and no
other sector is written.

Results:
* `grow_survives`, `allocate_survives`: a chain that was claimed is linked; an error is answered
  with writes to free sectors only.
* `writeNew_survives`: the header and the first table of a new file go to its own sectors.
-/

namespace SectorChain

namespace Disk

variable {F : Faults} {k : Disk} {m : FreeMap} {C : VolumeError → Disk → Prop}

/-! ## Growing a chain -/

theorem putNext_survives (hk : 0 < k.dataSize) {p s : Nat} (hp : p < k.sectors)
    (hs : s < k.sectors) :
    Survives F (do
      ({ sector := p, next := some s, data := Bytes.zeros k.dataSize } : Block).store
      ({ sector := s, next := none, data := Bytes.zeros k.dataSize } : Block).store) k
      (fun _ k' => k' = k.putNext p s) (fun _ k' => k.Keeps k' fun t => t ≠ p ∧ t ≠ s) := by
  have hlen : (Bytes.zeros k.dataSize).length = k.dataSize := Bytes.length_zeros _
  refine Survives.bind ((store_survives (b := ⟨p, some s, Bytes.zeros k.dataSize⟩) hk hp
    hlen).mono (fun _ _ => id) ?_) ?_
  · rintro e k' ⟨rfl, -⟩
    exact Keeps.refl _ _
  · rintro - k' rfl
    refine (store_survives (k := k.putBlock ⟨p, some s, Bytes.zeros k.dataSize⟩)
      (b := ⟨s, none, Bytes.zeros k.dataSize⟩) hk hs hlen).mono (fun _ _ => id) ?_
    rintro e k' ⟨rfl, -⟩
    exact (keeps_putBlock k ⟨p, some s, _⟩).mono fun _ ht => ht.1

/-- **Growing behind a block** chains free sectors to it, or answers an error. -/
theorem grow_survives (hk : 0 < k.dataSize) (hsectors : m.size = k.sectors)
    (hlimit : k.sectors ≤ Link.limit) {p : Nat} (hp : p < k.sectors)
    (hbehind : ∀ s ∈ m.free, p < s) (hblock : k.HasBlock p none) (count : Nat) :
    Survives F (Header.grow k.dataSize count (some ⟨p, none, Bytes.zeros k.dataSize⟩) m) k
      (fun r k' => k.Keeps k' (· ∉ p :: m.free) ∧ (r.2 = .ok () → count ≤ m.free.length ∧
        r.1 = (m.free.take count).foldl FreeMap.mark m ∧
          k'.Linked (p :: m.free.take count))) C := by
  induction count generalizing k m p with
  | zero =>
    exact Survives.pure ⟨Keeps.refl k _, fun _ => ⟨Nat.zero_le _, rfl, hblock, trivial⟩⟩
  | succ count ih =>
    have hnext : m.freeFrom? (p + 1) = m.free.head? := FreeMap.freeFrom?_eq hbehind
    unfold Header.grow
    simp only [Option.elim_some, hnext]
    cases hfree : m.free with
    | nil => exact Survives.pure ⟨Keeps.refl k _, by rintro ⟨⟩⟩
    | cons s rest =>
      have hps : p < s := hbehind s (hfree ▸ List.mem_cons_self)
      obtain ⟨hs, hrest⟩ := FreeMap.lt_of_free_cons hfree
      rw [hsectors] at hs
      have hmark : (m.mark s).free = rest := FreeMap.free_mark_head hfree
      have hkeep : ∀ {k'}, (k.Keeps k' fun t => t ≠ p ∧ t ≠ s) →
          k.Keeps k' (· ∉ p :: s :: rest) := fun h => h.mono fun t ht =>
        ⟨fun heq => ht (heq ▸ List.mem_cons_self),
          fun heq => ht (heq ▸ List.mem_cons_of_mem _ List.mem_cons_self)⟩
      dsimp only [List.head?_cons]
      refine Survives.bind (putNext_survives hk hp hs).attempt ?_
      rintro - k₁ (⟨_, rfl, rfl⟩ | ⟨e, rfl, hout⟩)
      · obtain ⟨hprev, hlast, -⟩ := hasBlock_putNext hk hp hs (by omega)
        have hlt := Nat.lt_of_lt_of_le hs hlimit
        have hprev := hprev (Nat.lt_of_lt_of_le hp hlimit)
        have hlast := hlast hlt
        rw [Link.target_ofSector hlt] at hprev
        have hgrow := ih (k := k.putNext p s) (m := m.mark s) (p := s) hk
          (by rw [FreeMap.size_mark]; exact hsectors) hlimit hs (by rw [hmark]; exact hrest) hlast
        rw [hmark] at hgrow
        refine hgrow.mono ?_ fun _ _ => id
        rintro r k' ⟨hkeep', hok⟩
        refine ⟨(hkeep (keeps_putNext k p s)).trans
          (hkeep'.mono fun t ht hmem => ht (List.mem_cons_of_mem _ hmem)), fun hr => ?_⟩
        obtain ⟨hcount, hm, hlinked⟩ := hok hr
        refine ⟨Nat.succ_le_succ hcount, hm, hprev.keeps hkeep' ?_, hlinked⟩
        rintro hmem
        rcases List.mem_cons.mp hmem with rfl | hmem
        · exact absurd hps (Nat.lt_irrefl p)
        · have := hrest p hmem
          omega
      · exact Survives.pure ⟨hkeep hout, by rintro ⟨⟩⟩

/-- A chain from nothing. -/
theorem growNew_survives (hk : 0 < k.dataSize) (hsectors : m.size = k.sectors)
    (hlimit : k.sectors ≤ Link.limit) (count : Nat) :
    Survives F (Header.grow k.dataSize count none m) k
      (fun r k' => k.Keeps k' (· ∉ m.free) ∧ (r.2 = .ok () → count ≤ m.free.length ∧
        r.1 = (m.free.take count).foldl FreeMap.mark m ∧ k'.Linked (m.free.take count))) C := by
  cases count with
  | zero => exact Survives.pure ⟨Keeps.refl k _, fun _ => ⟨Nat.zero_le _, rfl, trivial⟩⟩
  | succ count =>
    have hnext : m.freeFrom? 0 = m.free.head? := FreeMap.freeFrom?_eq fun _ _ => Nat.zero_le _
    unfold Header.grow
    simp only [Option.elim_none, hnext]
    cases hfree : m.free with
    | nil => exact Survives.pure ⟨Keeps.refl k _, by rintro ⟨⟩⟩
    | cons s rest =>
      obtain ⟨hs, hrest⟩ := FreeMap.lt_of_free_cons hfree
      rw [hsectors] at hs
      have hmark : (m.mark s).free = rest := FreeMap.free_mark_head hfree
      have hlen : (Bytes.zeros k.dataSize).length = k.dataSize := Bytes.length_zeros _
      dsimp only [List.head?_cons]
      refine Survives.bind (store_survives (b := ⟨s, none, Bytes.zeros k.dataSize⟩) hk hs
        hlen).attempt ?_
      rintro - k₁ (⟨_, rfl, rfl⟩ | ⟨e, rfl, rfl, -⟩)
      · have hblock : (k.putBlock ⟨s, none, Bytes.zeros k.dataSize⟩).HasBlock s none :=
          hasBlock_putBlock (b := ⟨s, none, Bytes.zeros k.dataSize⟩) hk hs
            (Nat.lt_of_lt_of_le hs hlimit) (by rintro t ⟨⟩) hlen
        have hgrow := grow_survives (F := F) (C := C) (m := m.mark s)
          (k := k.putBlock ⟨s, none, Bytes.zeros k.dataSize⟩) hk
          (by rw [FreeMap.size_mark]; exact hsectors) hlimit hs (by rw [hmark]; exact hrest) hblock
          count
        rw [hmark] at hgrow
        refine hgrow.mono ?_ fun _ _ => id
        rintro r k' ⟨hkeep, hok⟩
        refine ⟨((keeps_putBlock k ⟨s, none, _⟩).mono fun t ht heq =>
          ht (heq ▸ List.mem_cons_self)).trans hkeep, fun hr => ?_⟩
        obtain ⟨hcount, hm, hlinked⟩ := hok hr
        exact ⟨Nat.succ_le_succ hcount, hm, hlinked⟩
      · exact Survives.pure ⟨Keeps.refl _ _, by rintro ⟨⟩⟩

/-! ## New files -/

/-- **A new file** is chained in the first free sectors of the map, or an error is answered. -/
theorem allocate_survives (hk : 0 < k.dataSize) (hsectors : m.size = k.sectors)
    (hlimit : k.sectors ≤ Link.limit) (size : Nat) :
    Survives F (Header.allocate m size) k
      (fun r k' => k.Keeps k' (· ∉ m.free) ∧ ∀ h, r.2 = .ok h →
        r.1 = (m.free.take (Layout.blocksFor size k.dataSize)).foldl FreeMap.mark m ∧
        (m.free.take (Layout.blocksFor size k.dataSize)).length =
          Layout.blocksFor h.length k.dataSize ∧
        k'.Chained h (m.free.take (Layout.blocksFor size k.dataSize))) C := by
  unfold Header.allocate
  refine (Survives.dataSize F k).bind ?_
  rintro _ k₁ ⟨rfl, rfl⟩
  dsimp only
  split
  · split
    · exact Survives.pure ⟨Keeps.refl _ _, by rintro h ⟨⟩⟩
    · refine (growNew_survives hk hsectors hlimit _).bind ?_
      rintro ⟨m', grown⟩ k' ⟨hkeep, hok⟩
      cases grown with
      | error e => exact Survives.pure ⟨hkeep, by rintro h ⟨⟩⟩
      | ok =>
        obtain ⟨hcount, rfl, hlinked⟩ := hok rfl
        refine (Survives.note _).bind ?_
        rintro - k'' rfl
        refine Survives.pure ⟨hkeep, ?_⟩
        rintro h ⟨⟩
        have hlen := List.length_take_of_le hcount
        have hlinks := FreeMap.lt_of_mem_take_free
          (n := Layout.blocksFor size k₁.dataSize) (hsectors ▸ hlimit)
        have hfirst := firstFree_target m fun s hs => Nat.lt_trans (hlinks s hs) (by decide)
        rw [named_of_lt hlinks] at hfirst
        exact ⟨rfl, hlen, hlinked, hfirst, hlen.symm⟩
  · exact Survives.pure ⟨Keeps.refl _ _, by rintro h ⟨⟩⟩

/-- **The header and the first table** of a new file go to its own sectors. -/
theorem writeNew_survives (hk : 0 < k.dataSize) (hsize : Layout.headerSize ≤ k.sectorSize)
    {kind : Kind} {s : Nat} {h : Header} {c : List Nat} (hs : s < k.sectors) (hsc : s ∉ c)
    (hc : k.Chained h c) (hblocks : c.length = Layout.blocksFor h.length k.dataSize) :
    Survives F (Volume.writeNew kind s h) k (fun _ k' => k.Keeps k' (· ∉ s :: c))
      (fun _ k' => k.Keeps k' (· ∉ s :: c)) := by
  have hput : k.Keeps (k.putHeader s h) (· ∉ s :: c) :=
    (keeps_putHeader k s h).mono fun t ht heq => ht (heq ▸ List.mem_cons_self)
  refine Survives.bind ((storeHeader_survives hs h).mono (fun _ _ => id) ?_) ?_
  · rintro e k' ⟨rfl, -⟩
    exact Keeps.refl _ _
  · rintro - k' rfl
    cases kind with
    | file => exact Survives.pure hput
    | directory =>
      have hfile := hasFile_putHeader hsize hs hsc hc hblocks
      have hrest : ∀ {k'}, (k.putHeader s h).Keeps k' (· ∉ c) → k.Keeps k' (· ∉ s :: c) :=
        fun hkeep => hput.trans (hkeep.mono fun t ht hmem => ht (List.mem_cons_of_mem _ hmem))
      refine Survives.read (Handle.fetch_candid s) hfile.open_yields (fun _ _ => hput) ?_
      exact (hfile.overwrite_survives hk rfl hsc _).mono (fun _ _ h => hrest h.1)
        fun _ _ h => hrest h.2.1

end Disk

end SectorChain
