import SectorChain.Proofs.Hermetic
import SectorChain.Proofs.Remounting

/-!
# Stale data

The free sectors of a device keep what was in them: bytes of files that were removed, pieces of
creations that failed, whatever was there before the format. None of it is ever seen. Two states
that differ in their free sectors only answer the same to all calls, and go on to differ in their
free sectors only.

* `Usage.AgreeOnUsed u₁ u₂`: the two states have the same free map on their devices, and the same
  bytes in the sectors that it marks.
* `Usage.Alike inv u₁ u₂`: they have the same volume and the inventory `inv`, with the same bytes
  in its sectors.
* `Usage.Indistinct u₁ u₂`: no calls tell them apart.

Results:
* `format_depends`: a format depends on nothing that is on the device.
* `Alike.call`, `Alike.run`: one call, and any number of calls, in two such states.
* `reached_indistinct`: stale data is unseen, from a format on and from any two states that agree.
-/

namespace SectorChain

namespace Volume

variable {k : Disk}

/-- **A format depends on nothing** that is on the device, and writes to all sectors of the two
files that it makes. -/
theorem format_depends (hlimit : k.sectors ≤ Link.limit)
    (hsize : Layout.headerSize ≤ k.sectorSize) (hroom : minimalSectors k ≤ k.sectors) :
    DependsOn format k (fun _ => False) (· ∈ 0 :: (mapChain k ++ 1 :: rootChain k)) := by
  have hk := Disk.dataSize_pos hsize
  obtain ⟨hfits₀, hfits₁⟩ := fits_of_minimal (Nat.le_trans hlimit (by decide)) hk hroom
  obtain ⟨h₀, h₁, k₁, k₂, k₃, k₄, hy₁, hy₂, hy₃, hy₄, hsame₁, hsame₂, hsame₃, hsame₄, hfile₀,
    hfile₁⟩ := reserve_yields (Nat.le_trans hlimit (by decide)) hsize hk hroom
  let p₀ : Place := ⟨Layout.freeMapSector, h₀, mapChain k⟩
  let p₁ : Place := ⟨Layout.rootSector, h₁, rootChain k⟩
  have hfree₁ : ((mapChain k).foldl FreeMap.mark (.reserved k.sectors)).free =
      (FreeMap.reserved k.sectors).free.drop
        (Layout.blocksFor (Layout.freeMapSize k.sectors) k.dataSize) := FreeMap.free_foldl_mark _ _
  have hmin : 2 ≤ k.sectors := by
    unfold minimalSectors at hroom
    omega
  -- the chains, which are all written
  have hmap : DependsOn (Header.allocate (.reserved k.sectors) (Layout.freeMapSize k.sectors)) k
      (fun _ => False) (· ∈ mapChain k) :=
    (Disk.allocate_depends hk (FreeMap.size_reserved _) hlimit hfits₀).mono (fun _ => id)
      fun _ => .inr
  have hroot : DependsOn (Header.allocate ((mapChain k).foldl FreeMap.mark (.reserved k.sectors))
      Layout.directorySize) k₁ (· ∈ mapChain k) fun s => s ∈ mapChain k ∨ s ∈ rootChain k := by
    have hnew := Disk.allocate_depends (p := (· ∈ mapChain k)) (hsame₁.dataSize ▸ hk)
      (by rw [FreeMap.size_foldl_mark, FreeMap.size_reserved, hsame₁.sectors])
      (hsame₁.sectors ▸ hlimit) (hfits₁ k₁ _ hsame₁.dataSize hfree₁)
    rwa [hfree₁, hsame₁.dataSize] at hnew
  -- the two headers
  let q : Nat → Prop := fun s => ((s ∈ mapChain k ∨ s ∈ rootChain k) ∨ s = Layout.freeMapSector) ∨
    s = Layout.rootSector
  have hheader₀ := Disk.storeHeader_depends (k := k₂)
    (p := fun s => s ∈ mapChain k ∨ s ∈ rootChain k) (s := Layout.freeMapSector)
    (Nat.lt_of_lt_of_eq (Nat.lt_of_lt_of_le (by decide) hmin) hsame₂.sectors.symm) h₀
  have hheader₁ : DependsOn (h₁.store Layout.rootSector) k₃ _ q := Disk.storeHeader_depends
    (Nat.lt_of_lt_of_eq (Nat.lt_of_lt_of_le (by decide) hmin) hsame₃.sectors.symm) h₁
  have hopened : ∀ k', k₄.Keeps k' q →
      Yields opened k' (.ok ⟨p₀.handle, p₁.handle, .empty Layout.maxOpen⟩) k' := fun k' hkeep =>
    (hfile₀.header.keeps hkeep (.inl (.inr rfl))).open_yields.bind
      ((hfile₁.header.keeps hkeep (.inr rfl)).open_yields.bind (Yields.pure _ k'))
  -- the free map and the root table
  have hk₄ : 0 < k₄.dataSize := hsame₄.dataSize.symm ▸ hk
  have hfill := hfile₀.writes_depend (f := p₀.handle) (g := p₁.handle) (p := q)
    (x := pure (⟨p₀.handle, p₁.handle, .empty Layout.maxOpen⟩ : Volume)) hfile₁ hk₄ rfl rfl
    (notMem_mapChain (s := 0) (by decide)) (notMem_rootChain (s := 1) (by decide))
    (fun s hs => root_notMem_mapChain hs)
    (fun s hs => .inl (.inl (.inl hs))) (fun s hs => .inl (.inl (.inr hs)))
    ((initialMap k).firstBytes (min (initialMap k).stored p₀.handle.length))
    (Directory.empty Layout.directorySlots).encode fun _ => .pure _
  have hall : DependsOn format k (fun _ => False) q :=
    DependsOn.after (fun k' h => checkGeometry_yields (h.sectorSize.symm ▸ hsize))
      (DependsOn.after (fun k' h => h.sectors ▸ Yields.sectors k')
        (DependsOn.after (fun k' h => h.sectorSize ▸ Yields.sectorSize k')
          ((DependsOn.note _).bind (Yields.note _ k) (hmap.bind hy₁
            ((DependsOn.pure h₀).bind (Yields.pure h₀ k₁) (hroot.bind hy₂
              ((DependsOn.pure h₁).bind (Yields.pure h₁ k₂) (hheader₀.bind hy₃
                (hheader₁.bind hy₄ (DependsOn.after hopened hfill))))))))))
  refine hall.mono (fun _ => id) fun s hs => ?_
  rcases List.mem_cons.mp hs with hs | hs
  · exact .inl (.inr hs)
  · rcases List.mem_append.mp hs with hs | hs
    · exact .inl (.inl (.inl hs))
    · exact (List.mem_cons.mp hs).elim .inr fun hs => .inl (.inl (.inr hs))

end Volume

namespace Usage

/-! ## States with the same files -/

/-- **The same free map** is on both devices, and the same bytes in the sectors in use. -/
def AgreeOnUsed (u₁ u₂ : Usage) : Prop :=
  ∃ m, u₁.ask u₁.volume.freeMap = .ok m ∧ u₂.ask u₂.volume.freeMap = .ok m ∧
    ∀ s, m.isUsed s = true → u₁.drive.device.sector? s = u₂.drive.device.sector? s

/-- **No calls tell the states apart**: whatever is permitted in one is permitted in the other, the
answers and errors are the same, and the states then agree on the sectors in use. -/
def Indistinct (u₁ u₂ : Usage) : Prop :=
  ∀ qs, u₁.Permits qs → u₂.Permits qs ∧ (u₁.run qs).1 = (u₂.run qs).1 ∧
    AgreeOnUsed (u₁.run qs).2 (u₂.run qs).2

/-- Two states with one volume and one inventory, and the same bytes in the sectors of files. -/
structure Alike (inv : Inventory) (u₁ u₂ : Usage) : Prop where
  left : u₁.Sound inv
  right : u₂.Sound inv
  volume : u₁.volume = u₂.volume
  keeps : u₁.drive.disk.Keeps u₂.drive.disk (· ∈ inv.sectors)

variable {blank₁ blank₂ : Drive} {u u₁ u₂ : Usage} {inv : Inventory} {q : Request}

/-- A call in terms of the operation that it performs. -/
theorem call_of_ended {r : Except VolumeError (Answer × Volume)} {d : Drive}
    (h : q.perform u.volume u.drive = ended r d) : (u.call q).1 = r.map Prod.fst ∧
      (u.call q).2.drive = d ∧ (u.call q).2.volume = r.toOption.elim u.volume Prod.snd := by
  cases r with
  | ok p =>
    rw [call_of_ok h]
    exact ⟨rfl, rfl, rfl⟩
  | error e =>
    rw [call_of_error h]
    exact ⟨rfl, rfl, rfl⟩

namespace Alike

theorem agree (h : Alike inv u₁ u₂) : AgreeOnUsed u₁ u₂ := by
  refine ⟨inv.freeMap u₁.drive.disk.sectors,
    ask_eq h.left.fault_free h.left.consistent.freeMap_yields, ?_, fun s hs => ?_⟩
  · rw [← h.keeps.sectors]
    exact ask_eq h.right.fault_free h.right.consistent.freeMap_yields
  · exact (h.keeps.sector?_eq h.left.fault_free h.right.fault_free
      ((h.left.consistent.used s).mp hs)).symm

/-- **One call** in two states that are alike: it ends in the same way, and they are alike again. -/
theorem call (h : Alike inv u₁ u₂) (hq : q.Permitted u₁) :
    q.Permitted u₂ ∧ (u₁.call q).1 = (u₂.call q).1 ∧
      ∃ inv', Alike inv' (u₁.call q).2 (u₂.call q).2 := by
  have hq₂ := (h.left.permitted_iff h.right h.volume q).mp hq
  obtain ⟨r, k', v', inv', hy, hv', hdepends⟩ := h.left.perform_hermetic hq
  obtain ⟨r', d₁, d₂, h₁, h₂, hd₁, hd₂, hkeep⟩ :=
    hdepends u₁.drive u₂.drive h.left.fault_free h.right.fault_free rfl h.keeps
  obtain ⟨d, hd, -, rfl⟩ := hy u₁.drive h.left.fault_free rfl
  obtain ⟨rfl, rfl⟩ := ended_inj (h₁.symm.trans hd)
  obtain ⟨inv₁, -, hs₁, -⟩ := h.left.call hq
  obtain ⟨inv₂, -, hs₂, -⟩ := h.right.call hq₂
  rw [h.volume] at h₂
  obtain ⟨hanswer₁, hdrive₁, hvolume₁⟩ := call_of_ended h₁
  obtain ⟨hanswer₂, hdrive₂, hvolume₂⟩ := call_of_ended h₂
  rw [← h.volume, ← hvolume₁] at hvolume₂
  -- what belongs to a file then is known from the first state
  rw [← hdrive₁] at hd₁ hv' hkeep
  rw [← hdrive₂] at hd₂ hkeep
  obtain rfl := hs₁.consistent.unique hd₁ hv'
  have hv₂ := hs₁.consistent.keeps hkeep fun _ => id
  obtain rfl := hs₂.consistent.unique hd₂ hv₂
  exact ⟨hq₂, hanswer₁.trans hanswer₂.symm, inv₂, hs₁, hs₂, hvolume₂.symm, hkeep⟩

/-- **Any number of calls** in two states that are alike. -/
theorem run (h : Alike inv u₁ u₂) : Indistinct u₁ u₂ := by
  intro qs hqs
  induction qs generalizing u₁ u₂ inv with
  | nil => exact ⟨trivial, rfl, h.agree⟩
  | cons q rest ih =>
    obtain ⟨hq, hrest⟩ := hqs
    obtain ⟨hq₂, hanswer, inv', h'⟩ := h.call hq
    obtain ⟨hpermits, hanswers, hagree⟩ := ih h' hrest
    exact ⟨⟨hq₂, hpermits⟩, congrArg₂ List.cons hanswer hanswers, hagree⟩

end Alike

/-- **States that agree on the sectors in use** have the same files, and with the same files open
the same volume. -/
theorem Sound.alike (h₁ : u₁.Sound inv) (hv₁ : u₁.volume.Settled inv) {inv₂ : Inventory}
    (h₂ : u₂.Sound inv₂) (hv₂ : u₂.volume.Settled inv₂)
    (hopen : u₁.volume.openFiles = u₂.volume.openFiles) (hagree : AgreeOnUsed u₁ u₂) :
    Alike inv u₁ u₂ := by
  obtain ⟨m, hm₁, hm₂, hbytes⟩ := hagree
  rw [ask_eq h₁.fault_free h₁.consistent.freeMap_yields] at hm₁
  rw [ask_eq h₂.fault_free h₂.consistent.freeMap_yields] at hm₂
  cases hm₁
  have hsectors : u₂.drive.disk.sectors = u₁.drive.disk.sectors :=
    congrArg FreeMap.size (Except.ok.inj hm₂)
  have hsame : ∀ s ∈ inv.sectors, u₂.drive.disk.bytes s = u₁.drive.disk.bytes s := by
    intro s hs
    have hlt : s < u₁.drive.device.sectors := h₁.consistent.lt_sectors hs
    have hlt₂ : s < u₂.drive.device.sectors := Nat.lt_of_lt_of_eq hlt hsectors.symm
    have hsector := hbytes s ((h₁.consistent.used s).mpr hs)
    rw [Device.sector?_eq h₁.fault_free.reliable, Device.sector?_eq h₂.fault_free.reliable,
      if_pos hlt, if_pos hlt₂] at hsector
    exact (Option.some.inj hsector).symm
  have hmap : inv.mapFile.place.sector ∈ inv.sectors :=
    Inventory.mem_of_map List.mem_cons_self
  have hsize : u₂.drive.disk.sectorSize = u₁.drive.disk.sectorSize := by
    have hlen := congrArg List.length (hsame _ hmap)
    rwa [Disk.length_bytes, Disk.length_bytes] at hlen
  have hkeep : u₁.drive.disk.Keeps u₂.drive.disk (· ∈ inv.sectors) := ⟨hsectors, hsize, hsame⟩
  obtain rfl := (h₁.consistent.keeps hkeep fun _ => id).unique h₂.fault_free h₂.consistent
  exact ⟨h₁, h₂, hv₁.eq_of_openFiles hv₂ hopen, hkeep⟩

/-! ## Formatting -/

/-- **Formatting two devices** of one geometry, whatever is on them: both formats fail with the same
error, or both answer the same volume. -/
theorem format_alike (h₁ : blank₁.FaultFree) (h₂ : blank₂.FaultFree)
    (hlimit : blank₁.device.sectors ≤ Link.limit) (hsame : blank₁.disk.SameSize blank₂.disk) :
    (∃ e d₁ d₂, Volume.format blank₁ = .error e d₁ ∧ Volume.format blank₂ = .error e d₂) ∨
      ∃ v d₁ d₂ inv, Volume.format blank₁ = .ok v d₁ ∧ Volume.format blank₂ = .ok v d₂ ∧
        Alike inv { drive := d₁, volume := v } { drive := d₂, volume := v } := by
  have hlimit₂ : blank₂.device.sectors ≤ Link.limit :=
    Nat.le_trans (Nat.le_of_eq hsame.sectors) hlimit
  by_cases hsize : Layout.headerSize ≤ blank₁.disk.sectorSize
  · by_cases hroom : Volume.minimalSectors blank₁.disk ≤ blank₁.disk.sectors
    · obtain ⟨v, k', inv, hy, hv, -, -, -, hsectors⟩ := Volume.format_yields hlimit hsize hroom
      obtain ⟨r, d₁, d₂, hformat₁, hformat₂, hd₁, hd₂, hkeep⟩ :=
        Volume.format_depends hlimit hsize hroom blank₁ blank₂ h₁ h₂ rfl hsame
      obtain ⟨d, hd, -, rfl⟩ := hy blank₁ h₁ rfl
      obtain ⟨rfl, rfl⟩ := ended_inj (hformat₁.symm.trans hd)
      rw [← hsectors] at hkeep
      obtain ⟨inv₁, hs₁, -⟩ := sound_of_format h₁ hlimit hformat₁
      obtain ⟨inv₂, hs₂, -⟩ := sound_of_format h₂ hlimit₂ hformat₂
      obtain rfl := hs₁.consistent.unique hd₁ hv
      obtain rfl := (hv.keeps hkeep fun _ => id).unique hd₂ hs₂.consistent
      exact .inr ⟨v, d₁, d₂, _, hformat₁, hformat₂, hs₁, hs₂, rfl, hkeep⟩
    · have hfull : ∀ {k : Disk}, blank₁.disk.SameSize k → k.sectors < Volume.minimalSectors k := by
        intro k hk
        unfold Volume.minimalSectors at *
        rw [hk.sectors, hk.dataSize]
        exact Nat.not_le.mp hroom
      obtain ⟨k₁, hy₁⟩ := Volume.format_full (Nat.le_trans hlimit (by decide)) hsize
        (hfull (Disk.Keeps.refl _ _))
      obtain ⟨k₂, hy₂⟩ := Volume.format_full (k := blank₂.disk)
        (Nat.le_trans hlimit₂ (by decide)) (hsame.sectorSize.symm ▸ hsize) (hfull hsame)
      obtain ⟨d₁, hformat₁, -, -⟩ := hy₁ blank₁ h₁ rfl
      obtain ⟨d₂, hformat₂, -, -⟩ := hy₂ blank₂ h₂ rfl
      exact .inl ⟨_, d₁, d₂, hformat₁, hformat₂⟩
  · have hy₁ := Volume.format_refused (Nat.not_le.mp hsize)
    have hy₂ := Volume.format_refused (k := blank₂.disk)
      (hsame.sectorSize.symm ▸ Nat.not_le.mp hsize)
    rw [hsame.sectorSize] at hy₂
    obtain ⟨d₁, hformat₁, -, -⟩ := hy₁ blank₁ h₁ rfl
    obtain ⟨d₂, hformat₂, -, -⟩ := hy₂ blank₂ h₂ rfl
    exact .inl ⟨_, d₁, d₂, hformat₁, hformat₂⟩

/-! ## What is never seen -/

/-- **Stale data is unseen.** On two devices of one geometry, with anything on them, formats fail
with the same error, or answer the same volume in states that no calls tell apart. Nor do any calls
tell two states of runs apart, on any devices, with the same files open and the same bytes in the
sectors in use, whatever is in the free sectors of either. -/
theorem reached_indistinct (h₁ : blank₁.FaultFree) (h₂ : blank₂.FaultFree)
    (hlimit₁ : blank₁.device.sectors ≤ Link.limit) (hlimit₂ : blank₂.device.sectors ≤ Link.limit) :
    (blank₂.device.sectors = blank₁.device.sectors →
      blank₂.device.sectorSize = blank₁.device.sectorSize →
      (∃ e d₁ d₂, Volume.format blank₁ = .error e d₁ ∧ Volume.format blank₂ = .error e d₂) ∨
        ∃ v d₁ d₂, Volume.format blank₁ = .ok v d₁ ∧ Volume.format blank₂ = .ok v d₂ ∧
          Indistinct { drive := d₁, volume := v } { drive := d₂, volume := v }) ∧
      ∀ u₁ u₂, Reached blank₁ u₁ → Reached blank₂ u₂ →
        u₁.volume.openFiles = u₂.volume.openFiles → AgreeOnUsed u₁ u₂ → Indistinct u₁ u₂ := by
  refine ⟨fun hsectors hsize => ?_, fun u₁ u₂ hu₁ hu₂ hopen hagree => ?_⟩
  · have hsame : blank₁.disk.SameSize blank₂.disk := ⟨hsectors, hsize, fun _ hs => hs.elim⟩
    rcases format_alike h₁ h₂ hlimit₁ hsame with herror | ⟨v, d₁, d₂, inv, hok₁, hok₂, halike⟩
    · exact .inl herror
    · exact .inr ⟨v, d₁, d₂, hok₁, hok₂, halike.run⟩
  · obtain ⟨inv, hs₁, hv₁⟩ := hu₁.settled h₁ hlimit₁
    obtain ⟨inv₂, hs₂, hv₂⟩ := hu₂.settled h₂ hlimit₂
    exact (hs₁.alike hv₁ hs₂ hv₂ hopen hagree).run

/-- Nothing is read of the bytes 255 that were left in a sector which a new file takes. -/
theorem reached_indistinct_scribbled : ∃ blank : Drive, ∃ v d₁ d₂,
    blank.device.sector? 15 = some (List.replicate 128 255) ∧
      Volume.format { device := .blank 64 128 } = .ok v d₁ ∧ Volume.format blank = .ok v d₂ ∧
      (({ drive := d₁, volume := v } : Usage).run
          [.create "/a" 200, .openId "/a", .readId 0 200]).1 =
        (({ drive := d₂, volume := v } : Usage).run
          [.create "/a" 200, .openId "/a", .readId 0 200]).1 := by
  have hblank := Drive.faultFree_blank 64 128
  let scribbled : Drive := { device := (Device.blank 64 128).put 15 (List.replicate 128 255) }
  have hscribbled : scribbled.FaultFree :=
    ⟨Device.reliable_put hblank.reliable List.length_replicate, rfl⟩
  obtain ⟨hformat, hruns⟩ := reached_indistinct hblank hscribbled (by decide) (by decide)
  obtain ⟨w, d, hok⟩ := (Volume.format_ok_iff hblank (by decide)).mpr (by decide)
  rcases hformat rfl rfl with ⟨e, d₁, d₂, herror, -⟩ | ⟨v, d₁, d₂, hok₁, hok₂, hsame⟩
  · cases hok.symm.trans herror
  · have hagree := (hsame [] trivial).2.2
    have hrun := hruns _ _ (.format hok₁) (.format hok₂) rfl hagree
      [.create "/a" 200, .openId "/a", .readId 0 200] ⟨trivial, trivial, trivial, trivial⟩
    exact ⟨scribbled, v, d₁, d₂, by decide +kernel, hok₁, hok₂, hrun.2.1⟩

end Usage

end SectorChain
