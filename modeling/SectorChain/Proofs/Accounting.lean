import SectorChain.Proofs.ListedPaths

/-!
# Accounting of sectors

In every state of a run the free map on the device has just those sectors in use that belong to a
file: to the free map file, to the root directory, or to a file or directory that entries in use
lead to from there. No sector belongs to two of them, and no sector in use belongs to none.

Results:
* `reached_accounted`: the marks of the free map, sector by sector.
* `reached_numFree`: so the number of free sectors is that of all sectors less those of the files.
-/

namespace SectorChain.Usage

variable {blank : Drive} {u : Usage}

/-- **Space is accounted for exactly.** What is read from the two reserved headers on has every
sector once that the free map marks, and no other; and every header leads to just as many blocks
as its length needs. -/
theorem reached_accounted (hblank : blank.FaultFree) (hlimit : blank.device.sectors ≤ Link.limit)
    (h : Reached blank u) :
    ∃ inv m, u.ask Volume.survey = .ok inv ∧ u.ask u.volume.freeMap = .ok m ∧
      inv.mapFile.place.sector = Layout.freeMapSector ∧ inv.root.sector = Layout.rootSector ∧
      (∀ s, m.isUsed s = true ↔ s ∈ inv.sectors) ∧ inv.sectors.Nodup ∧
      ∀ x ∈ inv.nodes, (placeOf x).header.first.target = (placeOf x).chain.head? ∧
        (placeOf x).chain.length = Layout.blocksFor (placeOf x).header.length
          (Layout.dataSize blank.device.sectorSize) := by
  obtain ⟨inv, hu, hsame⟩ := h.sound hblank hlimit
  have hv := hu.consistent
  refine ⟨inv, _, ask_eq hu.fault_free hv.survey_yields, ask_eq hu.fault_free hv.freeMap_yields,
    hv.map_sector, hv.root_sector, hv.used, hv.nodup, fun x hx => ?_⟩
  obtain ⟨content, hfile⟩ := hv.hasFile hx
  refine ⟨hfile.chained.first, ?_⟩
  rw [hfile.blocks, hsame.dataSize]
  rfl

/-- So it is with a directory on the device and a file in it. -/
theorem reached_accounted_nested : ∃ u : Usage, ∃ inv m, u.ask Volume.survey = .ok inv ∧
    Slots.preorder Entry.name inv.slots [] =
      [⟨[], "d", .directory⟩, ⟨["d"], "[D] x", .file⟩] ∧
    u.ask u.volume.freeMap = .ok m ∧ inv.sectors.Nodup ∧
    ∀ s, m.isUsed s = true ↔ s ∈ inv.sectors := by
  obtain ⟨v, d, u, inv, hformat, hrun, hu, hitems⟩ := exists_nested
  obtain ⟨inv', m, hinv, hm, -, -, hused, hnodup, -⟩ :=
    reached_accounted (Drive.faultFree_blank 64 128) (by decide) (hrun.reached (.format hformat))
  obtain rfl : inv = inv' := Except.ok.inj
    ((ask_eq hu.fault_free hu.consistent.survey_yields).symm.trans hinv)
  exact ⟨u, inv, m, hinv, hitems, hm, hnodup, hused⟩

/-- The free sectors are all but those of the files. -/
theorem reached_numFree (hblank : blank.FaultFree) (hlimit : blank.device.sectors ≤ Link.limit)
    (h : Reached blank u) :
    ∃ inv n, u.ask Volume.survey = .ok inv ∧ u.ask u.volume.numFree = .ok n ∧
      n + inv.sectors.length = blank.device.sectors := by
  obtain ⟨inv, hu, hsame⟩ := h.sound hblank hlimit
  have hv := hu.consistent
  refine ⟨inv, _, ask_eq hu.fault_free hv.survey_yields, ask_eq hu.fault_free hv.numFree_yields, ?_⟩
  rw [hv.numFree_add]
  exact hsame.sectors

end SectorChain.Usage
