import SectorChain.Proofs.Slices
import SectorChain.Proofs.Tearing
import SectorChain.Proofs.Updates

/-!
# Requests that are cut short

Any access of a request may fail: one on the way to a block, or the write of the block. A read has
done nothing then, for its buffer is filled at the end. A write has done its blocks up to the one
that it was at, each of them whole.

* `CutShort f l bytes pos d d₁ j`: from `d` to `d₁`, a request to write has been done up to block
  number `j`, and nothing else has.

Results:
* `Torn.cutShort`: what is torn on the disk is cut short on the device.
* `Candid.of_error`: a read that fails leaves the device as it was.
* `failed_clean`: what a failing request leaves, whatever accesses fail.
-/

namespace SectorChain

/-- A read that would answer without faults fails only with an access, and changes nothing. -/
theorem Candid.of_error {α : Type} {x : DriveM α} {a : α} {d d₁ : Drive} {e : VolumeError}
    (hx : Candid x) (hy : Yields x d.disk (.ok a) d.disk) (hd : d.device.Reliable)
    (hrun : x d = .error e d₁) : d.faults.Injects e ∧ d₁.device = d.device := by
  obtain ⟨-, -, herror⟩ := (hx.survives_ok (F := d.faults) hy).of_run hd rfl rfl
  have hdevice := (hx.still d).1
  rw [hrun] at hdevice
  exact ⟨(herror e d₁ hrun).2, hdevice⟩

namespace Handle

/-- **A request to write that is done up to block number `j`** of the chain `l`: from the first
block that it touches, but not to the last one. The blocks before number `j` hold what was to be
written to them, and everything else is as it was. -/
structure CutShort (f : Handle) (l : List Nat) (bytes : Bytes) (pos : Nat) (d d₁ : Drive)
    (j : Nat) :
    Prop where
  first : pos / Layout.dataSize d.device.sectorSize ≤ j
  last : j ≤ (pos + min bytes.length (f.header.length - pos) - 1) /
    Layout.dataSize d.device.sectorSize
  content : (d₁.disk.chainData l).take f.header.length =
    Bytes.splice ((d.disk.chainData l).take f.header.length) pos
      ((bytes.take (f.header.length - pos)).take (j * Layout.dataSize d.device.sectorSize - pos))
  links : ∀ s, (d₁.device.sector? s).map (·.take Layout.linkSize) =
    (d.device.sector? s).map (·.take Layout.linkSize)
  outside : ∀ s, (∀ i, pos / Layout.dataSize d.device.sectorSize ≤ i → i < j → l[i]? ≠ some s) →
    d₁.device.sector? s = d.device.sector? s
  chain : ∃ d₂, f.header.chain d₁.calm = .ok l d₂

theorem readInto_candid (f : Handle) (buffer : Bytes) (pos : Nat) :
    Candid (f.readInto buffer pos) := by
  rw [readInto_eq]
  exact (f.readAt_candid _ _).bind fun _ => Candid.pure _

/-- A write at the position fails as one at that place does, and the handle is as it was. -/
theorem writeAt_of_writeOn_error {f f₁ : Handle} {bytes : Bytes} {d d₁ : Drive} {e : VolumeError}
    (h : writeOn bytes (f, d) = .error e (f₁, d₁)) :
    f.writeAt bytes f.position d = .error e d₁ ∧ f₁ = f := by
  obtain ⟨hrun, hf⟩ := (f.writeOn_allOrNothing bytes).error h
  rw [← write, write_eq] at hrun
  exact ⟨run_of_bind_pure_error hrun, hf⟩

/-- A read at the position fails as one at that place does, and handle and buffer are as they
were. -/
theorem readInto_of_readOn_error {f f₁ : Handle} {buffer buffer₁ : Bytes} {d d₁ : Drive}
    {e : VolumeError} (h : readOn ((f, buffer), d) = .error e ((f₁, buffer₁), d₁)) :
    f.readInto buffer f.position d = .error e d₁ ∧ f₁ = f ∧ buffer₁ = buffer := by
  obtain ⟨hrun, hboth⟩ := (f.readOn_allOrNothing buffer).error h
  cases hboth
  rw [readOn_on] at hrun
  exact ⟨run_of_bind_pure_error hrun, rfl, rfl⟩

end Handle

namespace Disk

/-- **What is torn on the disk is cut short on the device.** -/
theorem Torn.cutShort {d d₁ : Drive} {f : Handle} {l : List Nat} {bytes : Bytes} {pos j : Nat}
    (hd : d.device.Reliable) (hd₁ : d₁.device.Reliable) (hc : d.disk.Chained f.header l)
    (hlen : f.header.length ≤ l.length * d.disk.dataSize)
    (hnew : 0 < (bytes.take (f.header.length - pos)).length)
    (hj : j < Handle.span (bytes.take (f.header.length - pos)).length pos d.disk.dataSize)
    (h : d.disk.Torn d₁.disk l (bytes.take (f.header.length - pos)) pos j) :
    f.CutShort l bytes pos d d₁ (pos / d.disk.dataSize + j) where
  first := Nat.le_add_right _ j
  last := by
    rw [List.length_take, Nat.min_comm] at hj hnew
    have hle : pos / d.disk.dataSize ≤
        (pos + min bytes.length (f.header.length - pos) - 1) / d.disk.dataSize :=
      Nat.div_le_div_right (by omega)
    show _ ≤ _ / d.disk.dataSize
    unfold Handle.span at hj
    omega
  content := by
    -- The bytes up to block number `j`, counted from the start of the file or of the first block.
    have hcount : (pos / d.disk.dataSize + j) * d.disk.dataSize - pos =
        j * d.disk.dataSize - pos % d.disk.dataSize := by
      have hpos := Nat.div_add_mod' pos d.disk.dataSize
      rw [Nat.add_mul]
      omega
    show _ = Bytes.splice _ pos (List.take ((_ + j) * d.disk.dataSize - pos) _)
    rw [hcount]
    exact h.content hlen hnew
  links s := by
    have hsectors : d₁.device.sectors = d.device.sectors := h.keeps.sectors
    rw [Device.sector?_eq hd₁, Device.sector?_eq hd, hsectors]
    split
    · exact congrArg some (h.links s)
    · rfl
  outside s hs := by
    refine h.keeps.sector?_eq_of_reliable hd hd₁ fun hmem => ?_
    obtain ⟨i, hle, hlt, hi⟩ := mem_take_drop.mp hmem
    exact hs i hle hlt hi
  chain := by
    have hchained : d₁.disk.Chained f.header l := ⟨h.linked, hc.first, hc.blocks⟩
    obtain ⟨d₂, hwalk, -⟩ := hchained.chain_yields d₁.calm ⟨hd₁, rfl⟩ rfl
    exact ⟨d₂, hwalk⟩

end Disk

namespace Handle

variable {d d₀ : Drive} {f : Handle} {l : List Nat}

/-- **A request that fails is cut short at the start of a block.** On every device that keeps what
is written and whose sectors have room for data, for every handle whose header counts the blocks
that its length needs and whose chain can be walked, whatever accesses fail:
* a write that fails does so with an access that was made to, and is cut short at a block that it
  touches: the blocks before are written, and nothing else has changed;
* so is a write at the position, which stays where it was;
* a read that fails does so with an access that was made to, the device is as it was, and so is the
  buffer;
* so is a read at the position, which stays where it was. -/
theorem failed_clean (hd : d.device.Reliable) (hsize : Layout.linkSize < d.device.sectorSize)
    (hblocks : f.header.blocks =
      Layout.blocksFor f.header.length (Layout.dataSize d.device.sectorSize))
    (hchain : f.header.chain d.calm = .ok l d₀) (buffer : Bytes) (pos : Nat) :
    (∀ e d₁, f.writeAt buffer pos d = .error e d₁ →
      d.faults.Injects e ∧ ∃ j, f.CutShort l buffer pos d d₁ j) ∧
    (∀ e f₁ d₁, writeOn buffer (f, d) = .error e (f₁, d₁) →
      d.faults.Injects e ∧ (∃ j, f.CutShort l buffer f.position d d₁ j) ∧ f₁ = f) ∧
    (∀ e buffer₁ d₁, f.fill pos (buffer, d) = .error e (buffer₁, d₁) →
      d.faults.Injects e ∧ d₁.device = d.device ∧ buffer₁ = buffer) ∧
    ∀ e f₁ buffer₁ d₁, readOn ((f, buffer), d) = .error e ((f₁, buffer₁), d₁) →
      d.faults.Injects e ∧ d₁.device = d.device ∧ f₁ = f ∧ buffer₁ = buffer := by
  have hdata : 0 < d.disk.dataSize := Nat.sub_pos_of_lt hsize
  have hc : d.disk.Chained f.header l :=
    Drive.FaultFree.chained (d := d.calm) ⟨hd, rfl⟩ hchain
  have hlen := hc.length_le hdata hblocks
  have hwrite : ∀ place e d₁, f.writeAt buffer place d = .error e d₁ →
      d.faults.Injects e ∧ ∃ j, f.CutShort l buffer place d d₁ j := by
    intro place e d₁ hrun
    obtain ⟨hd₁, -, herror⟩ :=
      (Disk.writeAt_survives (F := d.faults) hdata hc hlen buffer place).of_run hd rfl rfl
    rw [hrun] at hd₁
    obtain ⟨he, hnew, j, hj, htorn⟩ := herror e d₁ hrun
    exact ⟨he, _, htorn.cutShort hd hd₁ hc hlen hnew hj⟩
  have hread : ∀ place e d₁, f.readInto buffer place d = .error e d₁ →
      d.faults.Injects e ∧ d₁.device = d.device := fun place e d₁ =>
    (f.readInto_candid buffer place).of_error (Disk.readInto_yields hdata hc hlen buffer place) hd
  refine ⟨hwrite pos, fun e f₁ d₁ hrun => ?_, fun e buffer₁ d₁ hrun => ?_,
    fun e f₁ buffer₁ d₁ hrun => ?_⟩
  · obtain ⟨hat, hf⟩ := writeAt_of_writeOn_error hrun
    obtain ⟨he, hcut⟩ := hwrite f.position e d₁ hat
    exact ⟨he, hcut, hf⟩
  · obtain ⟨hat, hbuffer⟩ := (f.fill_allOrNothing pos buffer).error hrun
    obtain ⟨he, hdevice⟩ := hread pos e d₁ hat
    exact ⟨he, hdevice, hbuffer⟩
  · obtain ⟨hat, hf, hbuffer⟩ := readInto_of_readOn_error hrun
    obtain ⟨he, hdevice⟩ := hread f.position e d₁ hat
    exact ⟨he, hdevice, hf, hbuffer⟩

/-- Five bytes across both blocks of a file, of which the second one cannot be written: one byte is
written, and the position stays at 7. -/
theorem failed_clean_across : ∃ (d d₀ d₁ : Drive) (f : Handle) (j : Nat), d.device.Reliable ∧
    f.header.chain d.calm = .ok [3, 1] d₀ ∧ f.position = 7 ∧
    writeOn [1, 2, 3, 4, 5, 6] (f, d) = .error (.io (.injected (.write 1))) (f, d₁) ∧
    f.CutShort [3, 1] [1, 2, 3, 4, 5, 6] 7 d d₁ j ∧
    (d₁.disk.chainData [3, 1]).take 12 = [0, 0, 0, 0, 0, 0, 0, 1, 0, 0, 0, 0] := by
  have hcase : ∃ d d₁ : Drive, d = twelveOn (FaultPlan.pattern { writes := [1] } {}) ∧
      writeOn [1, 2, 3, 4, 5, 6] (twelve, d) =
        .error (.io (.injected (.write 1))) (twelve, d₁) ∧
      (d₁.disk.chainData [3, 1]).take 12 = [0, 0, 0, 0, 0, 0, 0, 1, 0, 0, 0, 0] :=
    ⟨_, _, rfl, rfl, rfl⟩
  obtain ⟨d, d₁, hd, hwrite, hcontent⟩ := hcase
  have hreliable : d.device.Reliable := hd ▸ reliable_twelveOn _
  have hchain : ∃ d₀, twelve.header.chain d.calm = .ok [3, 1] d₀ := hd ▸ chain_twelveOn
  obtain ⟨d₀, hchain⟩ := hchain
  obtain ⟨-, hclean, -⟩ :=
    failed_clean hreliable (hd ▸ by decide) (hd ▸ by decide) hchain [1, 2, 3, 4, 5, 6] 0
  obtain ⟨-, ⟨j, hcut⟩, -⟩ := hclean _ twelve d₁ hwrite
  exact ⟨d, d₀, d₁, twelve, j, hreliable, hchain, rfl, hwrite, hcut, hcontent⟩

end Handle

end SectorChain
