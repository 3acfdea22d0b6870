import SectorChain.Proofs.Reports
import SectorChain.Proofs.Runs

/-!
# Calls that fail

On a consistent volume the device is never to blame for an error: no access fails, every record is
read as what it is, and no chain contradicts its header. And a call that fails has done no harm:
what it wrote lies in sectors that belong to no file. Only a call that makes something writes at
all before it fails.

`Harmless x k p` says this of one operation; a call is harmless in every state of a run.

Results:
* `Consistent.perform_harmless`: every call, whatever its arguments, is harmless.
* `Sound.failed`: what a failing call leaves behind.
* `reached_failed`: so no failing call changes a sector in use, nor what is open.
* `reached_undamaged`: and no error is one of damage.
-/

namespace SectorChain

/-- A sector that the device has can be read whole. -/
theorem Device.sector?_eq {d : Device} (hd : d.Reliable) (i : Nat) :
    d.sector? i = if i < d.sectors then some (d.bytesAt i) else none := by
  by_cases hi : i < d.sectors
  · unfold sector?
    rw [if_pos hi, read_eq hd hi]
    rfl
  · unfold sector?
    rw [if_neg hi, read_refused hd (if_neg hi)]
    rfl

/-- Where a disk stays as it is, so does a device that keeps what is written. -/
theorem Disk.Keeps.sector?_eq_of_reliable {d d' : Drive} {p : Nat → Prop}
    (h : d.disk.Keeps d'.disk p) (hd : d.device.Reliable) (hd' : d'.device.Reliable) {s : Nat}
    (hs : p s) : d'.device.sector? s = d.device.sector? s := by
  have hsectors : d'.device.sectors = d.device.sectors := h.sectors
  have hbytes : d'.device.bytesAt s = d.device.bytesAt s := h.bytes s hs
  rw [Device.sector?_eq hd', Device.sector?_eq hd, hsectors, hbytes]

theorem Disk.Keeps.sector?_eq {d d' : Drive} {p : Nat → Prop} (h : d.disk.Keeps d'.disk p)
    (hd : d.FaultFree) (hd' : d'.FaultFree) {s : Nat} (hs : p s) :
    d'.device.sector? s = d.device.sector? s :=
  h.sector?_eq_of_reliable hd.reliable hd'.reliable hs

/-! ## Harmless operations -/

/-- **The operation does no harm** on the disk `k` if it fails: the error is none of damage, and
the sectors that satisfy `p` are as they were. -/
def Harmless {α : Type} (x : DriveM α) (k : Disk) (p : Nat → Prop) : Prop :=
  ∃ r k', Yields x k r k' ∧ ∀ e, r = .error e → e.isDamage = false ∧ k.Keeps k' p

namespace Harmless

variable {α β γ : Type} {k k' : Disk} {p : Nat → Prop} {x : DriveM α}

theorem ok {a : α} (h : Yields x k (.ok a) k') : Harmless x k p := by
  refine ⟨_, k', h, ?_⟩
  intro e he
  cases he

theorem error {e : VolumeError} (h : Yields x k (.error e) k') (he : e.isDamage = false)
    (hk : k.Keeps k' p) : Harmless x k p := by
  refine ⟨_, k', h, ?_⟩
  intro e' he'
  cases he'
  exact ⟨he, hk⟩

/-- An operation that answers or fails as a value says, and leaves the disk as it is. -/
theorem map {f : β → α} {r : Except VolumeError β} (h : Yields x k (r.map f) k)
    (hr : ∀ {e}, r = .error e → e.isDamage = false) : Harmless x k p := by
  cases r with
  | ok b => exact ok h
  | error e => exact error h (hr rfl) (Disk.Keeps.refl k p)

/-- What only makes an answer of another does no harm either. -/
theorem answer {f : α → DriveM β} (h : Harmless x k p)
    (hf : ∀ a k', ∃ b, Yields (f a) k' (.ok b) k') : Harmless (x >>= f) k p := by
  obtain ⟨r, k', hy, hr⟩ := h
  cases r with
  | ok a =>
    obtain ⟨b, hb⟩ := hf a k'
    exact ok (hy.bind hb)
  | error e =>
    obtain ⟨he, hk⟩ := hr e rfl
    exact error hy.bind_error he hk

theorem pure_answer {f : α → β} (h : Harmless x k p) :
    Harmless (do return f (← x)) k p :=
  h.answer fun a k' => ⟨f a, Yields.pure _ k'⟩

end Harmless

/-! ## Errors about paths -/

theorem error_of_map {α β : Type} {f : α → β} {r : Except VolumeError α} {e : VolumeError}
    (h : r.map f = .error e) : r = .error e := by
  cases r with
  | ok a => cases h
  | error x =>
    cases h
    rfl

namespace Inventory

variable {inv : Inventory} {path : String} {e : VolumeError}

theorem isDamage_of_locate (h : inv.locate path = .error e) : e.isDamage = false := by
  unfold locate at h
  split at h
  · cases h
  · exact Slots.isDamage_of_follow (error_of_map h)

theorem isDamage_of_slotsAt (h : inv.slotsAt path = .error e) : e.isDamage = false := by
  unfold slotsAt at h
  split at h
  · cases h
  · split at h
    · rename_i hfind
      cases h
      exact Slots.isDamage_of_follow hfind
    · cases h
      rfl
    · cases h

end Inventory

theorem HandleTable.isDamage_of_insert {t : HandleTable} {f : Handle} {e : VolumeError}
    (h : t.insert f = .error e) : e.isDamage = false := by
  unfold insert at h
  split at h <;> cases h
  rfl

/-! ## Calls -/

namespace Volume.Consistent

variable {v : Volume} {k : Disk} {inv : Inventory} {p : Nat → Prop}

/-- What is made in vain lies in sectors that belong to no file. -/
theorem make_harmless (h : v.Consistent k inv) (path : String) (kind : Kind) (size : Nat)
    (hdir : kind = .directory → size = Layout.directorySize) (hp : ∀ s, p s → s ∈ inv.sectors) :
    Harmless (v.make path kind size) k p := by
  rcases h.make_cases path kind size hdir with ⟨e, k', he, hy, hkeep⟩ | ⟨_, _, k', _, -, -, hy, -⟩
  · exact .error hy he (hkeep.mono hp)
  · exact .ok hy

theorem remove_harmless (h : v.Consistent k inv) (path : String) (recursive : Bool) :
    Harmless (v.remove path recursive) k p := by
  rcases h.remove_cases path recursive with ⟨e, he, hy⟩ | ⟨_, _, _, k', _, -, -, hy, -⟩
  · exact .error hy he (Disk.Keeps.refl k p)
  · exact .ok hy

theorem openId_harmless (h : v.Consistent k inv) (path : String) :
    Harmless (v.openId path) k p := by
  have hy := h.openId_yields path
  cases hlocate : inv.locate path with
  | error e =>
    rw [hlocate] at hy
    exact .error hy (Inventory.isDamage_of_locate hlocate) (Disk.Keeps.refl k p)
  | ok q =>
    rw [hlocate] at hy
    exact .map hy HandleTable.isDamage_of_insert

/-- An operation on an id fails only if the id is not open. -/
theorem onId_harmless {α : Type} {x : DriveM α} (v : Volume) (id : Nat)
    (hnone : v.openFiles.get? id = none → Yields x k (.error (.notOpen id)) k)
    (hsome : ∀ f, v.openFiles.get? id = some f → ∃ a k', Yields x k (.ok a) k') :
    Harmless x k p := by
  cases hf : v.openFiles.get? id with
  | none => exact .error (hnone hf) rfl (Disk.Keeps.refl k p)
  | some f =>
    obtain ⟨a, k', hy⟩ := hsome f hf
    exact .ok hy

/-- What is open is a file on the disk. -/
theorem exists_open_file (h : v.Consistent k inv) {id : Nat} {f : Handle}
    (hf : v.openFiles.get? id = some f) :
    ∃ q content, k.HasFile q content ∧ f.header = q.header ∧ q.sector ∉ q.chain := by
  obtain ⟨x, hx, -, hheader⟩ := h.open_files id f hf
  have hnodes : x ∈ inv.nodes := List.mem_cons_of_mem _ hx
  obtain ⟨content, hfile⟩ := h.hasFile hnodes
  exact ⟨_, content, hfile, hheader.symm, h.sector_not_mem_chain hnodes⟩

/-- **Every call is harmless**, whatever its arguments: only what makes something writes before it
fails, and then to no sector of a file. -/
theorem perform_harmless (h : v.Consistent k inv) (q : Request) :
    Harmless (q.perform v) k fun s => q.makes = none ∨ s ∈ inv.sectors := by
  have hmade : ∀ {made s}, q.makes = some made → q.makes = none ∨ s ∈ inv.sectors →
      s ∈ inv.sectors := by
    intro made s hq hs
    rcases hs with hs | hs
    · cases hs.symm.trans hq
    · exact hs
  cases q with
  | create path size =>
    refine (h.make_harmless path .file size ?_ fun s => hmade rfl).pure_answer
    intro hkind
    cases hkind
  | makeDirectory path =>
    refine (h.make_harmless path .directory Layout.directorySize ?_ fun s => hmade rfl).pure_answer
    intro _
    rfl
  | remove path recursive => exact (h.remove_harmless path recursive).pure_answer
  | openId path => exact (h.openId_harmless path).pure_answer
  | closeId id =>
    refine (onId_harmless v id (fun hf => closeId_fails hf k) fun f hf => ?_).pure_answer
    exact ⟨_, k, closeId_yields hf k⟩
  | seekId id position =>
    refine (onId_harmless v id (fun hf => seekId_fails hf position k) fun f hf => ?_).pure_answer
    exact ⟨_, k, seekId_yields hf position k⟩
  | readId id count =>
    refine (onId_harmless v id (fun hf => readId_fails hf count k) fun f hf => ?_).pure_answer
    obtain ⟨q, content, hfile, hheader, -⟩ := h.exists_open_file hf
    exact ⟨_, k, h.readId_yields hf hheader.symm hfile count⟩
  | writeId id bytes =>
    refine (onId_harmless v id (fun hf => writeId_fails hf bytes k) fun f hf => ?_).pure_answer
    obtain ⟨q, content, hfile, hheader, hout⟩ := h.exists_open_file hf
    obtain ⟨k', hy, -⟩ := hfile.write_yields h.dataSize_pos hheader hout bytes f.position
    exact ⟨_, k', writeId_of_writeAt hf hy⟩
  | openPath path =>
    exact (Harmless.map (h.openPath_yields path) Inventory.isDamage_of_locate).pure_answer
  | list path recursive =>
    exact (Harmless.map (h.listAt_yields path recursive)
      Inventory.isDamage_of_slotsAt).pure_answer
  | stat path =>
    exact (Harmless.map (h.stat_yields path) Inventory.isDamage_of_locate).pure_answer
  | print => exact (Harmless.ok h.print_yields).pure_answer
  | freeMap => exact (Harmless.ok h.freeMap_yields).pure_answer
  | root =>
    obtain ⟨table, htable, -⟩ := h.exists_table
    exact (Harmless.ok (h.root_yields htable)).pure_answer
  | numFree => exact (Harmless.ok h.numFree_yields).pure_answer
  | remaining id =>
    refine Harmless.pure_answer (onId_harmless v id (fun hf => ?_) fun f hf => ?_)
    · exact (HandleTable.fetch_fails hf k).bind_error
    · exact ⟨_, k, (HandleTable.fetch_yields hf k).bind (Yields.pure _ k)⟩
  | ids => exact .ok (Yields.pure _ k)
  | mount =>
    obtain ⟨-, hy⟩ := h.mount_yields
    exact (Harmless.ok hy).pure_answer

end Volume.Consistent

/-! ## Runs -/

namespace Usage

variable {blank : Drive} {u : Usage} {inv : Inventory} {q : Request} {e : VolumeError}

/-- **What a failing call leaves behind**: the same volume, and the same bytes in the sectors that
belong to a file. -/
theorem Sound.failed (h : u.Sound inv) (hfail : (u.call q).1 = .error e) :
    e.isDamage = false ∧ (u.call q).2.volume = u.volume ∧ (u.call q).2.drive.FaultFree ∧
      u.drive.disk.Keeps (u.call q).2.drive.disk fun s => q.makes = none ∨ s ∈ inv.sectors := by
  obtain ⟨r, k', hy, hr⟩ := h.consistent.perform_harmless q
  cases r with
  | ok p =>
    obtain ⟨a, v⟩ := p
    obtain ⟨d, -, -, hcall⟩ := call_ok h.fault_free hy
    rw [hcall] at hfail
    cases hfail
  | error x =>
    obtain ⟨d, hd, rfl, hcall⟩ := call_error h.fault_free hy
    rw [hcall] at hfail ⊢
    cases hfail
    obtain ⟨he, hkeep⟩ := hr e rfl
    exact ⟨he, rfl, hd, hkeep⟩

/-- On a volume that is empty there is no directory in which a file could be made. -/
theorem Reached.exists_failing : ∃ u e, Reached { device := .blank 64 128 } u ∧
    (u.call (.create "/a/b" 5)).1 = .error e := by
  obtain ⟨v, d, inv, hformat, hu, -, -, hslots, -⟩ := exists_formatted
  refine ⟨{ drive := d, volume := v }, ?_⟩
  rcases hu.consistent.make_cases "/a/b" .file 5 (by rintro ⟨⟩) with
    ⟨e, k', -, hy, -⟩ | ⟨p, slots, -, -, -, hinsert, -⟩
  · have hperform : Yields ((Request.create "/a/b" 5).perform v) d.disk (.error e) k' :=
      hy.bind_error
    obtain ⟨d', -, -, hcall⟩ := call_error hu.fault_free hperform
    exact ⟨e, .format hformat, congrArg Prod.fst hcall⟩
  · have hroute : Route.ofPath "/a/b" = .step "a" (.last "b") := by decide
    unfold Inventory.insert at hinsert
    rw [hroute, hslots, Slots.change, Slots.find?_replicate_none] at hinsert
    cases hinsert

/-- **A call that fails changes nothing that is in use.** In every state of a run, the sectors that
the free map on the device has in use, which are all those of the files, are byte for byte the same
after the call; so are the files open by id and their positions. Unless the call was to make
something, the whole device is the same. -/
theorem reached_failed (hblank : blank.FaultFree) (hlimit : blank.device.sectors ≤ Link.limit)
    (h : Reached blank u) (hfail : (u.call q).1 = .error e) :
    ∃ inv m, u.ask Volume.survey = .ok inv ∧ u.ask u.volume.freeMap = .ok m ∧
      (∀ s ∈ inv.sectors, m.isUsed s = true) ∧
      (∀ s, m.isUsed s = true →
        (u.call q).2.drive.device.sector? s = u.drive.device.sector? s) ∧
      (u.call q).2.volume = u.volume ∧
      (q.makes = none → ∀ s,
        (u.call q).2.drive.device.sector? s = u.drive.device.sector? s) := by
  obtain ⟨inv, hu, -⟩ := h.sound hblank hlimit
  obtain ⟨-, hvolume, hd, hkeep⟩ := hu.failed hfail
  have hv := hu.consistent
  refine ⟨inv, _, ask_eq hu.fault_free hv.survey_yields, ask_eq hu.fault_free hv.freeMap_yields,
    ?_, ?_, hvolume, ?_⟩
  · intro s hs
    exact (hv.used s).mpr hs
  · intro s hs
    exact hkeep.sector?_eq hu.fault_free hd (.inr ((hv.used s).mp hs))
  · intro hq s
    exact hkeep.sector?_eq hu.fault_free hd (.inl hq)

theorem reached_failed_create : ∃ u : Usage, ∃ m e,
    (u.call (.create "/a/b" 5)).1 = .error e ∧ u.ask u.volume.freeMap = .ok m ∧
      ∀ s, m.isUsed s = true → (u.call (.create "/a/b" 5)).2.drive.device.sector? s =
        u.drive.device.sector? s := by
  obtain ⟨u, e, hu, hfail⟩ := Reached.exists_failing
  obtain ⟨inv, m, -, hm, -, hsame, -⟩ :=
    reached_failed (Drive.faultFree_blank 64 128) (by decide) hu hfail
  exact ⟨u, m, e, hfail, hm, hsame⟩

/-- **No state of a run is damaged**: whatever is asked, the device and its records are not to
blame for an error. The same is true of the look at the path with which making begins, where any
error counts as nothing found. -/
theorem reached_undamaged (hblank : blank.FaultFree) (hlimit : blank.device.sectors ≤ Link.limit)
    (h : Reached blank u) :
    (∀ q e, (u.call q).1 = .error e → e.isDamage = false) ∧
      ∀ path e, u.ask (u.volume.findEntry path) = .error e → e.isDamage = false := by
  obtain ⟨inv, hu, -⟩ := h.sound hblank hlimit
  constructor
  · intro q e hfail
    exact (hu.failed hfail).1
  · intro path e hfail
    rw [ask_eq hu.fault_free (hu.consistent.findEntry_yields path)] at hfail
    exact Slots.isDamage_of_follow (error_of_map hfail)

theorem reached_undamaged_create : ∃ u : Usage, ∃ e,
    (u.call (.create "/a/b" 5)).1 = .error e ∧ e.isDamage = false := by
  obtain ⟨u, e, hu, hfail⟩ := Reached.exists_failing
  obtain ⟨hcall, -⟩ := reached_undamaged (Drive.faultFree_blank 64 128) (by decide) hu
  exact ⟨u, e, hfail, hcall _ e hfail⟩

end Usage

end SectorChain
