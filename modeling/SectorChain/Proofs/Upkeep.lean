import SectorChain.Proofs.Ownership

/-!
# Runs on devices of any size

Sector numbers have 32 bits, and links name the lower half of them. On a device with more sectors
than that a run makes files that cannot be read to their end, but it never gives a sector to two of
them.

* `Usage.Managed` is the invariant of such a run: the volume has an estate, and what was opened has
  the kind that is recorded for it.
* `Usage.Lasts u q`: the invariant holds again after the call.

Results:
* `Managed.call`: a permitted call leaves the invariant.
* `managed_of_format`: it holds after a format.
* `Reached.managed`: it holds in every state of a run.
-/

namespace SectorChain

namespace Usage

variable {u : Usage} {A : Estate} {mapFile : Stored} {root : Place} {q : Request} {k' : Disk}

/-- **The invariant of a run** on a device of any size. -/
structure Managed (u : Usage) (A : Estate) (mapFile : Stored) (root : Place) : Prop where
  fault_free : u.drive.FaultFree
  owns : u.volume.Owns u.drive.disk A mapFile root
  opened : ∀ id f, u.volume.openFiles.get? id = some f → ∀ x ∈ A.owners,
    x.place.sector = f.sector → u.opened id = some x.kind

/-- After the call the invariant holds again, for some estate. -/
def Lasts (u : Usage) (q : Request) : Prop :=
  ∃ A mapFile root, (u.call q).2.Managed A mapFile root

namespace Managed

theorem lasts_error (h : u.Managed A mapFile root) {e : VolumeError}
    (hy : Yields (q.perform u.volume) u.drive.disk (.error e) k')
    (howns : u.volume.Owns k' A mapFile root) : u.Lasts q := by
  obtain ⟨d, hd, rfl, hcall⟩ := call_error h.fault_free hy
  unfold Lasts
  rw [hcall]
  exact ⟨A, mapFile, root, hd, howns, h.opened⟩

theorem lasts_ok (h : u.Managed A mapFile root) {a : Answer} {v : Volume} {A' : Estate}
    {mapFile' : Stored} {root' : Place}
    (hy : Yields (q.perform u.volume) u.drive.disk (.ok (a, v)) k')
    (howns : v.Owns k' A' mapFile' root')
    (hopened : ∀ d : Drive, d.FaultFree → d.disk = k' → ∀ id f, v.openFiles.get? id = some f →
      ∀ x ∈ A'.owners, x.place.sector = f.sector →
        u.openedBy { u with drive := d, volume := v } q a id = some x.kind) : u.Lasts q := by
  obtain ⟨d, hd, rfl, hcall⟩ := call_ok h.fault_free hy
  unfold Lasts
  rw [hcall]
  exact ⟨A', mapFile', root', hd, howns, hopened d hd rfl⟩

theorem lasts_look (h : u.Managed A mapFile root) (hq : q.Looks) : u.Lasts q := by
  obtain ⟨α, x, f, hx, hperform⟩ := q.perform_of_looks hq u.volume
  obtain ⟨hd, hk⟩ := hx.faultFree h.fault_free
  unfold Lasts
  cases hend : x u.drive with
  | ok a d =>
    rw [hend] at hd hk
    have hrun : q.perform u.volume u.drive = .ok (f a, u.volume) d := by
      rw [hperform, run_bind_ok hend]
      rfl
    rw [call_of_ok hrun, next_of_looks hq]
    exact ⟨A, mapFile, root, hd, hk.symm ▸ h.owns, h.opened⟩
  | error e d =>
    rw [hend] at hd hk
    have hrun : q.perform u.volume u.drive = .error e d := by
      rw [hperform, run_bind_error hend]
    rw [call_of_error hrun]
    exact ⟨A, mapFile, root, hd, hk.symm ▸ h.owns, h.opened⟩

/-! ### Ids -/

/-- The record of kinds is right for a table in which one slot is another handle of the same file,
or none. -/
theorem opened_set (h : u.Managed A mapFile root) {id : Nat} {slot : Option Handle}
    (hslot : ∀ g, slot = some g →
      ∃ f, u.volume.openFiles.get? id = some f ∧ f.sector = g.sector) (i : Nat) (g : Handle)
    (hg : (u.volume.openFiles.set id slot).get? i = some g) :
    ∀ x ∈ A.owners, x.place.sector = g.sector → u.opened i = some x.kind := by
  intro x hx hsector
  rcases HandleTable.get?_set_eq_some hg with ⟨rfl, hslot'⟩ | hg
  · obtain ⟨f, hf, hsame⟩ := hslot g hslot'
    exact h.opened id f hf x hx (hsector.trans hsame.symm)
  · exact h.opened i g hg x hx hsector

theorem lasts_closeId (h : u.Managed A mapFile root) (id : Nat) : u.Lasts (.closeId id) := by
  cases hf : u.volume.openFiles.get? id with
  | none => exact h.lasts_error (Volume.Consistent.closeId_fails hf _).bind_error h.owns
  | some f =>
    exact h.lasts_ok ((Volume.Consistent.closeId_yields hf _).bind (Yields.pure _ _))
      (h.owns.withOpen (h.owns.open_files.set id nofun)) fun _ _ _ => h.opened_set nofun

theorem lasts_seekId (h : u.Managed A mapFile root) (id position : Nat) :
    u.Lasts (.seekId id position) := by
  cases hf : u.volume.openFiles.get? id with
  | none => exact h.lasts_error (Volume.Consistent.seekId_fails hf position _).bind_error h.owns
  | some f =>
    exact h.lasts_ok ((Volume.Consistent.seekId_yields hf position _).bind (Yields.pure _ _))
      (h.owns.setOpen_seek hf position) fun _ _ _ =>
        h.opened_set (by rintro g ⟨⟩; exact ⟨f, hf, rfl⟩)

theorem lasts_readId (h : u.Managed A mapFile root) (id count : Nat) :
    u.Lasts (.readId id count) := by
  cases hf : u.volume.openFiles.get? id with
  | none => exact h.lasts_error (Volume.readId_fails hf count _).bind_error h.owns
  | some f =>
    have hfetch := HandleTable.fetch_yields hf u.drive.disk
    rcases f.readAt_settles u.drive.disk count f.position with ⟨bytes, hy⟩ | ⟨e, hy, -⟩
    · have hread : Yields (f.read count) u.drive.disk
          (.ok (bytes, f.seek (f.position + bytes.length))) u.drive.disk := by
        rw [Handle.read_eq]
        exact hy.bind (Yields.pure _ _)
      have hperform : Yields (u.volume.readId id count) u.drive.disk
          (.ok (bytes, u.volume.setOpen id (f.seek (f.position + bytes.length)))) u.drive.disk := by
        rw [Volume.readId_eq]
        exact hfetch.bind (hread.bind (Yields.pure _ _))
      exact h.lasts_ok (hperform.bind (Yields.pure _ _)) (h.owns.setOpen_seek hf _)
        fun _ _ _ => h.opened_set (by rintro g ⟨⟩; exact ⟨f, hf, rfl⟩)
    · have hread : Yields (f.read count) u.drive.disk (.error e) u.drive.disk := by
        rw [Handle.read_eq]
        exact hy.bind_error
      have hperform : Yields (u.volume.readId id count) u.drive.disk (.error e) u.drive.disk := by
        rw [Volume.readId_eq]
        exact hfetch.bind hread.bind_error
      exact h.lasts_error hperform.bind_error h.owns

theorem lasts_writeId (h : u.Managed A mapFile root) {id : Nat} {bytes : Bytes}
    (hq : (Request.writeId id bytes).Permitted u) : u.Lasts (.writeId id bytes) := by
  cases hf : u.volume.openFiles.get? id with
  | none => exact h.lasts_error (Volume.writeId_fails hf bytes _).bind_error h.owns
  | some f =>
    obtain ⟨x, hx, hsector, hmap, k', hkeep, hlinked, hends⟩ := h.owns.writeId_cases hf bytes
    have hfile : x.kind = .file :=
      Option.some.inj ((h.opened id f hf x hx hsector).symm.trans (hq f hf))
    have howns := h.owns.written hx hfile (hsector ▸ hmap) hkeep hlinked
    rcases hends with ⟨e, hy⟩ | ⟨n, hy⟩
    · exact h.lasts_error (Yields.bind_error hy) howns
    · exact h.lasts_ok (hy.bind (Yields.pure _ _)) (howns.setOpen_seek hf _)
        fun _ _ _ => h.opened_set (by rintro g ⟨⟩; exact ⟨f, hf, rfl⟩)

theorem lasts_openId (h : u.Managed A mapFile root) (path : String) : u.Lasts (.openId path) := by
  rcases h.owns.openPath_cases path with ⟨e, he⟩ | ⟨x, hx, hmap, hy, hroot, hentry⟩
  · have hopen : Yields (u.volume.openId path) u.drive.disk (.error e) u.drive.disk := by
      rw [Volume.openId_eq]
      exact he.bind_error
    exact h.lasts_error hopen.bind_error h.owns
  cases hinsert : u.volume.openFiles.insert x.place.handle with
  | error e =>
    have hopen : Yields (u.volume.openId path) u.drive.disk (.error e) u.drive.disk := by
      rw [Volume.openId_eq]
      refine hy.bind ?_
      rw [hinsert]
      exact (Yields.throw e _).bind_error
    exact h.lasts_error hopen.bind_error h.owns
  | ok inserted =>
    obtain ⟨id, t⟩ := inserted
    have hopen : Yields (u.volume.openId path) u.drive.disk
        (.ok (id, { u.volume with openFiles := t })) u.drive.disk := by
      rw [Volume.openId_eq]
      refine hy.bind ?_
      rw [hinsert]
      exact (Yields.pure _ _).bind ((Yields.note _ _).bind (Yields.pure _ _))
    obtain ⟨rfl, hlt, -⟩ := HandleTable.insert_eq_ok hinsert
    have hset : (u.volume.openFiles.set id (some x.place.handle)).OwnedBy A :=
      h.owns.open_files.set id (by rintro g ⟨⟩; exact ⟨x, hx, rfl, rfl, hmap⟩)
    refine h.lasts_ok (hopen.bind (Yields.pure _ _)) (h.owns.withOpen hset)
      fun d hd hk i g hg y hy hsector => ?_
    -- the kind is recorded as the entry at the path has it
    obtain ⟨next, hnext⟩ : ∃ next : Usage, next = { u with
        drive := d, volume := { u.volume with
          openFiles := u.volume.openFiles.set id (some x.place.handle) } } := ⟨_, rfl⟩
    have hkind : next.kindAt path = some x.kind := by
      unfold kindAt
      split
      · rename_i hpath
        rw [hroot hpath]
      · rename_i hpath
        obtain ⟨e, he, hkind⟩ := hentry hpath
        have hask : next.ask (next.volume.findEntry path) = .ok e := by
          rw [hnext]
          exact ask_eq hd (hk ▸ he)
        rw [hask]
        exact congrArg some hkind
    show Function.update u.opened id (_ : Option Kind) i = _
    rw [← hnext, hkind]
    by_cases hi : i = id
    · subst hi
      rw [HandleTable.get?_set, if_pos ⟨rfl, hlt⟩] at hg
      cases hg
      rw [Function.update_self, h.owns.ordered.eq_of_sector hy hx hsector]
    · rw [Function.update_of_ne hi]
      rcases HandleTable.get?_set_eq_some hg with ⟨rfl, -⟩ | hg
      · exact absurd rfl hi
      · exact h.opened i g hg y hy hsector

theorem lasts_mount (h : u.Managed A mapFile root) : u.Lasts .mount := by
  obtain ⟨hground, hy⟩ := h.owns.toGrounded.mount_yields
    (h.owns.supports.begins _ h.owns.root_owner).header
  have hnone : ∀ id f, (HandleTable.empty Layout.maxOpen).get? id ≠ some f := fun id f hf => by
    rw [HandleTable.get?_empty] at hf
    cases hf
  exact h.lasts_ok (hy.bind (Yields.pure _ _)) ⟨hground, h.owns.sectors_le, h.owns.ordered,
    h.owns.supports, h.owns.map_owner, h.owns.root_owner, h.owns.used,
    fun id f hf => absurd hf (hnone id f)⟩ fun _ _ _ id f hf => absurd hf (hnone id f)

/-! ### Making and removing -/

theorem lasts_change (h : u.Managed A mapFile root) {q : Request} {x : DriveM Unit}
    (hx : u.volume.Changes u.drive.disk A root x)
    (hperform : q.perform u.volume = do x; return (.done, u.volume))
    (hopened : ∀ next, u.openedBy next q .done = u.opened) : u.Lasts q := by
  obtain ⟨r, k', A', mapFile', hy, howns, hsame⟩ := hx
  have hkinds : ∀ id f, u.volume.openFiles.get? id = some f → ∀ y ∈ A'.owners,
      y.place.sector = f.sector → u.opened id = some y.kind := fun id f hf y hmem hsector =>
    (hsame y hmem).elim (fun hold => h.opened id f hf y hold hsector)
      fun hnew => absurd hsector (hnew id f hf)
  cases r with
  | error e =>
    have hrun : Yields (q.perform u.volume) u.drive.disk (.error e) k' := by
      rw [hperform]
      exact hy.bind_error
    obtain ⟨d, hd, rfl, hcall⟩ := call_error h.fault_free hrun
    unfold Lasts
    rw [hcall]
    exact ⟨A', mapFile', root, hd, howns, hkinds⟩
  | ok =>
    have hrun : Yields (q.perform u.volume) u.drive.disk (.ok (.done, u.volume)) k' := by
      rw [hperform]
      exact hy.bind (Yields.pure _ _)
    exact h.lasts_ok hrun howns fun d _ _ => by rwa [hopened]

/-- **A permitted call** leaves an estate. -/
theorem call (h : u.Managed A mapFile root) {q : Request} (hq : q.Permitted u) : u.Lasts q := by
  cases q with
  | create path size =>
    exact h.lasts_change (h.owns.make_changes path .file size nofun) rfl fun _ => rfl
  | makeDirectory path =>
    exact h.lasts_change (h.owns.make_changes path .directory Layout.directorySize fun _ => rfl) rfl
      fun _ => rfl
  | remove path recursive =>
    exact h.lasts_change (h.owns.remove_changes path recursive) rfl fun _ => rfl
  | openId path => exact h.lasts_openId path
  | closeId id => exact h.lasts_closeId id
  | seekId id position => exact h.lasts_seekId id position
  | readId id count => exact h.lasts_readId id count
  | writeId id bytes => exact h.lasts_writeId hq
  | mount => exact h.lasts_mount
  | _ => exact h.lasts_look trivial

end Managed

/-! ## Runs -/

/-- **There is an estate after a format**: the free map file and the root directory. -/
theorem managed_of_format {blank : Drive} (hblank : blank.FaultFree)
    (hlimit : blank.device.sectors ≤ 0x100000000) {v : Volume} {d : Drive}
    (hformat : Volume.format blank = .ok v d) :
    ∃ A mapFile root, ({ drive := d, volume := v } : Usage).Managed A mapFile root := by
  obtain ⟨hsize, hroom⟩ := (Volume.format_ok_iff hblank hlimit).mp ⟨v, d, hformat⟩
  obtain ⟨h₀, h₁, content, k', hy, hsame, hmap, hlength, htable, hused⟩ :=
    Volume.format_made (k := blank.disk) hlimit hsize hroom
  obtain ⟨d', hrun, hd, rfl⟩ := hy blank hblank rfl
  cases hformat.symm.trans hrun
  let map : Place := ⟨Layout.freeMapSector, h₀, Volume.mapChain blank.disk⟩
  let root : Place := ⟨Layout.rootSector, h₁, Volume.rootChain blank.disk⟩
  have hground : Volume.Grounded ⟨map.handle, root.handle, .empty Layout.maxOpen⟩ d.disk
      ⟨map, content⟩ root :=
    ⟨hsame.sectorSize ▸ hsize, hmap, hsame.sectors ▸ hlength, rfl, rfl, rfl, rfl⟩
  obtain ⟨A, howns⟩ := hground.exists_owns (hsame.sectors ▸ hlimit) htable.tabled
    (Volume.nodup_made blank.disk) (fun s hs => hsame.sectors ▸ (hused s).mpr hs) rfl
  refine ⟨A, ⟨map, content⟩, root, hd, howns, fun id f hf => ?_⟩
  rw [HandleTable.get?_empty] at hf
  cases hf

/-- **There is an estate in every state of a run**, on every device whose sectors have numbers of 32
bits. -/
theorem Reached.managed {blank : Drive} (hblank : blank.FaultFree)
    (hlimit : blank.device.sectors ≤ 0x100000000) {u : Usage} (h : Reached blank u) :
    ∃ A mapFile root, u.Managed A mapFile root := by
  induction h with
  | format hformat => exact managed_of_format hblank hlimit hformat
  | call q _ hq ih =>
    obtain ⟨A, mapFile, root, hu⟩ := ih
    exact hu.call hq

end Usage

end SectorChain
