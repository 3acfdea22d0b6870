import SectorChain.Proofs.Failures
import SectorChain.Proofs.Namespace

/-!
# Mounting again

A volume in use is two handles and a table of open files; all else is on the device. The two
handles never change, since nothing writes to the sectors of their headers, so with all ids closed
the volume in use is the one that a mount would answer.

* `Usage.run` makes calls one after the other, and `Usage.closings` closes all that is open.
* `Asks x p` says of any drive, with faults or not, that `x` asks for no accesses but those that
  satisfy `p`.
* `Settled v inv`: the two handles of the volume are those of the inventory.

Results:
* `Reached.settled`: so they are in every state of a run.
* `Sound.run_closings`: with all ids closed, the volume is that of a mount.
* `run_eq`: what is said of two states with one volume and one disk.
* `reached_remounted`: a mount in any state of a run reads two sectors and answers a volume that
  does whatever the old one would.
-/

namespace SectorChain

/-! ## Accesses -/

/-- **The operation asks only for such accesses.** -/
def Asks {α : Type} (x : DriveM α) (p : Access → Prop) : Prop :=
  ∀ d, ∃ l : List Access, (driveAfter (x d)).accesses.toList = d.accesses.toList ++ l ∧
    ∀ a ∈ l, p a

namespace Asks

variable {α β : Type} {x : DriveM α} {f : α → DriveM β} {p q : Access → Prop}

/-- Nothing is asked for. -/
theorem none (h : ∀ d, (driveAfter (x d)).accesses = d.accesses) : Asks x p := fun d =>
  ⟨[], by rw [h, List.append_nil], by rintro a ⟨⟩⟩

theorem pure (a : α) : Asks (Pure.pure a) p := none fun _ => rfl

theorem throw (e : VolumeError) : Asks (throw e : DriveM α) p := none fun _ => rfl

theorem bind (hx : Asks x p) (hf : ∀ a, Asks (f a) p) : Asks (x >>= f) p := by
  intro d
  obtain ⟨l, hl, hp⟩ := hx d
  cases h : x d with
  | error e d' =>
    rw [h] at hl
    rw [run_bind_error h]
    exact ⟨l, hl, hp⟩
  | ok a d' =>
    rw [h] at hl
    rw [run_bind_ok h]
    obtain ⟨l', hl', hp'⟩ := hf a d'
    refine ⟨l ++ l', ?_, fun b hb => (List.mem_append.mp hb).elim (hp b) (hp' b)⟩
    rw [hl', ← List.append_assoc]
    exact congrArg (· ++ l') hl

theorem mono (h : Asks x p) (hpq : ∀ a, p a → q a) : Asks x q := fun d => by
  obtain ⟨l, hl, hp⟩ := h d
  exact ⟨l, hl, fun a ha => hpq a (hp a ha)⟩

theorem get : Asks (MonadState.get : DriveM Drive) p := none fun _ => rfl

theorem note (n : Note) : Asks (Drive.note n) p := none fun _ => rfl

theorem readSector {s : Nat} (h : p (.read s)) : Asks (Drive.readSector s) p := fun d =>
  ⟨[.read s], by rw [Drive.accesses_readSector]; exact Array.toList_push,
    fun _ hb => List.mem_singleton.mp hb ▸ h⟩

theorem decoded (r : Except RecordError α) : Asks (Drive.decoded r) p := by
  cases r with
  | ok a => exact pure a
  | error e => exact throw _

end Asks

/-- **Every answer of the operation is such.** -/
def Answers {α : Type} (x : DriveM α) (P : α → Prop) : Prop := ∀ d a d', x d = .ok a d' → P a

namespace Answers

variable {α β : Type} {x : DriveM α} {f : α → DriveM β} {P : α → Prop} {Q : β → Prop}

theorem pure {a : α} (h : P a) : Answers (Pure.pure a) P := by
  rintro d b d' ⟨⟩
  exact h

theorem bind (hx : Answers x P) (hf : ∀ a, P a → Answers (f a) Q) : Answers (x >>= f) Q := by
  intro d b d' h
  cases hd : x d with
  | error e d₁ =>
    rw [run_bind_error hd] at h
    cases h
  | ok a d₁ =>
    rw [run_bind_ok hd] at h
    exact hf a (hx d a d₁ hd) d₁ b d' h

/-- What comes before does not matter. -/
theorem next (hf : ∀ a, Answers (f a) Q) : Answers (x >>= f) Q :=
  bind (P := fun _ => True) (fun _ _ _ _ => trivial) fun a _ => hf a

end Answers

/-- A file is opened at its start. -/
theorem Handle.fetch_answers (s : Nat) :
    Answers (Handle.fetch s) fun f => f.sector = s ∧ f.position = 0 :=
  Answers.next fun _ => Answers.pure ⟨rfl, rfl⟩

/-- Opening a file reads its header and nothing else. -/
theorem Handle.fetch_asks (s : Nat) : Asks (Handle.fetch s) (· = .read s) := by
  have hheader : Asks (Header.fetch s) (· = .read s) := by
    refine Asks.bind (Asks.readSector rfl) fun _ => (Asks.decoded _).bind fun p => ?_
    obtain ⟨length, blocks, first⟩ := p
    dsimp only
    split
    · exact Asks.pure _
    · exact Asks.throw _
  exact hheader.bind fun _ => Asks.pure _

namespace Volume

/-- A mount reads the two reserved sectors and nothing else. -/
theorem mount_asks : Asks mount fun a =>
    a = .read Layout.freeMapSector ∨ a = .read Layout.rootSector := by
  have hopened : Asks opened fun a =>
      a = .read Layout.freeMapSector ∨ a = .read Layout.rootSector :=
    ((Handle.fetch_asks _).mono fun _ => .inl).bind fun _ =>
      ((Handle.fetch_asks _).mono fun _ => .inr).bind fun _ => Asks.pure _
  refine Asks.bind (Asks.get.bind fun d => ?_) fun _ => hopened.bind fun _ =>
    (Asks.get.bind fun _ => Asks.pure _).bind fun _ => ?_
  · split
    · exact Asks.pure _
    · exact Asks.throw _
  · split
    · exact Asks.throw _
    · exact (Asks.note _).bind fun _ => Asks.pure _

/-! ## What a volume keeps in memory -/

/-- The volume that a mount answers when the inventory is on the device. -/
def mounted (inv : Inventory) : Volume :=
  ⟨inv.mapFile.place.handle, inv.root.handle, .empty Layout.maxOpen⟩

/-- The handles of the volume are those of the inventory, and the table has all its slots. -/
structure Settled (v : Volume) (inv : Inventory) : Prop where
  freeMapFile : v.freeMapFile = inv.mapFile.place.handle
  rootFile : v.rootFile = inv.root.handle
  length_slots : v.openFiles.slots.length = Layout.maxOpen

namespace Settled

variable {v : Volume} {inv : Inventory}

theorem mounted (inv : Inventory) : (mounted inv).Settled inv :=
  ⟨rfl, rfl, List.length_replicate⟩

theorem set (h : v.Settled inv) (id : Nat) (slot : Option Handle) :
    { v with openFiles := v.openFiles.set id slot }.Settled inv :=
  ⟨h.freeMapFile, h.rootFile, (List.length_set ..).trans h.length_slots⟩

/-- No call changes the handles: the places of the two files stay as they are. -/
theorem effect (h : v.Settled inv) {q : Request} {a : Except VolumeError Answer} {v' : Volume}
    {inv' : Inventory} (he : Effect v inv q a v' inv') : v'.Settled inv' := by
  cases he with
  | failed => exact h
  | looked => exact h
  | made => exact ⟨h.freeMapFile, h.rootFile, h.length_slots⟩
  | removed => exact ⟨h.freeMapFile, h.rootFile, h.length_slots⟩
  | opened _ hinsert =>
    obtain ⟨rfl, -, -⟩ := HandleTable.insert_eq_ok hinsert
    exact h.set _ _
  | closed hf => exact h.set _ _
  | sought position hf => exact h.set _ _
  | read count hf _ => exact h.set _ _
  | @written id f _ _ new hf _ _ _ =>
    have hset := h.set id (some (f.seek (f.position + new.length)))
    exact ⟨hset.freeMapFile, hset.rootFile, hset.length_slots⟩
  | mounted => exact mounted inv

/-- The inventory and the table of open files are all that a volume has. -/
theorem eq_of_openFiles {v' : Volume} (h : v.Settled inv) (h' : v'.Settled inv)
    (hopen : v.openFiles = v'.openFiles) : v = v' := by
  obtain ⟨f, g, t⟩ := v
  obtain ⟨f', g', t'⟩ := v'
  obtain ⟨rfl, rfl, -⟩ := h
  obtain ⟨rfl, rfl, -⟩ := h'
  obtain rfl : t = t' := hopen
  rfl

/-- With no file open, the volume is that of a mount. -/
theorem eq_mounted (h : v.Settled inv) (hclosed : ∀ id, v.openFiles.get? id = none) :
    v = Volume.mounted inv := by
  obtain ⟨f, g, ⟨slots⟩⟩ := v
  obtain ⟨rfl, rfl, hlen⟩ := h
  have hslots : slots = List.replicate Layout.maxOpen none := by
    refine List.eq_replicate_iff.mpr ⟨hlen, fun slot hslot => ?_⟩
    obtain ⟨id, hid⟩ := List.mem_iff_getElem?.mp hslot
    have hnone : slots[id]?.join = none := hclosed id
    rw [hid] at hnone
    exact hnone
  rw [hslots]
  rfl

end Settled

/-- Both handles are those of the reserved sectors, at the start of their files. -/
def Reserved (v : Volume) : Prop :=
  (v.freeMapFile.sector = Layout.freeMapSector ∧ v.freeMapFile.position = 0) ∧
    v.rootFile.sector = Layout.rootSector ∧ v.rootFile.position = 0

/-- A format answers with the handles of the reserved sectors. -/
theorem reserved_of_format : Answers format Reserved := by
  have hopened : Answers opened Reserved :=
    (Handle.fetch_answers _).bind fun f hf => (Handle.fetch_answers _).bind fun g hg =>
      Answers.pure ⟨hf, hg⟩
  refine Answers.next fun _ => Answers.next fun n => Answers.next fun _ => Answers.next fun _ =>
    Answers.next fun p => ?_
  refine Answers.next fun _ => Answers.next fun p => ?_
  refine Answers.next fun _ => Answers.next fun _ => Answers.next fun _ =>
    hopened.bind fun v hv => ?_
  exact Answers.next fun _ => Answers.next fun _ => Answers.pure hv

/-- So after a format the handles are those of the inventory. -/
theorem settled_of_format {d d' : Drive} {v : Volume} {inv : Inventory}
    (hformat : format d = .ok v d') (hv : v.Consistent d'.disk inv)
    (hopen : v.openFiles = .empty Layout.maxOpen) : v.Settled inv := by
  obtain ⟨⟨hmap, hmapPos⟩, hroot, hrootPos⟩ := reserved_of_format d v d' hformat
  have heq : ∀ {f : Handle} {p : Place}, f.header = p.header → f.sector = p.sector →
      f.position = 0 → f = p.handle := by
    rintro ⟨h, s, n⟩ p rfl rfl rfl
    rfl
  refine ⟨heq hv.map_header (hmap.trans hv.map_sector.symm) hmapPos,
    heq hv.root_header (hroot.trans hv.root_sector.symm) hrootPos, ?_⟩
  rw [hopen]
  exact List.length_replicate

end Volume

theorem Effect.inventory_of_closeId {v v' : Volume} {inv inv' : Inventory} {id : Nat}
    {a : Except VolumeError Answer} (h : Effect v inv (.closeId id) a v' inv') : inv' = inv := by
  cases h with
  | failed => rfl
  | looked _ hq => exact hq.elim
  | made _ hq _ _ => cases hq
  | closed _ => rfl

/-! ## Sequences of calls -/

namespace Usage

/-- Calls one after the other: their answers and errors, and the state then. -/
def run (u : Usage) : List Request → List (Except VolumeError Answer) × Usage
  | [] => ([], u)
  | q :: rest => ((u.call q).1 :: (run (u.call q).2 rest).1, (run (u.call q).2 rest).2)

/-- Each of the calls is permitted in the state in which it is made. -/
def Permits (u : Usage) : List Request → Prop
  | [] => True
  | q :: rest => q.Permitted u ∧ Permits (u.call q).2 rest

/-- The calls that close all that is open by id. -/
def closings (u : Usage) : List Request := u.volume.openFiles.ids.map fun p => .closeId p.1

variable {blank : Drive} {u u₁ u₂ : Usage} {inv : Inventory}

/-- **In every state of a run** the handles are those of the inventory. -/
theorem Reached.settled (hblank : blank.FaultFree) (hlimit : blank.device.sectors ≤ Link.limit)
    (h : Reached blank u) : ∃ inv, u.Sound inv ∧ u.volume.Settled inv := by
  induction h with
  | format hformat =>
    obtain ⟨inv, hu, -, -, hopen⟩ := sound_of_format hblank hlimit hformat
    exact ⟨inv, hu, Volume.settled_of_format hformat hu.consistent hopen⟩
  | call q _ hq ih =>
    obtain ⟨inv, hu, hsettled⟩ := ih
    obtain ⟨inv', heffect, hu', -⟩ := hu.call hq
    exact ⟨inv', hu', hsettled.effect heffect⟩

/-! ### Closing all ids -/

/-- Closing an id that is open answers, and takes the file out of the table. -/
theorem Sound.call_closeId (h : u.Sound inv) {id : Nat} {f : Handle}
    (hf : u.volume.openFiles.get? id = some f) :
    (u.call (.closeId id)).1 = .ok .done ∧ (u.call (.closeId id)).2.Sound inv ∧
      (u.call (.closeId id)).2.drive.disk = u.drive.disk ∧
      (u.call (.closeId id)).2.volume =
        { u.volume with openFiles := u.volume.openFiles.set id none } := by
  have hclose : Yields ((Request.closeId id).perform u.volume) u.drive.disk
      (.ok (.done, { u.volume with openFiles := u.volume.openFiles.set id none }))
      u.drive.disk :=
    (Volume.Consistent.closeId_yields hf _).bind (Yields.pure _ _)
  obtain ⟨d, hd, hk, hcall⟩ := call_ok h.fault_free hclose
  obtain ⟨inv', heffect, hu', -⟩ := h.call (q := .closeId id) trivial
  rw [hcall] at heffect hu' ⊢
  rw [heffect.inventory_of_closeId] at hu'
  exact ⟨rfl, hu', hk, rfl⟩

/-- Closing ids that are open closes just these. -/
theorem Sound.run_closeIds (h : u.Sound inv) (hv : u.volume.Settled inv) {l : List Nat}
    (hl : l.Nodup) (hopen : ∀ id ∈ l, u.volume.openFiles.get? id ≠ none) :
    (∀ a ∈ (u.run (l.map .closeId)).1, a = .ok .done) ∧
      (u.run (l.map .closeId)).2.Sound inv ∧ (u.run (l.map .closeId)).2.volume.Settled inv ∧
      (u.run (l.map .closeId)).2.drive.disk = u.drive.disk ∧
      ∀ id, (u.run (l.map .closeId)).2.volume.openFiles.get? id =
        if id ∈ l then none else u.volume.openFiles.get? id := by
  induction l generalizing u with
  | nil => exact ⟨by rintro a ⟨⟩, h, hv, rfl, fun id => rfl⟩
  | cons id rest ih =>
    obtain ⟨hid, hrest⟩ := List.nodup_cons.mp hl
    obtain ⟨f, hf⟩ := Option.ne_none_iff_exists'.mp (hopen id List.mem_cons_self)
    obtain ⟨hanswer, hu', hk, hvolume⟩ := h.call_closeId hf
    have hget : ∀ j, (u.call (.closeId id)).2.volume.openFiles.get? j =
        if id = j then none else u.volume.openFiles.get? j := fun j => by
      rw [hvolume]
      show (u.volume.openFiles.set id none).get? j = _
      rw [HandleTable.get?_set]
      simp only [HandleTable.lt_length_of_get? hf, and_true]
    obtain ⟨hanswers, hsound, hsettled, hdisk, hclosed⟩ := ih hu' (hvolume ▸ hv.set id none) hrest
      fun j hj => by
        rw [hget, if_neg (by rintro rfl; exact hid hj)]
        exact hopen j (List.mem_cons_of_mem _ hj)
    refine ⟨fun a ha => ?_, hsound, hsettled, hdisk.trans hk, fun j => ?_⟩
    · rcases List.mem_cons.mp ha with rfl | ha
      · exact hanswer
      · exact hanswers a ha
    · refine (hclosed j).trans ?_
      rw [hget]
      by_cases hj : id = j
      · subst hj
        simp
      · simp [hj, Ne.symm hj]

end Usage

namespace HandleTable

variable {t : HandleTable}

/-- The ids listed are those that are open, with the sectors of the headers. -/
theorem mem_ids_iff {id sector : Nat} :
    (id, sector) ∈ t.ids ↔ ∃ f, t.get? id = some f ∧ f.sector = sector := by
  unfold ids get?
  rw [List.mem_filterMap]
  constructor
  · rintro ⟨⟨slot, i⟩, hmem, hslot⟩
    obtain ⟨f, rfl, hf⟩ := Option.map_eq_some_iff.mp hslot
    cases hf
    exact ⟨f, Option.join_eq_some_iff.mpr (List.mem_zipIdx_iff_getElem?.mp hmem), rfl⟩
  · rintro ⟨f, hf, rfl⟩
    exact ⟨(some f, id), List.mem_zipIdx_iff_getElem?.mpr (Option.join_eq_some_iff.mp hf), rfl⟩

theorem mem_ids {id : Nat} : id ∈ t.ids.map Prod.fst ↔ t.get? id ≠ none := by
  rw [List.mem_map, Option.ne_none_iff_exists']
  constructor
  · rintro ⟨⟨i, sector⟩, hmem, rfl⟩
    obtain ⟨f, hf, -⟩ := mem_ids_iff.mp hmem
    exact ⟨f, hf⟩
  · rintro ⟨f, hf⟩
    exact ⟨(id, f.sector), mem_ids_iff.mpr ⟨f, hf, rfl⟩, rfl⟩

/-- Ids are listed in their order. -/
theorem ascending_ids (t : HandleTable) : (t.ids.map Prod.fst).Pairwise (· < ·) := by
  have hindices : (t.slots.zipIdx.map Prod.snd).Pairwise (· < ·) := by
    rw [List.zipIdx_map_snd]
    exact List.pairwise_lt_range' 1
  unfold ids
  rw [List.map_filterMap]
  refine List.pairwise_filterMap.mpr ((List.pairwise_map.mp hindices).imp ?_)
  rintro ⟨slot, i⟩ ⟨slot', j⟩ hlt a ha b hb
  rw [Option.map_map] at ha hb
  obtain ⟨f, -, rfl⟩ := Option.map_eq_some_iff.mp ha
  obtain ⟨g, -, rfl⟩ := Option.map_eq_some_iff.mp hb
  exact hlt

theorem nodup_ids (t : HandleTable) : (t.ids.map Prod.fst).Nodup :=
  t.ascending_ids.imp Nat.ne_of_lt

end HandleTable

namespace Usage

variable {blank : Drive} {u u₁ u₂ : Usage} {inv : Inventory}

/-- **With all ids closed** the volume is that of a mount, and the disk is as it was. -/
theorem Sound.run_closings (h : u.Sound inv) (hv : u.volume.Settled inv) :
    (∀ a ∈ (u.run u.closings).1, a = .ok .done) ∧ (u.run u.closings).2.Sound inv ∧
      (u.run u.closings).2.volume = Volume.mounted inv ∧
      (u.run u.closings).2.drive.disk = u.drive.disk := by
  have hclosings : u.closings = (u.volume.openFiles.ids.map Prod.fst).map .closeId := by
    unfold closings
    rw [List.map_map]
    rfl
  obtain ⟨hanswers, hsound, hsettled, hdisk, hget⟩ := h.run_closeIds hv
    u.volume.openFiles.nodup_ids fun id hid => HandleTable.mem_ids.mp hid
  rw [← hclosings] at hanswers hsound hsettled hdisk hget
  refine ⟨hanswers, hsound, hsettled.eq_mounted fun id => ?_, hdisk⟩
  rw [hget]
  split
  · rfl
  · rename_i hid
    exact not_not.mp fun hne => hid (HandleTable.mem_ids.mpr hne)

/-! ### Two states of one volume -/

/-- What is permitted depends on what is open, which the inventory says. -/
theorem Sound.permitted_iff (h₁ : u₁.Sound inv) (h₂ : u₂.Sound inv) (hv : u₁.volume = u₂.volume)
    (q : Request) : q.Permitted u₁ ↔ q.Permitted u₂ := by
  have hopened : ∀ id f, u₁.volume.openFiles.get? id = some f → u₁.opened id = u₂.opened id := by
    intro id f hf
    obtain ⟨x, hx, hsector, -⟩ := h₁.consistent.open_files id f hf
    rw [h₁.opened id f hf x hx hsector, h₂.opened id f (hv ▸ hf) x hx hsector]
  cases q with
  | writeId id bytes =>
    show (∀ f, _ → _) ↔ ∀ f, _ → _
    rw [← hv]
    refine forall_congr' fun f => forall_congr' fun hf => ?_
    rw [hopened id f hf]
  | _ => exact Iff.rfl

/-- The inventory is what is read from the disk. -/
theorem Sound.unique {inv' : Inventory} (h₁ : u₁.Sound inv) (h₂ : u₂.Sound inv')
    (hk : u₁.drive.disk = u₂.drive.disk) : inv = inv' :=
  h₁.consistent.unique h₁.fault_free (hk ▸ h₂.consistent)

/-- **One call in two states** with one volume and one disk: the answers are the same, and so are
the volumes and the disks then. -/
theorem Sound.call_eq (h₁ : u₁.Sound inv) (h₂ : u₂.Sound inv) (hv : u₁.volume = u₂.volume)
    (hk : u₁.drive.disk = u₂.drive.disk) {q : Request} (hq : q.Permitted u₁) :
    (u₁.call q).1 = (u₂.call q).1 ∧ (u₁.call q).2.volume = (u₂.call q).2.volume ∧
      (u₁.call q).2.drive.disk = (u₂.call q).2.drive.disk ∧
      ∃ inv', (u₁.call q).2.Sound inv' ∧ (u₂.call q).2.Sound inv' := by
  obtain ⟨inv₁, -, hs₁, -⟩ := h₁.call hq
  obtain ⟨inv₂, -, hs₂, -⟩ := h₂.call ((h₁.permitted_iff h₂ hv q).mp hq)
  have hsame : (u₁.call q).1 = (u₂.call q).1 ∧ (u₁.call q).2.volume = (u₂.call q).2.volume ∧
      (u₁.call q).2.drive.disk = (u₂.call q).2.drive.disk := by
    obtain ⟨r, k', hy₁, -⟩ := h₁.consistent.perform_harmless q
    have hy₂ := hy₁
    rw [hv, hk] at hy₂
    cases r with
    | ok p =>
      obtain ⟨d₁, -, hk₁, hcall₁⟩ := call_ok h₁.fault_free hy₁
      obtain ⟨d₂, -, hk₂, hcall₂⟩ := call_ok h₂.fault_free hy₂
      rw [hcall₁, hcall₂]
      exact ⟨rfl, rfl, hk₁.trans hk₂.symm⟩
    | error e =>
      obtain ⟨d₁, -, hk₁, hcall₁⟩ := call_error h₁.fault_free hy₁
      obtain ⟨d₂, -, hk₂, hcall₂⟩ := call_error h₂.fault_free hy₂
      rw [hcall₁, hcall₂]
      exact ⟨rfl, hv, hk₁.trans hk₂.symm⟩
  obtain ⟨hanswer, hvolume, hdisk⟩ := hsame
  obtain rfl := hs₁.unique hs₂ hdisk
  exact ⟨hanswer, hvolume, hdisk, inv₁, hs₁, hs₂⟩

/-- **Calls one after the other** in two states with one volume and one disk. -/
theorem run_eq (h₁ : u₁.Sound inv) (h₂ : u₂.Sound inv) (hv : u₁.volume = u₂.volume)
    (hk : u₁.drive.disk = u₂.drive.disk) {qs : List Request} (hqs : u₁.Permits qs) :
    u₂.Permits qs ∧ (u₁.run qs).1 = (u₂.run qs).1 ∧
      ∀ s, (u₁.run qs).2.drive.device.sector? s = (u₂.run qs).2.drive.device.sector? s := by
  induction qs generalizing u₁ u₂ inv with
  | nil =>
    refine ⟨trivial, rfl, fun s => ?_⟩
    have hkeep : u₂.drive.disk.Keeps u₁.drive.disk fun _ => True := hk ▸ Disk.Keeps.refl _ _
    exact hkeep.sector?_eq h₂.fault_free h₁.fault_free trivial
  | cons q rest ih =>
    obtain ⟨hq, hrest⟩ := hqs
    obtain ⟨hanswer, hvolume, hdisk, inv', hs₁, hs₂⟩ := h₁.call_eq h₂ hv hk hq
    obtain ⟨hpermits, hanswers, hbytes⟩ := ih hs₁ hs₂ hvolume hdisk hrest
    exact ⟨⟨(h₁.permitted_iff h₂ hv q).mp hq, hpermits⟩, congrArg₂ List.cons hanswer hanswers,
      hbytes⟩

/-! ### Mounting in a state of a run -/

/-- A mount answers, and the state then is sound. -/
theorem Sound.mount (h : u.Sound inv) : ∃ d, Volume.mount u.drive = .ok (Volume.mounted inv) d ∧
    d.disk = u.drive.disk ∧
    ({ u with drive := d, volume := Volume.mounted inv } : Usage).Sound inv := by
  obtain ⟨hv, hmount⟩ := h.consistent.mount_yields
  obtain ⟨d, hd, hfree, hk⟩ := hmount u.drive h.fault_free rfl
  refine ⟨d, hd, hk, hfree, ?_, fun id f hf => ?_, h.sizes⟩
  · rw [hk]
    exact hv
  · have hnone : (HandleTable.empty Layout.maxOpen).get? id = some f := hf
    rw [HandleTable.get?_empty] at hnone
    cases hnone

/-- **A mount loses nothing.** In every state of a run, mounting what is on the device succeeds. It
asks for no accesses but reads of the two reserved sectors, and changes nothing on the device. The
volume that it answers is the one in use after all ids were closed, which can be done: from then on,
whatever calls are made, the answers are the same, and so is every sector of the device. -/
theorem reached_remounted (hblank : blank.FaultFree)
    (hlimit : blank.device.sectors ≤ Link.limit) (h : Reached blank u) :
    ∃ v d, Volume.mount u.drive = .ok v d ∧ d.device = u.drive.device ∧
      (∃ l : List Access, d.accesses.toList = u.drive.accesses.toList ++ l ∧
        ∀ a ∈ l, a = .read Layout.freeMapSector ∨ a = .read Layout.rootSector) ∧
      let old := u.run u.closings
      let new : Usage := { u with drive := d, volume := v }
      (∀ a ∈ old.1, a = .ok .done) ∧ old.2.volume = v ∧
        ∀ qs, old.2.Permits qs → new.Permits qs ∧ (new.run qs).1 = (old.2.run qs).1 ∧
          ∀ s, (new.run qs).2.drive.device.sector? s =
            (old.2.run qs).2.drive.device.sector? s := by
  obtain ⟨inv, hu, hsettled⟩ := h.settled hblank hlimit
  obtain ⟨hanswers, hold, hvolume, hdisk⟩ := hu.run_closings hsettled
  obtain ⟨d, hmount, hk, hnew⟩ := hu.mount
  have hdevice := Volume.mount_still u.drive
  have hasks := Volume.mount_asks u.drive
  rw [hmount] at hdevice hasks
  refine ⟨_, d, hmount, hdevice.1, hasks, hanswers, hvolume, fun qs hqs => ?_⟩
  obtain ⟨hpermits, hsame, hbytes⟩ := run_eq hold hnew hvolume (hdisk.trans hk.symm) hqs
  exact ⟨hpermits, hsame.symm, fun s => (hbytes s).symm⟩

theorem reached_remounted_open : ∃ u : Usage, ∃ f v d, u.volume.openFiles.get? 0 = some f ∧
    Volume.mount u.drive = .ok v d ∧ (u.run u.closings).2.volume = v ∧
      (({ u with drive := d, volume := v } : Usage).run [.remove "/a" false, .list "/" true]).1 =
        ((u.run u.closings).2.run [.remove "/a" false, .list "/" true]).1 := by
  obtain ⟨u, f, hu, hf, -⟩ := Reached.exists_open
  obtain ⟨v, d, hmount, -, -, -, hvolume, hrun⟩ :=
    reached_remounted (Drive.faultFree_blank 64 128) (by decide) hu
  have hsame := hrun [.remove "/a" false, .list "/" true] ⟨trivial, trivial, trivial⟩
  exact ⟨u, f, v, d, hf, hmount, hvolume, hsame.2.1⟩

end Usage

end SectorChain
