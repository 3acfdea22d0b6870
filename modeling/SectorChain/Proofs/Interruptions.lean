import SectorChain.Proofs.Reading

/-!
# Runs with faults

An access that fails ends the operation that asked for it, with the disk as it was before the
access. `Survives F x k Q C` says what may be on the disk then: begun on any drive that holds `k`
and fails where `F` says, `x` answers `a` and leaves a disk with `Q a`, or fails with `e` and leaves
one with `C e`. Nothing is assumed of `F`.

An operation that only reads is `Candid`: where no access fails, it ends as it would without
faults, and it asks for nothing but reads. What it yields on a disk is therefore all that it can
answer.

Results:
* `Survives.bind`, `Survives.attempt`, `Survives.rethrow`: operations in sequence.
* `Candid.survives`: what a candid operation answers under faults.
* `writeSector_survives`: a write is made, or fails and changes nothing.
-/

namespace SectorChain

/-- The error is one of an access that the fault pattern makes fail. -/
def Faults.Injects (F : Faults) (e : VolumeError) : Prop :=
  ∃ t a, F t a = true ∧ e = .io (.injected a)

variable {α β γ : Type} {F : Faults} {k k' : Disk}

/-! ## What is left behind -/

/-- **What an operation leaves behind, whatever accesses fail.** -/
def Survives (F : Faults) (x : DriveM α) (k : Disk) (Q : α → Disk → Prop)
    (C : VolumeError → Disk → Prop) : Prop :=
  ∀ d : Drive, d.device.Reliable → d.faults = F → d.disk = k →
    ∃ r d', x d = ended r d' ∧ d'.device.Reliable ∧ d'.faults = F ∧
      (∀ a, r = .ok a → Q a d'.disk) ∧ ∀ e, r = .error e → C e d'.disk

namespace Survives

variable {x : DriveM α} {f : α → DriveM β} {Q Q' : α → Disk → Prop} {R : β → Disk → Prop}
  {C C' : VolumeError → Disk → Prop}

theorem pure {a : α} (h : Q a k) : Survives F (Pure.pure a) k Q C :=
  fun d hd hF hk => ⟨.ok a, d, rfl, hd, hF, by rintro b ⟨⟩; exact hk ▸ h, by rintro e ⟨⟩⟩

theorem throw {e : VolumeError} (h : C e k) : Survives F (throw e : DriveM α) k Q C :=
  fun d hd hF hk => ⟨.error e, d, rfl, hd, hF, by rintro b ⟨⟩, by rintro e ⟨⟩; exact hk ▸ h⟩

theorem bind (hx : Survives F x k Q C) (hf : ∀ a k', Q a k' → Survives F (f a) k' R C) :
    Survives F (x >>= f) k R C := by
  intro d hd hF hk
  obtain ⟨r, d₁, h₁, hd₁, hF₁, hQ, hC⟩ := hx d hd hF hk
  cases r with
  | ok a =>
    rw [run_bind_ok h₁]
    exact hf a _ (hQ a rfl) d₁ hd₁ hF₁ rfl
  | error e =>
    rw [run_bind_error h₁]
    exact ⟨.error e, d₁, rfl, hd₁, hF₁, by rintro b ⟨⟩, by rintro e' ⟨⟩; exact hC e rfl⟩

theorem mono (hx : Survives F x k Q C) (hQ : ∀ a k', Q a k' → Q' a k')
    (hC : ∀ e k', C e k' → C' e k') : Survives F x k Q' C' := by
  intro d hd hF hk
  obtain ⟨r, d', h, hd', hF', hok, herror⟩ := hx d hd hF hk
  exact ⟨r, d', h, hd', hF', fun a ha => hQ a _ (hok a ha), fun e he => hC e _ (herror e he)⟩

theorem discard (hx : Survives F x k Q C) :
    Survives F (Functor.discard x) k (fun _ k' => ∃ a, Q a k') C := by
  intro d hd hF hk
  obtain ⟨r, d', h, hd', hF', hQ, hC⟩ := hx d hd hF hk
  show ∃ r d', EStateM.map _ x d = _ ∧ _
  unfold EStateM.map
  rw [h]
  cases r with
  | ok a => exact ⟨.ok (), d', rfl, hd', hF', fun _ _ => ⟨a, hQ a rfl⟩, by rintro e ⟨⟩⟩
  | error e => exact ⟨.error e, d', rfl, hd', hF', by rintro b ⟨⟩, by rintro e' ⟨⟩; exact hC e rfl⟩

/-- An error as a value. -/
theorem attempt (hx : Survives F x k Q C) :
    Survives F (Drive.attempt x) k
      (fun r k' => (∃ a, r = .ok a ∧ Q a k') ∨ ∃ e, r = .error e ∧ C e k') C' := by
  intro d hd hF hk
  obtain ⟨r, d', h, hd', hF', hQ, hC⟩ := hx d hd hF hk
  refine ⟨.ok r, d', ?_, hd', hF', ?_, by rintro e ⟨⟩⟩
  · unfold Drive.attempt
    rw [h]
    cases r <;> rfl
  · rintro _ ⟨⟩
    cases r with
    | ok a => exact .inl ⟨a, rfl, hQ a rfl⟩
    | error e => exact .inr ⟨e, rfl, hC e rfl⟩

/-- An error that is noted and thrown again is as good as one that is not caught. -/
theorem rethrow {g : Except VolumeError α → DriveM β} {n : VolumeError → Note}
    (hg : ∀ e, g (.error e) = (do
      Drive.note (n e)
      MonadExcept.throw e)) (h : Survives F (x >>= fun a => g (.ok a)) k R C) :
    Survives F (Drive.attempt x >>= g) k R C := by
  intro d hd hF hk
  obtain ⟨r, d', h, hrest⟩ := h d hd hF hk
  cases hx : x d with
  | ok a d₁ =>
    have hattempt : Drive.attempt x d = .ok (.ok a) d₁ := by
      unfold Drive.attempt
      rw [hx]
    rw [run_bind_ok hx] at h
    exact ⟨r, d', (run_bind_ok hattempt).trans h, hrest⟩
  | error e d₁ =>
    have hattempt : Drive.attempt x d = .ok (.error e) d₁ := by
      unfold Drive.attempt
      rw [hx]
    rw [run_bind_error hx] at h
    cases r with
    | ok b => cases h
    | error e' =>
      cases h
      refine ⟨.error e, { d' with notes := d'.notes.push (n e) }, ?_, hrest⟩
      rw [run_bind_ok hattempt, hg]
      rfl

/-- What only reads leaves the disk as it was. -/
theorem still (hx : Still x) :
    Survives F x k (fun _ k' => k' = k) (fun _ k' => k' = k) := by
  intro d hd hF hk
  obtain ⟨hdevice, hfaults⟩ := hx d
  cases h : x d with
  | ok a d' =>
    rw [h] at hdevice hfaults
    refine ⟨.ok a, d', rfl, hdevice ▸ hd, hfaults.trans hF, fun _ _ => ?_, by rintro e ⟨⟩⟩
    exact (congrArg Device.disk hdevice).trans hk
  | error e d' =>
    rw [h] at hdevice hfaults
    refine ⟨.error e, d', rfl, hdevice ▸ hd, hfaults.trans hF, by rintro b ⟨⟩, fun _ _ => ?_⟩
    exact (congrArg Device.disk hdevice).trans hk

theorem note (n : Note) : Survives F (Drive.note n) k (fun _ k' => k' = k) C :=
  fun d hd hF hk => ⟨.ok (), { d with notes := d.notes.push n }, rfl, hd, hF, fun _ _ => hk,
    by rintro e ⟨⟩⟩

theorem sectorSize (F : Faults) (k : Disk) :
    Survives F Drive.sectorSize k (fun n k' => k' = k ∧ n = k.sectorSize) C := by
  rintro d hd hF rfl
  exact ⟨.ok _, d, rfl, hd, hF, by rintro n ⟨⟩; exact ⟨rfl, rfl⟩, by rintro e ⟨⟩⟩

theorem dataSize (F : Faults) (k : Disk) :
    Survives F Drive.dataSize k (fun n k' => k' = k ∧ n = k.dataSize) C := by
  rintro d hd hF rfl
  exact ⟨.ok _, d, rfl, hd, hF, by rintro n ⟨⟩; exact ⟨rfl, rfl⟩, by rintro e ⟨⟩⟩

/-- What is said of a run, read off its result. -/
theorem of_run {d : Drive} (hx : Survives F x k Q C) (hd : d.device.Reliable) (hF : d.faults = F)
    (hk : d.disk = k) : (driveAfter (x d)).device.Reliable ∧
      (∀ a d', x d = .ok a d' → Q a d'.disk) ∧ ∀ e d', x d = .error e d' → C e d'.disk := by
  obtain ⟨r, d', h, hd', -, hQ, hC⟩ := hx d hd hF hk
  rw [h]
  cases r with
  | ok a => exact ⟨hd', by rintro b d'' ⟨⟩; exact hQ a rfl, by rintro e d'' ⟨⟩⟩
  | error e => exact ⟨hd', by rintro b d'' ⟨⟩, by rintro e' d'' ⟨⟩; exact hC e rfl⟩

end Survives

/-! ## Operations that only read -/

/-- The drive, with no faults. -/
def Drive.calm (d : Drive) : Drive := { d with faults := fun _ _ => false }

/-- From `d` to `d'` the accesses `l` were asked for, in this order. -/
structure Drive.Logs (d d' : Drive) (l : List Access) : Prop where
  accesses : d'.accesses.toList = d.accesses.toList ++ l
  tally : d'.tally = l.foldl Tally.add d.tally

/-- **The operation only reads, and differs from a run without faults only by an access that
failed.** -/
structure Candid (x : DriveM α) : Prop where
  still : Still x
  run : ∀ d, (∃ e d', Faults.Injects d.faults e ∧ x d = .error e d') ∨
    ∃ r d', x d = ended r d' ∧ x d.calm = ended r d'.calm
  reads : ∀ d : Drive, ∃ l : List Nat, d.Logs (driveAfter (x d)) (l.map .read)

namespace Drive

namespace Logs

variable {d d' d'' : Drive} {l l' : List Access}

theorem nil (haccesses : d'.accesses = d.accesses) (htally : d'.tally = d.tally) : d.Logs d' [] :=
  ⟨by rw [haccesses, List.append_nil], htally⟩

theorem refl (d : Drive) : d.Logs d [] := nil rfl rfl

theorem trans (h : d.Logs d' l) (h' : d'.Logs d'' l') : d.Logs d'' (l ++ l') where
  accesses := by rw [h'.accesses, h.accesses, List.append_assoc]
  tally := by rw [h'.tally, h.tally, List.foldl_append]

end Logs

theorem logs_asked (d : Drive) (a : Access) : d.Logs (d.asked a) [a] :=
  ⟨Array.toList_push, rfl⟩

end Drive

namespace Candid

variable {x : DriveM α} {f : α → DriveM β}

theorem pure (a : α) : Candid (Pure.pure a) :=
  ⟨Still.pure a, fun d => .inr ⟨.ok a, d, rfl, rfl⟩, fun d => ⟨[], .refl d⟩⟩

theorem throw (e : VolumeError) : Candid (throw e : DriveM α) :=
  ⟨Still.throw e, fun d => .inr ⟨.error e, d, rfl, rfl⟩, fun d => ⟨[], .refl d⟩⟩

theorem corrupt (cause : Corruption) : Candid (Drive.corrupt cause : DriveM α) := throw _

theorem bind (hx : Candid x) (hf : ∀ a, Candid (f a)) : Candid (x >>= f) := by
  refine ⟨hx.still.bind fun a => (hf a).still, fun d => ?_, fun d => ?_⟩
  · have hfaults := (hx.still d).2
    rcases hx.run d with ⟨e, d', he, h⟩ | ⟨r, d', h, hcalm⟩
    · exact .inl ⟨e, d', he, run_bind_error h⟩
    · rw [h] at hfaults
      cases r with
      | error e => exact .inr ⟨.error e, d', run_bind_error h, run_bind_error hcalm⟩
      | ok a =>
        have hfaults : d'.faults = d.faults := hfaults
        rw [run_bind_ok h, run_bind_ok hcalm, ← hfaults]
        exact (hf a).run d'
  · obtain ⟨l, hl⟩ := hx.reads d
    cases h : x d with
    | error e d' =>
      rw [h] at hl
      rw [run_bind_error h]
      exact ⟨l, hl⟩
    | ok a d' =>
      rw [h] at hl
      rw [run_bind_ok h]
      obtain ⟨l', hl'⟩ := (hf a).reads d'
      exact ⟨l ++ l', by rw [List.map_append]; exact hl.trans hl'⟩

theorem decoded (r : Except RecordError α) : Candid (Drive.decoded r) := by
  cases r with
  | ok a => exact pure a
  | error e => exact throw _

theorem ofExcept (r : Except VolumeError α) : Candid (Drive.ofExcept r) := by
  cases r with
  | ok a => exact pure a
  | error e => exact throw _

theorem note (n : Note) : Candid (Drive.note n) :=
  ⟨Still.note n, fun d => .inr ⟨.ok (), { d with notes := d.notes.push n }, rfl, rfl⟩,
    fun _ => ⟨[], .nil rfl rfl⟩⟩

theorem sectors : Candid Drive.sectors :=
  ⟨Still.sectors, fun d => .inr ⟨.ok _, d, rfl, rfl⟩, fun d => ⟨[], .refl d⟩⟩

theorem sectorSize : Candid Drive.sectorSize :=
  ⟨Still.sectorSize, fun d => .inr ⟨.ok _, d, rfl, rfl⟩, fun d => ⟨[], .refl d⟩⟩

theorem dataSize : Candid Drive.dataSize :=
  ⟨Still.dataSize, fun d => .inr ⟨.ok _, d, rfl, rfl⟩, fun d => ⟨[], .refl d⟩⟩

theorem readSector (s : Nat) : Candid (Drive.readSector s) := by
  refine ⟨Still.readSector s, fun d => ?_, fun d => ⟨[s], ?_⟩⟩
  · cases hfails : d.faults d.tally (.read s) with
    | true => exact .inl ⟨_, _, ⟨_, _, hfails, rfl⟩, Drive.readSector_fails hfails⟩
    | false =>
      exact .inr ⟨_, _, Drive.readSector_passes hfails, Drive.readSector_passes (d := d.calm) rfl⟩
  · cases hfails : d.faults d.tally (.read s) with
    | true =>
      rw [Drive.readSector_fails hfails]
      exact d.logs_asked _
    | false =>
      obtain ⟨haccesses, htally⟩ := d.logs_asked (.read s)
      rw [Drive.readSector_passes hfails]
      cases (d.device.read s d.device.sectorSize).mapError VolumeError.io <;>
        exact ⟨haccesses, htally⟩

/-- **What it yields is all that it can answer**: under faults it does the same, or fails with the
access that did. -/
theorem survives (hx : Candid x) {r : Except VolumeError α} (hy : Yields x k r k) :
    Survives F x k (fun a k' => k' = k ∧ r = .ok a)
      (fun e k' => k' = k ∧ (r = .error e ∨ Faults.Injects F e)) := by
  intro d hd hF hk
  obtain ⟨r', d', h, hd', hF', hQ, hC⟩ := Survives.still (F := F) hx.still d hd hF hk
  refine ⟨r', d', h, hd', hF', fun a ha => ⟨hQ a ha, ?_⟩, fun e he => ⟨hC e he, ?_⟩⟩
  all_goals
    subst r'
    obtain ⟨d₀, h₀, -⟩ := hy d.calm ⟨hd, rfl⟩ hk
    rcases hx.run d with ⟨e', d₁, he, h₁⟩ | ⟨r₁, d₁, h₁, hcalm⟩
  · rw [h] at h₁
    cases h₁
  · rw [h₀] at hcalm
    rw [h] at h₁
    cases r <;> cases r₁ <;> cases h₁ <;> cases hcalm
    rfl
  · rw [h] at h₁
    cases h₁
    exact .inr (hF ▸ he)
  · rw [h₀] at hcalm
    rw [h] at h₁
    cases r <;> cases r₁ <;> cases h₁ <;> cases hcalm
    exact .inl rfl

theorem survives_ok (hx : Candid x) {a : α} (hy : Yields x k (.ok a) k) :
    Survives F x k (fun b k' => k' = k ∧ b = a) (fun e k' => k' = k ∧ F.Injects e) := by
  refine (hx.survives hy).mono ?_ ?_
  · rintro b k' ⟨hk, ⟨⟩⟩
    exact ⟨hk, rfl⟩
  · rintro e k' ⟨hk, he | he⟩
    · cases he
    · exact ⟨hk, he⟩

theorem survives_error (hx : Candid x) {e : VolumeError} (hy : Yields x k (.error e) k) :
    Survives F x k (fun _ _ => False) (fun _ k' => k' = k) := by
  refine (hx.survives hy).mono ?_ fun _ _ h => h.1
  rintro b k' ⟨-, ⟨⟩⟩

end Candid

namespace Survives

variable {x : DriveM α} {f : α → DriveM β} {R : β → Disk → Prop} {C : VolumeError → Disk → Prop}

/-- A read that finds what it looks for, or fails with an access. -/
theorem read (hx : Candid x) {a : α} (hy : Yields x k (.ok a) k) (hC : ∀ e, F.Injects e → C e k)
    (hf : Survives F (f a) k R C) : Survives F (x >>= f) k R C := by
  refine bind ((hx.survives_ok hy).mono (fun _ _ => id) ?_) ?_
  · rintro e k' ⟨rfl, he⟩
    exact hC e he
  · rintro b k' ⟨rfl, rfl⟩
    exact hf

end Survives

/-! ## Headers, blocks and files -/

theorem Block.fetch_candid (s : Nat) : Candid (Block.fetch s) := by
  refine (Candid.readSector s).bind fun _ => (Candid.decoded _).bind fun p => ?_
  obtain ⟨own, next, data⟩ := p
  dsimp only
  split
  · exact Candid.pure _
  · exact Candid.corrupt _

namespace Header

theorem fetch_candid (s : Nat) : Candid (Header.fetch s) := by
  refine (Candid.readSector s).bind fun _ => (Candid.decoded _).bind fun p => ?_
  obtain ⟨length, blocks, first⟩ := p
  dsimp only
  split
  · exact Candid.pure _
  · exact Candid.corrupt _

theorem walk_candid (blocks left : Nat) (current : Option Nat) :
    Candid (walk blocks left current) := by
  induction left generalizing current with
  | zero =>
    cases current with
    | none => exact Candid.pure _
    | some s => exact Candid.corrupt _
  | succ left ih =>
    cases current with
    | none => exact Candid.corrupt _
    | some s => exact (Block.fetch_candid s).bind fun b => (ih b.next).bind fun _ => Candid.pure _

theorem chain_candid (h : Header) : Candid h.chain := walk_candid _ _ _

theorem follow_candid (blocks hops index : Nat) (block : Block) :
    Candid (follow blocks hops index block) := by
  induction hops generalizing index block with
  | zero => exact Candid.pure _
  | succ hops ih =>
    unfold follow
    cases block.next with
    | none => exact Candid.corrupt _
    | some s => exact (Block.fetch_candid s).bind fun b => ih (index + 1) b

theorem blockAt_candid (h : Header) (offset : Nat) : Candid (h.blockAt offset) := by
  refine Candid.dataSize.bind fun _ => ?_
  dsimp only
  split
  · exact Candid.corrupt _
  · split
    · exact Candid.corrupt _
    · exact (Block.fetch_candid _).bind fun b => follow_candid _ _ _ b

end Header

namespace Handle

theorem fetch_candid (s : Nat) : Candid (Handle.fetch s) :=
  (Header.fetch_candid s).bind fun _ => Candid.pure _

theorem readBlocks_candid (f : Handle) (data count i : Nat) :
    Candid (f.readBlocks data count i) := by
  induction count generalizing i with
  | zero => exact Candid.pure _
  | succ count ih =>
    exact (f.header.blockAt_candid _).bind fun _ => (ih (i + 1)).bind fun _ => Candid.pure _

theorem readAt_candid (f : Handle) (count pos : Nat) : Candid (f.readAt count pos) := by
  unfold readAt
  split
  · exact Candid.pure _
  · exact (Candid.note _).bind fun _ => Candid.dataSize.bind fun data =>
      (f.readBlocks_candid data _ _).bind fun _ => Candid.pure _

end Handle

theorem FreeMap.fetch_candid (f : Handle) (size : Nat) : Candid (FreeMap.fetch f size) :=
  (f.readAt_candid _ _).bind fun _ => (Candid.note _).bind fun _ => Candid.pure _

theorem Entry.header_candid (e : Entry) (path : String) : Candid (e.header path) := by
  unfold Entry.header
  split
  · exact Candid.pure _
  · exact Candid.corrupt _

namespace Directory

theorem fetch_candid (f : Handle) : Candid (Directory.fetch f) :=
  (f.readAt_candid _ _).bind fun _ => (Candid.decoded _).bind fun _ => Candid.pure _

theorem enter_candid (e : Entry) (path : String) : Candid (enter e path) := by
  unfold enter
  split
  · exact Candid.throw _
  · exact (e.header_candid path).bind fun s => (Handle.fetch_candid s).bind fun f =>
      (fetch_candid f).bind fun _ => Candid.pure _

theorem search_candid (dir : Directory) (path name : String) : Candid (dir.search path name) := by
  unfold search
  split
  · exact Candid.pure _
  · exact Candid.throw _

theorem follow_candid (path : String) (r : Route) (dir : Directory) :
    Candid (follow path r dir) := by
  induction r generalizing dir with
  | invalid rest => exact Candid.throw _
  | last n => exact dir.search_candid path n
  | step n rest ih =>
    exact (dir.search_candid path n).bind fun e => (enter_candid e path).bind fun p => ih p.2

theorem erase_candid (dir : Directory) (path name : String) : Candid (dir.erase path name) := by
  rw [erase_eq]
  split
  · exact Candid.throw _
  · exact (Candid.note _).bind fun _ => Candid.pure _

theorem insert_candid (dir : Directory) (path name : String) (kind : Kind) (sector : Nat) :
    Candid (dir.insert path name kind sector) := by
  rw [insert_eq]
  split
  · exact Candid.throw _
  · split
    · exact Candid.throw _
    · exact (Candid.note _).bind fun _ => Candid.pure _

end Directory

namespace Volume

theorem checkPath_candid (path : String) (atRoot : VolumeError) :
    Candid (checkPath path atRoot) := by
  unfold checkPath
  refine (Candid.ofExcept _).bind fun _ => ?_
  split
  · exact Candid.throw _
  · exact Candid.pure _

theorem freeMap_candid (v : Volume) : Candid v.freeMap :=
  Candid.sectors.bind fun _ => FreeMap.fetch_candid _ _

theorem root_candid (v : Volume) : Candid v.root := Directory.fetch_candid _

end Volume

/-! ## Writing -/

namespace Disk

/-- **A write is made**, or it fails and changes nothing. -/
theorem writeSector_survives {i : Nat} {new : Bytes} (hi : i < k.sectors)
    (hlen : new.length = k.sectorSize) :
    Survives F (Drive.writeSector i new) k (fun _ k' => k' = k.put i new)
      (fun e k' => k' = k ∧ F.Injects e) := by
  rintro d hd rfl rfl
  cases hfails : d.faults d.tally (.write i) with
  | true =>
    refine ⟨.error (.io (.injected (.write i))), d.asked (.write i), Drive.writeSector_fails hfails,
      hd, rfl, by rintro a ⟨⟩, ?_⟩
    rintro e ⟨⟩
    exact ⟨rfl, _, _, hfails, rfl⟩
  | false =>
    exact ⟨.ok (), _, Drive.writeSector_passes hfails (Device.checkWrite_of_lt hd hi hlen),
      Device.reliable_put hd hlen, rfl, fun _ _ => Device.disk_put hd hi hlen, by rintro e ⟨⟩⟩

theorem store_survives {b : Block} (hk : 0 < k.dataSize) (hs : b.sector < k.sectors)
    (hb : b.data.length = k.dataSize) :
    Survives F b.store k (fun _ k' => k' = k.putBlock b) (fun e k' => k' = k ∧ F.Injects e) := by
  refine (Survives.note _).bind fun _ k' hk' => ?_
  subst hk'
  exact writeSector_survives hs (length_encode_block hk hb)

theorem storeHeader_survives {s : Nat} (hs : s < k.sectors) (h : Header) :
    Survives F (h.store s) k (fun _ k' => k' = k.putHeader s h)
      (fun e k' => k' = k ∧ F.Injects e) := by
  refine (Survives.sectorSize F k).bind ?_
  rintro n k' ⟨rfl, rfl⟩
  exact writeSector_survives hs (Bytes.length_fit _ _)

end Disk

end SectorChain
