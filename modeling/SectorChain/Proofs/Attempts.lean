import SectorChain.Proofs.Claiming
import SectorChain.Proofs.Interchange
import SectorChain.Proofs.Reclaiming
import SectorChain.Proofs.Slices

/-!
# Attempted writes

A drive keeps every access that was asked for, and its fault pattern says which of them failed. The
writes among them, each with whether it was let through, are all that can have changed the disk.
`Attempts F x k P` says of a run of `x` on a drive with the disk `k`, whatever accesses `F` makes
fail, that its outcome `r`, its attempted writes `w` and the disk `k'` at its end satisfy
`P r w k'`. That only writes that were let through have changed anything comes with it.

* `Faults.writes F t l`: the writes among the accesses `l`.
* `InOrder order r w`: the writes `w` went to the sectors in `order`, one after the other, as far as
  they were let through, and to all of them if there was no error.

Results:
* `Attempts.bind`, `Attempts.read`, `Attempts.and_survives`: operations in sequence.
* `writeAt_attempts`: a write to a file goes to the blocks that it touches, in their order.
* `HasFile.overwrite_attempts`: a file that is written over is written along its chain.
* `allocate_attempts`, `writeNew_attempts`: a new file is written to the sectors that it is given.
-/

namespace SectorChain

variable {α β : Type} {F : Faults} {k k' : Disk}

/-! ## Writes in a log -/

/-- The writes among the accesses `l` that were asked for from the tally `t` on: the sector of each,
and whether it was let through. -/
def Faults.writes (F : Faults) : Tally → List Access → List (Nat × Bool)
  | _, [] => []
  | t, .read s :: l => F.writes (t.add (.read s)) l
  | t, .write s :: l => (s, !F t (.write s)) :: F.writes (t.add (.write s)) l

namespace Faults

theorem writes_append (t : Tally) (l l' : List Access) :
    F.writes t (l ++ l') = F.writes t l ++ F.writes (l.foldl Tally.add t) l' := by
  induction l generalizing t with
  | nil => rfl
  | cons a l ih =>
    cases a with
    | read s => exact ih _
    | write s => exact congrArg _ (ih _)

/-- Every write in the log is among them. -/
theorem mem_writes {t : Tally} {l : List Access} {s : Nat} (h : .write s ∈ l) :
    ∃ passed, (s, passed) ∈ F.writes t l := by
  induction l generalizing t with
  | nil => cases h
  | cons a l ih =>
    rcases List.mem_cons.mp h with rfl | h
    · exact ⟨_, List.mem_cons_self⟩
    · obtain ⟨passed, hmem⟩ := ih (t := t.add a) h
      cases a with
      | read i => exact ⟨passed, hmem⟩
      | write i => exact ⟨passed, List.mem_cons_of_mem _ hmem⟩

theorem writes_reads (t : Tally) (l : List Nat) : F.writes t (l.map .read) = [] := by
  induction l generalizing t with
  | nil => rfl
  | cons s l ih => exact ih _

end Faults

/-- **What an operation attempts to write, whatever accesses fail**: its outcome, its writes and the
disk at its end are as `P` says, and a sector is as it was if no write to it was let through. -/
def Attempts (F : Faults) (x : DriveM α) (k : Disk)
    (P : Except VolumeError α → List (Nat × Bool) → Disk → Prop) : Prop :=
  ∀ d : Drive, d.device.Reliable → d.faults = F → d.disk = k →
    ∃ r d' l, x d = ended r d' ∧ d'.device.Reliable ∧ d'.faults = F ∧ d.Logs d' l ∧
      k.Keeps d'.disk (fun s => (s, true) ∉ F.writes d.tally l) ∧ P r (F.writes d.tally l) d'.disk

namespace Attempts

variable {x : DriveM α} {f : α → DriveM β}
  {P P' : Except VolumeError α → List (Nat × Bool) → Disk → Prop}
  {R : Except VolumeError β → List (Nat × Bool) → Disk → Prop}

theorem pure {a : α} (h : P (.ok a) [] k) : Attempts F (Pure.pure a) k P :=
  fun d hd hF hk => ⟨.ok a, d, [], rfl, hd, hF, .refl d, hk ▸ .refl k _, hk ▸ h⟩

theorem throw {e : VolumeError} (h : P (.error e) [] k) : Attempts F (throw e : DriveM α) k P :=
  fun d hd hF hk => ⟨.error e, d, [], rfl, hd, hF, .refl d, hk ▸ .refl k _, hk ▸ h⟩

theorem mono (hx : Attempts F x k P)
    (h : ∀ r w k', (k.Keeps k' fun s => (s, true) ∉ w) → P r w k' → P' r w k') :
    Attempts F x k P' := by
  intro d hd hF hk
  obtain ⟨r, d', l, hrun, hd', hF', hlog, hkeep, hP⟩ := hx d hd hF hk
  exact ⟨r, d', l, hrun, hd', hF', hlog, hkeep, h _ _ _ hkeep hP⟩

/-- **Operations in sequence**: the second one begins with the disk and behind the writes of the
first. -/
theorem bind (hx : Attempts F x k P)
    (herror : ∀ e w k', (k.Keeps k' fun s => (s, true) ∉ w) → P (.error e) w k' →
      R (.error e) w k')
    (hok : ∀ a w k', (k.Keeps k' fun s => (s, true) ∉ w) → P (.ok a) w k' →
      Attempts F (f a) k' fun r w' k'' => R r (w ++ w') k'') :
    Attempts F (x >>= f) k R := by
  intro d hd hF hk
  obtain ⟨r, d₁, l, hrun, hd₁, hF₁, hlog, hkeep, hP⟩ := hx d hd hF hk
  cases r with
  | error e =>
    exact ⟨.error e, d₁, l, run_bind_error hrun, hd₁, hF₁, hlog, hkeep, herror e _ _ hkeep hP⟩
  | ok a =>
    obtain ⟨r, d₂, l', hrun', hd₂, hF₂, hlog', hkeep', hR⟩ := hok a _ _ hkeep hP d₁ hd₁ hF₁ rfl
    have hwrites : F.writes d.tally (l ++ l') = F.writes d.tally l ++ F.writes d₁.tally l' := by
      rw [Faults.writes_append, hlog.tally]
    refine ⟨r, d₂, l ++ l', (run_bind_ok hrun).trans hrun', hd₂, hF₂, hlog.trans hlog', ?_, ?_⟩
    · rw [hwrites]
      exact (hkeep.mono fun s hs hmem => hs (List.mem_append_left _ hmem)).trans
        (hkeep'.mono fun s hs hmem => hs (List.mem_append_right _ hmem))
    · rw [hwrites]
      exact hR

/-- What is known of the disk besides. -/
theorem and_survives {Q : α → Disk → Prop} {C : VolumeError → Disk → Prop} (hx : Attempts F x k P)
    (hs : Survives F x k Q C) : Attempts F x k fun r w k' => P r w k' ∧
      (∀ a, r = .ok a → Q a k') ∧ ∀ e, r = .error e → C e k' := by
  intro d hd hF hk
  obtain ⟨r, d', l, hrun, hd', hF', hlog, hkeep, hP⟩ := hx d hd hF hk
  obtain ⟨r', d'', hrun', -, -, hQ, hC⟩ := hs d hd hF hk
  obtain ⟨rfl, rfl⟩ := ended_inj (hrun.symm.trans hrun')
  exact ⟨r, d', l, hrun, hd', hF', hlog, hkeep, hP, hQ, hC⟩

/-- Without faults the outcome is known besides, and the disk that is left. -/
theorem and_yields (hx : Attempts F x k P) (hF : F = fun _ _ => false)
    {y : Except VolumeError α} {k₁ : Disk} (hy : Yields x k y k₁) :
    Attempts F x k fun r w k' => P r w k' ∧ r = y ∧ k' = k₁ := by
  intro d hd hfaults hk
  obtain ⟨r, d', l, hrun, hd', hF', hlog, hkeep, hP⟩ := hx d hd hfaults hk
  obtain ⟨d'', hrun', -, hk'⟩ := hy d ⟨hd, hfaults.trans hF⟩ hk
  obtain ⟨rfl, rfl⟩ := ended_inj (hrun.symm.trans hrun')
  exact ⟨r, d', l, hrun, hd', hF', hlog, hkeep, hP, rfl, hk'⟩

/-- What only reads attempts no write, and changes nothing. -/
theorem candid (hx : Candid x) : Attempts F x k fun _ w k' => w = [] ∧ k' = k := by
  intro d hd hF hk
  obtain ⟨hdevice, hfaults⟩ := hx.still d
  obtain ⟨l, hlog⟩ := hx.reads d
  have hwrites : F.writes d.tally (l.map .read) = [] := Faults.writes_reads _ l
  cases hrun : x d with
  | ok a d' =>
    rw [hrun] at hdevice hfaults hlog
    have hdisk : d'.disk = k := (congrArg Device.disk hdevice).trans hk
    exact ⟨.ok a, d', _, rfl, hdevice ▸ hd, hfaults.trans hF, hlog, hdisk ▸ .refl _ _, hwrites,
      hdisk⟩
  | error e d' =>
    rw [hrun] at hdevice hfaults hlog
    have hdisk : d'.disk = k := (congrArg Device.disk hdevice).trans hk
    exact ⟨.error e, d', _, rfl, hdevice ▸ hd, hfaults.trans hF, hlog, hdisk ▸ .refl _ _, hwrites,
      hdisk⟩

/-- A read that finds what it looks for, or fails with an access. -/
theorem read (hx : Candid x) {a : α} (hy : Yields x k (.ok a) k) (herror : ∀ e, R (.error e) [] k)
    (hf : Attempts F (f a) k R) : Attempts F (x >>= f) k R := by
  refine ((candid hx).and_survives (hx.survives_ok hy)).bind ?_ ?_
  · rintro e w k' - ⟨⟨rfl, rfl⟩, -⟩
    exact herror e
  · rintro b w k' - ⟨⟨rfl, rfl⟩, hok, -⟩
    obtain ⟨-, rfl⟩ := hok b rfl
    exact hf

/-- A read that fails whatever happens. -/
theorem fails (hx : Candid x) {e : VolumeError} (hy : Yields x k (.error e) k)
    (herror : ∀ e, R (.error e) [] k) : Attempts F (x >>= f) k R := by
  refine ((candid hx).and_survives (hx.survives_error hy)).bind ?_ ?_
  · rintro e w k' - ⟨⟨rfl, rfl⟩, -⟩
    exact herror e
  · rintro b w k' - ⟨-, hok, -⟩
    exact (hok b rfl).elim

/-- A read of which only matters that it changes nothing. -/
theorem look (hx : Candid x) (herror : ∀ e, R (.error e) [] k)
    (hf : ∀ a, Attempts F (f a) k R) : Attempts F (x >>= f) k R := by
  refine (candid hx).bind ?_ ?_
  · rintro e w k' - ⟨rfl, rfl⟩
    exact herror e
  · rintro a w k' - ⟨rfl, rfl⟩
    exact hf a

/-- The writes of both operations are as `p` says when those of each are. -/
theorem within {p : Nat → Prop} (hx : Attempts F x k fun _ w _ => ∀ y ∈ w, p y.1)
    (hf : ∀ a k', Attempts F (f a) k' fun _ w _ => ∀ y ∈ w, p y.1) :
    Attempts F (x >>= f) k fun _ w _ => ∀ y ∈ w, p y.1 := by
  refine hx.bind (fun _ _ _ _ h => h) fun a w k' _ hw => ?_
  refine (hf a k').mono fun r w' k'' _ hw' y hy => ?_
  exact (List.mem_append.mp hy).elim (hw y) (hw' y)

/-- The same without faults, where what the first one leaves for the second is known. -/
theorem within_ok {p : Nat → Prop} (hx : Attempts F x k fun _ w _ => ∀ y ∈ w, p y.1)
    (hF : F = fun _ _ => false) {a : α} {k₁ : Disk} (hy : Yields x k (.ok a) k₁)
    (hf : Attempts F (f a) k₁ fun _ w _ => ∀ y ∈ w, p y.1) :
    Attempts F (x >>= f) k fun _ w _ => ∀ y ∈ w, p y.1 := by
  refine (hx.and_yields hF hy).bind ?_ ?_
  · rintro e w k' - ⟨-, herror, -⟩
    cases herror
  · rintro b w k' - ⟨hw, hb, rfl⟩
    cases hb
    refine hf.mono fun r w' k'' _ hw' y hy => ?_
    exact (List.mem_append.mp hy).elim (hw y) (hw' y)

theorem discard (hx : Attempts F x k P) : Attempts F (Functor.discard x) k fun r w k' =>
    ∃ r', P r' w k' ∧ r = r'.map fun _ => () := by
  intro d hd hF hk
  obtain ⟨r, d', l, hrun, hd', hF', hlog, hkeep, hP⟩ := hx d hd hF hk
  refine ⟨r.map fun _ => (), d', l, ?_, hd', hF', hlog, hkeep, r, hP, rfl⟩
  show EStateM.map _ x d = _
  unfold EStateM.map
  rw [hrun]
  cases r <;> rfl

/-- An error as a value. -/
theorem attempt (hx : Attempts F x k P) : Attempts F (Drive.attempt x) k fun r w k' =>
    ∃ r', r = .ok r' ∧ P r' w k' := by
  intro d hd hF hk
  obtain ⟨r, d', l, hrun, hd', hF', hlog, hkeep, hP⟩ := hx d hd hF hk
  refine ⟨.ok r, d', l, ?_, hd', hF', hlog, hkeep, r, rfl, hP⟩
  unfold Drive.attempt
  rw [hrun]
  cases r <;> rfl

/-- An error that is noted and thrown again is as good as one that is not caught. -/
theorem rethrow {g : Except VolumeError α → DriveM β} {n : VolumeError → Note}
    (hg : ∀ e, g (.error e) = (do
      Drive.note (n e)
      MonadExcept.throw e)) (h : Attempts F (x >>= fun a => g (.ok a)) k R) :
    Attempts F (Drive.attempt x >>= g) k R := by
  intro d hd hF hk
  obtain ⟨r, d', l, h, hd', hF', hlog, hrest⟩ := h d hd hF hk
  cases hx : x d with
  | ok a d₁ =>
    have hattempt : Drive.attempt x d = .ok (.ok a) d₁ := by
      unfold Drive.attempt
      rw [hx]
    rw [run_bind_ok hx] at h
    exact ⟨r, d', l, (run_bind_ok hattempt).trans h, hd', hF', hlog, hrest⟩
  | error e d₁ =>
    have hattempt : Drive.attempt x d = .ok (.error e) d₁ := by
      unfold Drive.attempt
      rw [hx]
    rw [run_bind_error hx] at h
    cases r with
    | ok b => cases h
    | error e' =>
      cases h
      refine ⟨.error e, { d' with notes := d'.notes.push (n e) }, l, ?_, hd', hF',
        ⟨hlog.accesses, hlog.tally⟩, hrest⟩
      rw [run_bind_ok hattempt, hg]
      rfl

/-- **One write**: it is the only attempt, and if it was not let through there is an error. -/
theorem writeSector (i : Nat) (new : Bytes) : Attempts F (Drive.writeSector i new) k
    fun r w _ => ∃ passed, w = [(i, passed)] ∧ ∀ a, r = .ok a → passed = true := by
  rintro d hd rfl rfl
  have hlog : d.Logs (d.asked (.write i)) [.write i] := d.logs_asked _
  cases hfails : d.faults d.tally (.write i) with
  | true =>
    have hwrites : d.faults.writes d.tally [.write i] = [(i, false)] := by
      simp [Faults.writes, hfails]
    exact ⟨.error (.io (.injected (.write i))), _, _, Drive.writeSector_fails hfails, hd, rfl,
      hlog, .refl _ _, false, hwrites, fun a ha => by cases ha⟩
  | false =>
    have hwrites : d.faults.writes d.tally [.write i] = [(i, true)] := by
      simp [Faults.writes, hfails]
    cases hcheck : d.device.checkWrite i new with
    | error e =>
      exact ⟨.error (.io e), _, _, Drive.writeSector_refused hfails hcheck, hd, rfl, hlog,
        .refl _ _, true, hwrites, fun _ _ => rfl⟩
    | ok =>
      obtain ⟨hi, hlen⟩ := Device.check_ok ((Device.checkWrite_eq hd i new).symm.trans hcheck)
      refine ⟨.ok (), _, _, Drive.writeSector_passes hfails hcheck, Device.reliable_put hd hlen,
        rfl, ⟨hlog.accesses, hlog.tally⟩, ?_, true, hwrites, fun _ _ => rfl⟩
      have hdisk : (d.device.put i new).disk = d.disk.put i new := Device.disk_put hd hi hlen
      show d.disk.Keeps (d.device.put i new).disk _
      rw [hdisk, hwrites]
      exact (Disk.keeps_put d.disk i new).mono fun s hs heq =>
        hs (heq ▸ List.mem_singleton.mpr rfl)

end Attempts

/-! ## Writes in order -/

/-- **The writes went to the sectors in `order`**, one after the other. At most the last one was not
let through; and if there was no error, all of the sectors were written. -/
structure InOrder (order : List Nat) (r : Except VolumeError α) (w : List (Nat × Bool)) : Prop where
  sectors : w.map Prod.fst <+: order
  passed : ∀ x ∈ w.dropLast, x.2 = true
  done : ∀ a, r = .ok a → w = order.map (·, true)

namespace InOrder

variable {order order' : List Nat} {r : Except VolumeError α} {w w' : List (Nat × Bool)}

theorem none (e : VolumeError) (order : List Nat) : InOrder order (.error e : Except _ α) [] :=
  ⟨List.nil_prefix, nofun, nofun⟩

theorem nil (r : Except VolumeError α) : InOrder [] r [] := ⟨List.nil_prefix, nofun, fun _ _ => rfl⟩

/-- One write. -/
theorem single {s : Nat} {passed : Bool} (h : ∀ a, r = .ok a → passed = true) :
    InOrder [s] r [(s, passed)] :=
  ⟨List.prefix_refl _, nofun, fun a ha => by rw [h a ha]; rfl⟩

/-- After all of the first sectors were written. -/
theorem after (order : List Nat) (h : InOrder order' r w) :
    InOrder (order ++ order') r (order.map (·, true) ++ w) where
  sectors := by
    have hfst : (order.map (·, true)).map Prod.fst = order := by simp [Function.comp_def]
    rw [List.map_append, hfst]
    exact (List.prefix_append_right_inj order).mpr h.sectors
  passed x hx := by
    have htrue : ∀ y ∈ order.map (·, true), y.2 = true := by simp
    cases w with
    | nil =>
      rw [List.append_nil] at hx
      exact htrue x (List.dropLast_subset _ hx)
    | cons y rest =>
      rw [List.dropLast_append_of_ne_nil (by simp)] at hx
      rcases List.mem_append.mp hx with hx | hx
      · exact htrue x hx
      · exact h.passed x hx
  done a ha := by rw [h.done a ha, List.map_append]

/-- An error in the first part is one of the whole. -/
theorem cut {e : VolumeError} (h : InOrder order (.error e : Except _ α) w) (order' : List Nat) :
    InOrder (order ++ order') (.error e : Except _ β) w :=
  ⟨h.sectors.trans (List.prefix_append _ _), h.passed, nofun⟩

/-- The answer does not matter. -/
theorem map (h : InOrder order r w) (f : α → β) : InOrder order (r.map f) w where
  sectors := h.sectors
  passed := h.passed
  done b hb := by
    cases r with
    | error e => cases hb
    | ok a => exact h.done a rfl

theorem mem (h : InOrder order r w) {x : Nat × Bool} (hx : x ∈ w) : x.1 ∈ order :=
  h.sectors.subset (List.mem_map_of_mem hx)

end InOrder

namespace Disk

/-! ## Headers, blocks and files -/

theorem store_attempts (b : Block) : Attempts F b.store k fun r w _ => InOrder [b.sector] r w := by
  refine Attempts.read (Candid.note _) (Yields.note _ k) (fun e => .none e _)
    ((Attempts.writeSector b.sector b.encode).mono ?_)
  rintro r w k' - ⟨passed, rfl, hok⟩
  exact .single hok

theorem storeHeader_attempts (h : Header) (s : Nat) :
    Attempts F (h.store s) k fun r w _ => InOrder [s] r w := by
  refine Attempts.read Candid.sectorSize (Yields.sectorSize k) (fun e => .none e _)
    ((Attempts.writeSector s _).mono ?_)
  rintro r w k' - ⟨passed, rfl, hok⟩
  exact .single hok

/-- **Writing block by block** goes along the chain. -/
theorem writeBlocks_attempts {f : Handle} {l : List Nat} (hk : 0 < k.dataSize)
    (hc : k.Chained f.header l) {count : Nat} (bytes : Bytes) (pos : Nat)
    (hcount : pos / k.dataSize + count ≤ l.length) :
    Attempts F (f.writeBlocks k.dataSize count bytes pos) k fun r w _ =>
      InOrder ((l.drop (pos / k.dataSize)).take count) r w := by
  induction count generalizing k bytes pos with
  | zero => exact Attempts.pure (.nil _)
  | succ count ih =>
    have hi : pos / k.dataSize < l.length := by omega
    obtain ⟨hblock, -, hlinked, -⟩ := hc.linked.writtenBlock hk bytes hi
    obtain ⟨hnext, -⟩ := next_block pos hk
    have horder : (l.drop (pos / k.dataSize)).take (count + 1) =
        [l[pos / k.dataSize]] ++ (l.drop (pos / k.dataSize + 1)).take count := by
      rw [List.drop_eq_getElem_cons hi, List.take_succ_cons]
      rfl
    rw [horder]
    unfold Handle.writeBlocks
    refine Attempts.read (f.header.blockAt_candid _)
      (hc.blockAt_yields (Nat.mul_div_cancel _ hk) hi) (fun e => .none e _) ?_
    refine ((store_attempts (k.writtenBlock l bytes pos hi)).and_survives
      (store_survives hk hblock.1 (length_writtenBlock hk bytes hi))).bind ?_ ?_
    · rintro e w k' - ⟨horder, -⟩
      exact horder.cut _
    · rintro ⟨⟩ w k' - ⟨horder, hstored, -⟩
      obtain rfl := hstored _ rfl
      have hrest := ih (k := k.putBlock (k.writtenBlock l bytes pos hi)) hk
        ⟨hlinked, hc.first, hc.blocks⟩ (bytes.drop (k.dataSize - pos % k.dataSize))
        (pos + (k.dataSize - pos % k.dataSize))
        (show (pos + (k.dataSize - pos % k.dataSize)) / k.dataSize + count ≤ l.length by omega)
      refine hrest.mono fun r w' k'' _ hrest => ?_
      rw [horder.done _ rfl]
      exact .after _ (hnext ▸ hrest)

/-- **A write goes to the blocks that it touches**, in the order of the chain. -/
theorem writeAt_attempts {f : Handle} {l : List Nat} (hk : 0 < k.dataSize)
    (hc : k.Chained f.header l) (bytes : Bytes) (pos : Nat)
    (hlen : min (pos + bytes.length) f.header.length ≤ l.length * k.dataSize) :
    Attempts F (f.writeAt bytes pos) k fun r w _ =>
      InOrder (k.touched l (bytes.take (f.header.length - pos)).length pos) r w := by
  unfold Handle.writeAt Handle.length
  cases hclamp : Handle.clamp? bytes.length pos f.header.length with
  | none =>
    have hnil : (bytes.take (f.header.length - pos)).length = 0 := by
      rw [List.length_take]
      rcases clamp?_eq_none hclamp with hbytes | hpos <;> omega
    rw [hnil]
    exact Attempts.pure (.nil _)
  | some n =>
    obtain ⟨hn, hroom, hmin⟩ := clamp?_eq_some hclamp
    have hlength : (bytes.take (f.header.length - pos)).length = n := by
      rw [List.length_take, hmin, Nat.min_comm]
    have htouched : k.touched l n pos =
        (l.drop (pos / k.dataSize)).take (Handle.span n pos k.dataSize) :=
      if_neg (Nat.pos_iff_ne_zero.mp hn)
    rw [hlength, htouched]
    refine Attempts.read (Candid.note _) (Yields.note _ k) (fun e => .none e _) ?_
    refine Attempts.read Candid.dataSize (Yields.dataSize k) (fun e => .none e _) ?_
    refine (writeBlocks_attempts hk hc (bytes.take n) pos (div_add_span_le hk hn
      (show pos + n ≤ l.length * k.dataSize by omega))).bind (fun e w k' _ h => ?_) ?_
    · exact ⟨h.sectors, h.passed, nofun⟩
    · rintro ⟨⟩ w k' - h
      refine Attempts.pure ?_
      rw [List.append_nil, h.done _ rfl]
      simpa using InOrder.after ((l.drop (pos / k.dataSize)).take (Handle.span n pos k.dataSize))
        (InOrder.nil (.ok n))

/-- All bytes of a file are in all blocks of it. -/
theorem touched_whole {l : List Nat} {n : Nat} (hl : l.length = Layout.blocksFor n k.dataSize) :
    k.touched l n 0 = l := by
  unfold touched
  split
  · rename_i hn
    have hblocks : Layout.blocksFor n k.dataSize = 0 := by
      rw [hn, Layout.blocksFor, Nat.zero_add]
      rcases Nat.eq_zero_or_pos k.dataSize with h | h
      · rw [h]
      · exact Nat.div_eq_of_lt (by omega)
    exact (List.eq_nil_of_length_eq_zero (hl.trans hblocks)).symm
  · rw [Nat.zero_div, List.drop_zero, List.take_of_length_le]
    rw [hl, Handle.span, Layout.blocksFor, Nat.zero_div, Nat.sub_zero, Nat.zero_add]
    rcases Nat.eq_zero_or_pos k.dataSize with h | h
    · rw [h, Nat.div_zero]
      exact Nat.zero_le _
    · rw [← Nat.add_div_right _ h]
      exact Nat.div_le_div_right (by omega)

/-- **A file that is written over** is written along its chain. -/
theorem HasFile.overwrite_attempts {p : Place} {content bytes : Bytes} (h : k.HasFile p content)
    (hk : 0 < k.dataSize) {f : Handle} (hf : f.header = p.header)
    (hlen : bytes.length = content.length) :
    Attempts F (Functor.discard (f.writeAt bytes 0)) k fun r w _ => InOrder p.chain r w := by
  have hlength : bytes.length = f.header.length := by rw [hlen, h.length_content hk, hf]
  have hchain : k.touched p.chain (bytes.take (f.header.length - 0)).length 0 = p.chain := by
    rw [Nat.sub_zero, ← hlength, List.take_length, hlength, hf]
    exact touched_whole h.blocks
  have hwrite := writeAt_attempts (F := F) hk (hf ▸ h.chained : k.Chained f.header p.chain) bytes 0
    (Nat.le_trans (Nat.min_le_right _ _) (hf ▸ h.length_le hk))
  rw [hchain] at hwrite
  refine hwrite.discard.mono ?_
  rintro r w k' - ⟨r', h, rfl⟩
  exact h.map _

/-! ## New files -/

/-- **Growing a chain** writes to the block before it and to the sectors that it claims. -/
theorem grow_attempts (data : Nat) {p : Nat → Prop} {m : FreeMap} {count : Nat}
    {prev : Option Block} (hbehind : ∀ b ∈ prev, ∀ s ∈ m.free, b.sector < s)
    (hprev : ∀ b ∈ prev, p b.sector)
    (hnew : ∀ s ∈ m.free.take count, p s) :
    Attempts F (Header.grow data count prev m) k fun _ w _ => ∀ y ∈ w, p y.1 := by
  have hstore : ∀ (k : Disk) (b : Block), p b.sector →
      Attempts F b.store k fun _ w _ => ∀ y ∈ w, p y.1 := fun k b hb =>
    (store_attempts b).mono fun r w k' _ h y hy => List.mem_singleton.mp (h.mem hy) ▸ hb
  have hnothing : ∀ (k : Disk) (a : FreeMap × Except VolumeError Unit),
      Attempts F (pure a) k fun _ w _ => ∀ y ∈ w, p y.1 := fun k a =>
    Attempts.pure fun y hy => by cases hy
  induction count generalizing k m prev with
  | zero => exact hnothing k _
  | succ count ih =>
    have hnext : m.freeFrom? (prev.elim 0 (·.sector + 1)) = m.free.head? := by
      refine FreeMap.freeFrom?_eq fun s hs => ?_
      cases prev with
      | none => exact Nat.zero_le s
      | some b => exact hbehind b rfl s hs
    unfold Header.grow
    rw [hnext]
    cases hfree : m.free with
    | nil => exact hnothing k _
    | cons s rest =>
      rw [hfree, List.take_succ_cons] at hnew
      have hs : p s := hnew s List.mem_cons_self
      have hmark : (m.mark s).free = rest := FreeMap.free_mark_head hfree
      have hgrow : ∀ (k : Disk) (b : Block), b.sector = s →
          Attempts F (Header.grow data count (some b) (m.mark s)) k
            fun _ w _ => ∀ y ∈ w, p y.1 := by
        rintro k b rfl
        refine ih ?_ ?_ ?_
        · rintro b' ⟨⟩ t ht
          rw [hmark] at ht
          exact (FreeMap.lt_of_free_cons hfree).2 t ht
        · rintro b' ⟨⟩
          exact hs
        · rw [hmark]
          exact fun t ht => hnew t (List.mem_cons_of_mem _ ht)
      have hwritten : ∀ {x : DriveM Unit}, Attempts F x k (fun _ w _ => ∀ y ∈ w, p y.1) →
          Attempts F (Drive.attempt x) k fun _ w _ => ∀ y ∈ w, p y.1 := fun hx =>
        hx.attempt.mono (by
          rintro r w k' - ⟨r', -, h⟩
          exact h)
      cases prev with
      | none =>
        refine Attempts.within (hwritten (hstore k _ hs)) fun r k' => ?_
        cases r with
        | ok _ => exact hgrow k' _ rfl
        | error e => exact hnothing k' _
      | some b =>
        refine Attempts.within (hwritten (Attempts.within (hstore k _ (hprev b rfl))
          fun _ k' => hstore k' _ hs)) fun r k' => ?_
        cases r with
        | ok _ => exact hgrow k' _ rfl
        | error e => exact hnothing k' _

/-- **An allocation** writes to the first free sectors, as many as are needed. -/
theorem allocate_attempts (m : FreeMap) (size : Nat) :
    Attempts F (Header.allocate m size) k fun _ w _ =>
      ∀ y ∈ w, y.1 ∈ m.free.take (Layout.blocksFor size k.dataSize) := by
  have hnothing : ∀ (k' : Disk) (a : FreeMap × Except VolumeError Header),
      Attempts F (pure a) k' fun _ w _ =>
        ∀ y ∈ w, y.1 ∈ m.free.take (Layout.blocksFor size k.dataSize) := fun k' a =>
    Attempts.pure fun y hy => by cases hy
  unfold Header.allocate
  refine Attempts.read Candid.dataSize (Yields.dataSize k) (fun e y hy => by cases hy) ?_
  dsimp only
  split
  · split
    · exact hnothing k _
    · refine Attempts.within (p := (· ∈ m.free.take (Layout.blocksFor size k.dataSize)))
        (grow_attempts _ (by rintro b ⟨⟩) (by rintro b ⟨⟩) fun s hs => hs) fun grown k' => ?_
      obtain ⟨m', r⟩ := grown
      cases r with
      | error e => exact hnothing k' _
      | ok =>
        exact Attempts.read (Candid.note _) (Yields.note _ k') (fun e y hy => by cases hy)
          (hnothing k' _)
  · exact hnothing k _

/-- **The header and the first table** of a new file go to its own sectors. -/
theorem writeNew_attempts (hk : 0 < k.dataSize) (hsize : Layout.headerSize ≤ k.sectorSize)
    {kind : Kind} {s : Nat} {h : Header} {c : List Nat} (hs : s < k.sectors) (hsc : s ∉ c)
    (hc : k.Chained h c) (hblocks : c.length = Layout.blocksFor h.length k.dataSize) :
    Attempts F (Volume.writeNew kind s h) k fun _ w _ => ∀ y ∈ w, y.1 ∈ s :: c := by
  refine ((storeHeader_attempts h s).and_survives (storeHeader_survives hs h)).bind ?_ ?_
  · rintro e w k' - ⟨horder, -⟩ y hy
    exact List.mem_singleton.mp (horder.mem hy) ▸ List.mem_cons_self
  · rintro ⟨⟩ w k' - ⟨horder, hstored, -⟩
    obtain rfl := hstored _ rfl
    have hfirst : ∀ y ∈ w, y.1 ∈ s :: c := fun y hy =>
      List.mem_singleton.mp (horder.mem hy) ▸ List.mem_cons_self
    cases kind with
    | file => exact Attempts.pure (by rwa [List.append_nil])
    | directory =>
      have hfile := hasFile_putHeader hsize hs hsc hc hblocks
      refine Attempts.read (Handle.fetch_candid s) hfile.open_yields
        (fun e => by rwa [List.append_nil]) ?_
      refine (writeAt_attempts (k := k.putHeader s h) hk hfile.chained _ 0
        (Nat.le_trans (Nat.min_le_right _ _) (hfile.length_le hk))).discard.mono ?_
      rintro r w' k' - ⟨r', horder', -⟩ y hy
      rcases List.mem_append.mp hy with hy | hy
      · exact hfirst y hy
      · exact List.mem_cons_of_mem _ (mem_of_mem_touched (horder'.mem hy))

end Disk

end SectorChain
