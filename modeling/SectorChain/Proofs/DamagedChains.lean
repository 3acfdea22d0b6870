import SectorChain.Proofs.Dependence
import SectorChain.Proofs.Interchange
import SectorChain.Proofs.Namespace
import SectorChain.Proofs.Updates

/-!
# Chains on a damaged disk

Here nothing is assumed of the bytes on the disk: sectors may be shared, lead back to themselves or
nowhere, or hold anything else. Whatever they hold, a chain is read to the end that its header
gives, or the damage is reported; and a chain that was read has no sector twice, although that is
not looked at.

* `Settles x k`: begun on the disk `k`, `x` answers or fails, and changes nothing.
* `Reads x n`: `x` asks for no accesses but reads, and for at most `n` of them.
* `FreeMap.Clears m m' l`: the sectors in `l` are all different and in use in `m`, and `m'` is `m`
  without their marks.

Results:
* `block_cases`, `header_cases`, `walk_cases`, `chain_cases`: what is read is on the disk, or the
  operation fails.
* `release_cases`: the sectors of a chain are given back each once, or the release fails.
* `Clears.trans`, `Clears.numFree`: sectors that are given back in turns, and how many they are.
* `release_exact`: the outcome of a walk and of a release on every device without faults.
-/

namespace SectorChain

/-! ## Operations that come to an end -/

/-- The search went down as many directories as there can be. -/
def VolumeError.isEndless : VolumeError → Bool
  | .corrupt (.endlessNesting _) => true
  | _ => false

/-- The operation fails on the disk and leaves it as it is. Directories that are nested too deeply
are not the reason. -/
def Fails {α : Type} (x : DriveM α) (k : Disk) : Prop :=
  ∃ e, Yields x k (.error e) k ∧ e.isEndless = false

/-- **The operation comes to an end on the disk**: it answers or fails, and leaves the disk as it
is. -/
def Settles {α : Type} (x : DriveM α) (k : Disk) : Prop := (∃ a, Yields x k (.ok a) k) ∨ Fails x k

variable {α β : Type} {k : Disk} {x : DriveM α} {f : α → DriveM β}

namespace Fails

theorem throw {e : VolumeError} (h : e.isEndless = false) : Fails (throw e : DriveM α) k :=
  ⟨e, Yields.throw e k, h⟩

theorem bind (h : Fails x k) : Fails (x >>= f) k := by
  obtain ⟨e, hy, he⟩ := h
  exact ⟨e, hy.bind_error, he⟩

/-- What comes after an answer fails. -/
theorem after {a : α} (hx : Yields x k (.ok a) k) (hf : Fails (f a) k) : Fails (x >>= f) k := by
  obtain ⟨e, hy, he⟩ := hf
  exact ⟨e, hx.bind hy, he⟩

end Fails

namespace Settles

theorem pure (a : α) : Settles (Pure.pure a) k := .inl ⟨a, Yields.pure a k⟩

theorem bind (hx : Settles x k) (hf : ∀ a, Settles (f a) k) : Settles (x >>= f) k := by
  rcases hx with ⟨a, hx⟩ | hx
  · rcases hf a with ⟨b, hb⟩ | hb
    · exact .inl ⟨b, hx.bind hb⟩
    · exact .inr (Fails.after hx hb)
  · exact .inr hx.bind

theorem ofYields {a : α} (h : Yields x k (.ok a) k) : Settles x k := .inl ⟨a, h⟩

theorem throw {e : VolumeError} (h : e.isEndless = false) : Settles (throw e : DriveM α) k :=
  .inr (Fails.throw h)

theorem decoded (r : Except RecordError α) : Settles (Drive.decoded r) k := by
  cases r with
  | ok a => exact pure a
  | error e => exact throw rfl

end Settles

/-! ## Accesses -/

/-- **The operation only reads**, and no more than `n` sectors. -/
def Reads {α : Type} (x : DriveM α) (n : Nat) : Prop :=
  ∀ d, ∃ l : List Nat, (driveAfter (x d)).accesses.toList = d.accesses.toList ++ l.map .read ∧
    l.length ≤ n

namespace Reads

/-- Nothing is read. -/
theorem none (h : ∀ d, (driveAfter (x d)).accesses = d.accesses) : Reads x 0 := fun d =>
  ⟨[], by rw [h, List.map_nil, List.append_nil], Nat.le_refl _⟩

theorem mono {n m : Nat} (h : Reads x n) (hnm : n ≤ m) : Reads x m := fun d => by
  obtain ⟨l, hl, hlen⟩ := h d
  exact ⟨l, hl, Nat.le_trans hlen hnm⟩

theorem bind {n m : Nat} (hx : Reads x n) (hf : ∀ a, Reads (f a) m) :
    Reads (x >>= f) (n + m) := by
  intro d
  obtain ⟨l, hl, hlen⟩ := hx d
  cases h : x d with
  | error e d' =>
    rw [h] at hl
    rw [run_bind_error h]
    exact ⟨l, hl, by omega⟩
  | ok a d' =>
    rw [h] at hl
    rw [run_bind_ok h]
    obtain ⟨l', hl', hlen'⟩ := hf a d'
    refine ⟨l ++ l', ?_, by rw [List.length_append]; omega⟩
    rw [hl', List.map_append, ← List.append_assoc]
    exact congrArg (· ++ l'.map Access.read) hl

theorem readSector (s : Nat) : Reads (Drive.readSector s) 1 := fun d =>
  ⟨[s], by rw [Drive.accesses_readSector]; exact Array.toList_push, Nat.le_refl _⟩

theorem decoded (r : Except RecordError α) : Reads (Drive.decoded r) 0 := by
  cases r with
  | ok a => exact none fun _ => rfl
  | error e => exact none fun _ => rfl

end Reads

theorem Block.fetch_reads (s : Nat) : Reads (Block.fetch s) 1 := by
  refine (Reads.readSector s).bind (m := 0) fun _ => (Reads.decoded _).bind (m := 0) fun p => ?_
  obtain ⟨own, next, data⟩ := p
  dsimp only
  split
  · exact Reads.none fun _ => rfl
  · exact Reads.none fun _ => rfl

/-- A walk reads no more blocks than it expects. -/
theorem Header.walk_reads (blocks left : Nat) (current : Option Nat) :
    Reads (walk blocks left current) left := by
  induction left generalizing current with
  | zero => cases current <;> exact Reads.none fun _ => rfl
  | succ left ih =>
    cases current with
    | none => exact (Reads.none fun _ => rfl).mono (Nat.zero_le _)
    | some s =>
      have hrest : ∀ b : Block, Reads (do return s :: (← walk blocks left b.next)) left := fun b =>
        (ih b.next).bind (m := 0) fun _ => Reads.none fun _ => rfl
      exact ((Block.fetch_reads s).bind hrest).mono (by omega)

/-! ## One sector -/

theorem Drive.readSector_refused {i : Nat} (hi : k.sectors ≤ i) :
    Yields (readSector i) k (.error (.io (.outOfRange i k.sectors))) k := by
  rintro d hd rfl
  have hread : d.device.read i d.device.sectorSize = .error (.outOfRange i d.device.sectors) :=
    Device.read_refused hd.reliable (if_neg (Nat.not_lt.mpr hi))
  have hrun := readSector_passes (hd.passes (.read i))
  rw [hread] at hrun
  exact ⟨_, hrun, ⟨hd.reliable, hd.no_faults⟩, rfl⟩

/-- What two steps make of a value was made by each of them. -/
theorem exists_of_bind_ok {ε : Type} {y : Except ε α} {g : α → Except ε β} {b : β}
    (h : y >>= g = .ok b) : ∃ a, y = .ok a ∧ g a = .ok b := by
  cases y with
  | error e => cases h
  | ok a => exact ⟨a, rfl, h⟩

theorem Block.decode_eq_ok {bytes data : Bytes} {own next : Link}
    (h : decode bytes = .ok (own, next, data)) : bytes = own.encode ++ next.encode ++ data := by
  obtain ⟨⟨own', rest⟩, hown, h⟩ := exists_of_bind_ok h
  obtain ⟨⟨next', data'⟩, hnext, h⟩ := exists_of_bind_ok h
  cases h
  rw [Link.take_eq_ok_iff.mp hown, Link.take_eq_ok_iff.mp hnext, List.append_assoc]

theorem Header.decode_eq_ok {bytes : Bytes} {length blocks : UInt32} {first : Link}
    (h : decode bytes = .ok (length, blocks, first)) :
    ∃ rest, bytes = Bytes.ofWord length ++ Bytes.ofWord blocks ++ first.encode ++ rest := by
  obtain ⟨⟨length', rest⟩, hlength, h⟩ := exists_of_bind_ok h
  obtain ⟨⟨blocks', rest'⟩, hblocks, h⟩ := exists_of_bind_ok h
  obtain ⟨⟨first', rest''⟩, hfirst, h⟩ := exists_of_bind_ok h
  cases h
  refine ⟨rest'', ?_⟩
  rw [Record.takeWord_eq_ok_iff.mp hlength, Record.takeWord_eq_ok_iff.mp hblocks,
    Link.take_eq_ok_iff.mp hfirst]
  simp only [List.append_assoc]

namespace Disk

/-- **A sector that is read as a block holds one**, whatever else may be on the disk. -/
theorem block_cases (k : Disk) (s : Nat) :
    (∃ next, k.HasBlock s next) ∨ Fails (Block.fetch s) k := by
  by_cases hs : s < k.sectors
  · have hread := Drive.readSector_yields hs
    cases hdecode : Block.decode (k.bytes s) with
    | error e =>
      refine .inr (Fails.after hread ?_)
      rw [hdecode]
      exact Fails.bind (Fails.throw rfl)
    | ok p =>
      obtain ⟨own, link, data⟩ := p
      have hbytes := Block.decode_eq_ok hdecode
      by_cases hown : own.target = some s
      · have hdata : k.dataAt s = data := by
          unfold dataAt
          rw [hbytes]
          rfl
        exact .inl ⟨link.target, hs, own, link, hdata ▸ hbytes, hown, rfl⟩
      · refine .inr (Fails.after hread ?_)
        rw [hdecode]
        refine Fails.after (Yields.decoded _ k) ?_
        dsimp only
        rw [if_neg hown]
        exact Fails.throw rfl
  · exact .inr (Fails.bind ⟨_, Drive.readSector_refused (Nat.not_lt.mp hs), rfl⟩)

/-- A sector that is read as a header holds one. -/
theorem header_cases (k : Disk) (s : Nat) :
    (∃ h, k.HasHeader s h) ∨ Fails (Header.fetch s) k := by
  by_cases hs : s < k.sectors
  · have hread := Drive.readSector_yields hs
    cases hdecode : Header.decode (k.bytes s) with
    | error e =>
      refine .inr (Fails.after hread ?_)
      rw [hdecode]
      exact Fails.bind (Fails.throw rfl)
    | ok p =>
      obtain ⟨length, blocks, first⟩ := p
      obtain ⟨rest, hbytes⟩ := Header.decode_eq_ok hdecode
      cases hwords : Header.ofWords? length blocks first with
      | some h =>
        refine .inl ⟨h, hs, rest, ?_⟩
        unfold Header.ofWords? at hwords
        split at hwords
        · cases hwords
          rw [hbytes, Header.encode, UInt32.ofNat_toNat, UInt32.ofNat_toNat]
        · cases hwords
      | none =>
        refine .inr (Fails.after hread ?_)
        rw [hdecode]
        refine Fails.after (Yields.decoded _ k) ?_
        dsimp only
        rw [hwords]
        exact Fails.throw rfl
  · exact .inr (Fails.bind ⟨_, Drive.readSector_refused (Nat.not_lt.mp hs), rfl⟩)

/-! ## Chains -/

/-- **A walk finds linked sectors**, as many as it expects, or fails. -/
theorem walk_cases (k : Disk) (blocks left : Nat) (current : Option Nat) :
    (∃ l, k.Linked l ∧ l.head? = current ∧ l.length = left) ∨
      Fails (Header.walk blocks left current) k := by
  induction left generalizing current with
  | zero =>
    cases current with
    | none => exact .inl ⟨[], trivial, rfl, rfl⟩
    | some s => exact .inr (Fails.throw rfl)
  | succ left ih =>
    cases current with
    | none => exact .inr (Fails.throw rfl)
    | some s =>
      rcases k.block_cases s with ⟨next, hblock⟩ | hfail
      · rcases ih next with ⟨l, hlinked, rfl, rfl⟩ | hfail
        · exact .inl ⟨s :: l, ⟨hblock, hlinked⟩, rfl, rfl⟩
        · exact .inr (Fails.after hblock.fetch_yields hfail.bind)
      · exact .inr hfail.bind

theorem chain_cases (k : Disk) (h : Header) : (∃ l, k.Chained h l) ∨ Fails h.chain k := by
  rcases k.walk_cases h.blocks h.blocks h.first.target with ⟨l, hlinked, hhead, hlen⟩ | hfail
  · exact .inl ⟨l, hlinked, hhead.symm, hlen.symm⟩
  · exact .inr hfail

end Disk

/-! ## Giving sectors back -/

/-- **The sectors in `l` are given back**: they are all different and in use in `m`, and `m'` is `m`
with just their marks cleared. -/
structure FreeMap.Clears (m m' : FreeMap) (l : List Nat) : Prop where
  nodup : l.Nodup
  used : ∀ s ∈ l, m.isUsed s = true
  size : m'.size = m.size
  stored : m'.stored = m.stored
  contains : ∀ i, m'.marks.contains i = (m.marks.contains i && !decide (i ∈ l))

namespace FreeMap.Clears

variable {m m' m'' : FreeMap} {l l' : List Nat}

theorem nil (m : FreeMap) : m.Clears m [] where
  nodup := List.nodup_nil
  used := nofun
  size := rfl
  stored := rfl
  contains i := by simp

theorem isUsed (h : m.Clears m' l) (s : Nat) :
    m'.isUsed s = true ↔ m.isUsed s = true ∧ s ∉ l := by
  unfold FreeMap.isUsed
  rw [h.size, h.contains]
  simp only [Bool.and_eq_true, decide_eq_true_eq, Bool.not_eq_true', decide_eq_false_iff_not,
    and_assoc]

/-- What is given back in a second turn was not given back in the first. -/
theorem trans (h : m.Clears m' l) (h' : m'.Clears m'' l') : m.Clears m'' (l ++ l') where
  nodup := List.nodup_append.mpr ⟨h.nodup, h'.nodup, fun s hs t ht heq =>
    ((h.isUsed t).mp (h'.used t ht)).2 (heq ▸ hs)⟩
  used s hs := (List.mem_append.mp hs).elim (h.used s) fun hs => ((h.isUsed s).mp (h'.used s hs)).1
  size := h'.size.trans h.size
  stored := h'.stored.trans h.stored
  contains i := by
    rw [h'.contains, h.contains]
    simp [Bool.and_assoc]

theorem perm (h : m.Clears m' l) (hperm : l.Perm l') : m.Clears m' l' where
  nodup := hperm.nodup_iff.mp h.nodup
  used s hs := h.used s (hperm.mem_iff.mpr hs)
  size := h.size
  stored := h.stored
  contains i := by
    rw [h.contains]
    simp only [hperm.mem_iff]

/-- One sector in use is given back. -/
theorem clear {s : Nat} (hs : m.isUsed s = true) : m.Clears (m.clear s) [s] where
  nodup := List.nodup_singleton s
  used t ht := List.mem_singleton.mp ht ▸ hs
  size := size_clear m s
  stored := stored_clear m s
  contains i := by
    unfold FreeMap.clear setMark
    rw [if_pos (lt_size_of_isUsed hs), Marks.contains_set]
    by_cases hi : s = i
    · simp [hi]
    · simp [hi, Ne.symm hi]

/-- Sectors in use that are all different are given back one after the other. -/
theorem foldl (hl : l.Nodup) (hm : ∀ s ∈ l, m.isUsed s = true) :
    m.Clears (l.foldl FreeMap.clear m) l := by
  induction l generalizing m with
  | nil => exact nil m
  | cons s rest ih =>
    obtain ⟨hs, hrest⟩ := List.nodup_cons.mp hl
    have hfirst := clear (hm s List.mem_cons_self)
    refine hfirst.trans (ih hrest fun t ht => (hfirst.isUsed t).mpr ⟨?_, ?_⟩)
    · exact hm t (List.mem_cons_of_mem _ ht)
    · exact fun heq => hs (List.mem_singleton.mp heq ▸ ht)

/-- **As many sectors more are free.** -/
theorem numFree (h : m.Clears m' l) : m'.numFree = m.numFree + l.length := by
  have hapart : ∀ s ∈ m.free, ∀ t ∈ l, s ≠ t := fun s hs t ht heq => by
    have hused := h.used t ht
    rw [← heq, (mem_free.mp hs).2] at hused
    cases hused
  have hperm : m'.free.Perm (m.free ++ l) := by
    refine (List.perm_ext_iff_of_nodup m'.nodup_free
      (List.nodup_append.mpr ⟨m.nodup_free, h.nodup, hapart⟩)).mpr fun s => ?_
    rw [List.mem_append, mem_free, mem_free, h.size, Bool.eq_false_iff, ne_eq, h.isUsed,
      Bool.eq_false_iff]
    constructor
    · rintro ⟨hlt, hfree⟩
      by_cases hs : s ∈ l
      · exact .inr hs
      · exact .inl ⟨hlt, fun hused => hfree ⟨hused, hs⟩⟩
    · rintro (⟨hlt, hfree⟩ | hs)
      · exact ⟨hlt, fun hused => hfree hused.1⟩
      · exact ⟨lt_size_of_isUsed (h.used s hs), fun hused => hused.2 hs⟩
  rw [numFree_eq, numFree_eq, hperm.length_eq, List.length_append]

end FreeMap.Clears

/-- **A release gives back a whole chain** that is in use, or fails. -/
theorem Disk.release_cases (k : Disk) (h : Header) (m : FreeMap) :
    (∃ l, k.Chained h l ∧ m.Clears (l.foldl FreeMap.clear m) l) ∨ Fails (h.release m) k := by
  rw [Header.release_eq]
  rcases k.chain_cases h with ⟨l, hl⟩ | hfail
  · cases hfind : l.find? (!m.isUsed ·) with
    | none =>
      refine .inl ⟨l, hl, FreeMap.Clears.foldl hl.linked.nodup fun s hs => ?_⟩
      have hused := List.find?_eq_none.mp hfind s hs
      rwa [Bool.not_eq_true, Bool.not_eq_false'] at hused
    | some s =>
      refine .inr (Fails.after hl.chain_yields ?_)
      rw [hfind]
      exact Fails.throw rfl
  · exact .inr hfail.bind

namespace Drive.FaultFree

variable {d : Drive} {k : Disk} {r r' : Except VolumeError α}

/-- What an operation that only reads does on a drive with the disk. -/
theorem run (hd : d.FaultFree) (hx : Still x) (hy : Yields x d.disk r k) :
    ∃ d', x d = ended r d' ∧ d'.device = d.device := by
  obtain ⟨d', hrun, -⟩ := hy d hd rfl
  have hdevice := (hx d).1
  rw [hrun] at hdevice
  refine ⟨d', hrun, ?_⟩
  cases r <;> exact hdevice

/-- An operation has one outcome on the disk of a drive. -/
theorem yields_unique (hd : d.FaultFree) {k' : Disk} (hy : Yields x d.disk r k)
    (hy' : Yields x d.disk r' k') : r = r' := by
  obtain ⟨d₁, h₁, -⟩ := hy d hd rfl
  obtain ⟨d₂, h₂, -⟩ := hy' d hd rfl
  exact (ended_inj (h₁.symm.trans h₂)).1

end Drive.FaultFree

namespace Header

variable {d : Drive} {m : FreeMap}

/-- **Every walk ends**, after reads of at most as many blocks as the header counts, and finds just
the chain of the header. -/
theorem chain_ends (hd : d.FaultFree) (h : Header) :
    ∃ r d', h.chain d = ended r d' ∧ d'.device = d.device ∧ (∀ l, r = .ok l ↔ d.disk.Chained h l) ∧
      ∃ l : List Nat, d'.accesses.toList = d.accesses.toList ++ l.map .read ∧
        l.length ≤ h.blocks := by
  have hreads : Reads h.chain h.blocks := walk_reads _ _ _
  rcases d.disk.chain_cases h with ⟨l, hl⟩ | ⟨e, hy, -⟩
  · obtain ⟨d', hrun, hdevice⟩ := hd.run h.chain_still hl.chain_yields
    have hreads := hreads d
    rw [hrun] at hreads
    refine ⟨.ok l, d', hrun, hdevice, fun l' => ⟨?_, fun hl' => ?_⟩, hreads⟩
    · rintro ⟨⟩
      exact hl
    · rw [hl.unique hl']
  · obtain ⟨d', hrun, hdevice⟩ := hd.run h.chain_still hy
    have hreads := hreads d
    rw [hrun] at hreads
    refine ⟨.error e, d', hrun, hdevice, fun l => ⟨nofun, fun hl => ?_⟩, hreads⟩
    cases hd.yields_unique hy hl.chain_yields

/-- **Every release ends.** It frees the whole chain of the header if all of that is in use, and
otherwise leaves the map that it was lent as it is. -/
theorem deallocate_ends (hd : d.FaultFree) (h : Header) (m : FreeMap) :
    ∃ d', d'.device = d.device ∧
      ((∃ e, h.deallocate (m, d) = .error e (m, d') ∧
          ¬∃ l, d.disk.Chained h l ∧ ∀ s ∈ l, m.isUsed s = true) ∨
        ∃ l m', h.deallocate (m, d) = .ok () (m', d') ∧ d.disk.Chained h l ∧ m.Clears m' l) := by
  have hlent : h.deallocate (m, d) = replaced m (h.release m d) :=
    (h.deallocate_allOrNothing m).run_replaced d
  rcases d.disk.release_cases h m with ⟨l, hl, hclears⟩ | ⟨e, hy, -⟩
  · obtain ⟨d', hrun, hdevice⟩ := hd.run (h.release_still m) (hl.release_yields hclears.used)
    rw [hrun] at hlent
    exact ⟨d', hdevice, .inr ⟨l, _, hlent, hl, hclears⟩⟩
  · obtain ⟨d', hrun, hdevice⟩ := hd.run (h.release_still m) hy
    rw [hrun] at hlent
    refine ⟨d', hdevice, .inl ⟨e, hlent, ?_⟩⟩
    rintro ⟨l, hl, hused⟩
    cases hd.yields_unique hy (hl.release_yields hused)

/-- **Walks and releases on an arbitrary disk.** On every device without faults, whatever its
sectors hold, the walk along the chain of a header ends after reading at most as many sectors as
the header counts. It finds the sectors `l` just if they are linked from the first one that the
header gives, each with a block of its own, the last one leads nowhere, and they are as many as the
header counts; then they are all different and on the device. A release ends too. It fails and
leaves the map that it was lent as it was, which it does if there is no such chain that is all in
use; or just the sectors of the chain are free in the map then, all of which were in use, so that as
many sectors more are free as the header counts. -/
theorem release_exact (hd : d.FaultFree) (h : Header) (m : FreeMap) :
    (∃ r d', h.chain d = ended r d' ∧ d'.device = d.device ∧
      (∃ reads : List Nat, d'.accesses.toList = d.accesses.toList ++ reads.map .read ∧
        reads.length ≤ h.blocks) ∧
      (∀ l, r = .ok l ↔ d.disk.Chained h l) ∧
      ∀ l, r = .ok l → l.Nodup ∧ ∀ s ∈ l, s < d.device.sectors) ∧
    ∃ d', d'.device = d.device ∧
      ((∃ e, h.deallocate (m, d) = .error e (m, d') ∧
          ¬∃ l, d.disk.Chained h l ∧ ∀ s ∈ l, m.isUsed s = true) ∨
        ∃ l m', h.deallocate (m, d) = .ok () (m', d') ∧ d.disk.Chained h l ∧ l.length = h.blocks ∧
          m.Clears m' l ∧ m'.numFree = m.numFree + h.blocks) := by
  obtain ⟨r, d', hrun, hdevice, hchain, hreads⟩ := chain_ends hd h
  obtain ⟨d₁, hdevice₁, hrelease⟩ := deallocate_ends hd h m
  refine ⟨⟨r, d', hrun, hdevice, hreads, hchain, fun l hr => ?_⟩, d₁, hdevice₁, ?_⟩
  · have hlinked := ((hchain l).mp hr).linked
    exact ⟨hlinked.nodup, fun s hs => hlinked.lt_sectors hs⟩
  · refine hrelease.imp id ?_
    rintro ⟨l, m', hrun₁, hl, hclears⟩
    exact ⟨l, m', hrun₁, hl, hl.blocks.symm, hclears, hl.blocks ▸ hclears.numFree⟩

/-- The sectors of the free map file of an empty volume are given back; and when they are given back
once more, the map stays as it is. -/
theorem release_exact_formatted : ∃ (d d₁ d₂ d₃ : Drive) (h : Header) (m m' : FreeMap)
    (l : List Nat) (e : VolumeError), d.FaultFree ∧ h.chain d = .ok l d₁ ∧
      h.deallocate (m, d) = .ok () (m', d₂) ∧ l.length = 1 ∧ m'.numFree = m.numFree + 1 ∧
      h.deallocate (m', d) = .error e (m', d₃) := by
  obtain ⟨v, d, inv, -, hu, hdata, hsectors, -⟩ := Usage.exists_formatted
  have hfile := hu.consistent.map_file
  have hcount : inv.mapFile.place.header.blocks = 1 := by
    have hlength := hfile.length_content (hdata ▸ by decide)
    rw [hu.consistent.map_length] at hlength
    rw [hfile.chained.blocks, hfile.blocks, ← hlength, hdata, hsectors]
    decide
  have hone : inv.mapFile.place.chain.length = 1 := hfile.chained.blocks.symm.trans hcount
  have hused : ∀ s ∈ inv.mapFile.place.chain,
      (inv.freeMap d.disk.sectors).isUsed s = true := fun s hs =>
    (hu.consistent.used s).mpr (inv.mem_of_map (List.mem_cons_of_mem _ hs))
  obtain ⟨⟨r, d₁, hchain, -, -, hok, -⟩, d₂, -, hrelease⟩ :=
    release_exact hu.fault_free inv.mapFile.place.header (inv.freeMap d.disk.sectors)
  obtain rfl := (hok _).mpr hfile.chained
  obtain ⟨-, -, hnone⟩ | ⟨l, m', hrun, hl, -, hclears, hfree⟩ := hrelease
  · exact absurd ⟨_, hfile.chained, hused⟩ hnone
  obtain rfl := hl.unique hfile.chained
  -- the one sector of the chain is free now, so it cannot be given back
  obtain ⟨-, d₃, -, hagain⟩ := release_exact hu.fault_free inv.mapFile.place.header m'
  obtain ⟨e, herror, -⟩ | ⟨l', _, -, hl', -, hclears', -⟩ := hagain
  · exact ⟨d, d₁, d₂, d₃, _, _, m', _, e, hu.fault_free, hchain, hrun, hone, hcount ▸ hfree, herror⟩
  · obtain rfl := hl'.unique hl
    obtain ⟨s, hs⟩ := List.exists_mem_of_length_pos (hone ▸ Nat.one_pos)
    have hfreed := (hclears.isUsed s).mp (hclears'.used s hs)
    exact absurd hs hfreed.2

end Header

end SectorChain
