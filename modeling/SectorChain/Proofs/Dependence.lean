import SectorChain.Proofs.Removing

/-!
# What an operation depends on

On disks that are the same in some sectors and differ in all others, an operation goes the same way
as long as it reads no other sector before it has written to it. `DependsOn x k p q` says this of
the operation `x`, begun on `k` or on a disk with the same bytes in the sectors of `p`: it ends with
the same answer or error on both, and the disks that it leaves are the same in the sectors of `q`.
These may be more than those of `p`, since what is written is the same on both.

Results:
* `DependsOn.bind`, `DependsOn.read`: operations in sequence, and those that only read.
* `HasFile.write_depends`: a write to a file depends on the blocks of its chain.
* `allocate_depends`: a new chain depends on nothing, and all of it is written.
* `writeNew_depends`: nor do the header and the first table of a new file.
* `change_depends`: a change along a route depends on the tables below it.
-/

namespace SectorChain

/-- **The operation depends on the sectors that satisfy `p`**: begun on the disk `k` and on any
other that is the same in these, it ends in the same way, and leaves disks that are the same in
the sectors that satisfy `q`. -/
def DependsOn {α : Type} (x : DriveM α) (k : Disk) (p q : Nat → Prop) : Prop :=
  ∀ d₁ d₂ : Drive, d₁.FaultFree → d₂.FaultFree → d₁.disk = k → k.Keeps d₂.disk p →
    ∃ r d₁' d₂', x d₁ = ended r d₁' ∧ x d₂ = ended r d₂' ∧ d₁'.FaultFree ∧ d₂'.FaultFree ∧
      d₁'.disk.Keeps d₂'.disk q

theorem ended_inj {α : Type} {r r' : Except VolumeError α} {d d' : Drive}
    (h : ended r d = ended r' d') : r = r' ∧ d = d' := by
  cases r <;> cases r' <;> cases h <;> exact ⟨rfl, rfl⟩

theorem ended_eq_ok {α : Type} {r : Except VolumeError α} {a : α} {d d' : Drive}
    (h : ended r d = .ok a d') : r = .ok a ∧ d = d' := by
  cases r <;> cases h
  exact ⟨rfl, rfl⟩

namespace DependsOn

variable {α β : Type} {x : DriveM α} {f : α → DriveM β} {k k₁ : Disk} {p p' q q' q₁ : Nat → Prop}

theorem mono (h : DependsOn x k p q) (hp : ∀ s, p s → p' s) (hq : ∀ s, q' s → q s) :
    DependsOn x k p' q' := by
  intro d₁ d₂ hd₁ hd₂ hk hkeep
  obtain ⟨r, d₁', d₂', h₁, h₂, hd₁', hd₂', hkeep'⟩ := h d₁ d₂ hd₁ hd₂ hk (hkeep.mono hp)
  exact ⟨r, d₁', d₂', h₁, h₂, hd₁', hd₂', hkeep'.mono hq⟩

/-- An operation with a known outcome on all the disks. -/
theorem of_yields {r : Except VolumeError α} (g : Disk → Disk)
    (hy : ∀ k', k.Keeps k' p → Yields x k' r (g k'))
    (hg : ∀ k', k.Keeps k' p → (g k).Keeps (g k') q) : DependsOn x k p q := by
  rintro d₁ d₂ hd₁ hd₂ rfl hkeep
  obtain ⟨d₁', h₁, hd₁', hk₁⟩ := hy _ (Disk.Keeps.refl _ _) d₁ hd₁ rfl
  obtain ⟨d₂', h₂, hd₂', hk₂⟩ := hy _ hkeep d₂ hd₂ rfl
  exact ⟨r, d₁', d₂', h₁, h₂, hd₁', hd₂', hk₁ ▸ hk₂ ▸ hg _ hkeep⟩

/-- An operation that reads the same from all the disks. -/
theorem read {r : Except VolumeError α} (hy : ∀ k', k.Keeps k' p → Yields x k' r k') :
    DependsOn x k p p := of_yields id hy fun _ => id

theorem pure (a : α) : DependsOn (Pure.pure a) k p p := read fun k' _ => Yields.pure a k'

theorem note (n : Note) : DependsOn (Drive.note n) k p p := read fun k' _ => Yields.note n k'

/-- Operations in sequence; the second one begins where the first one ends on `k`. -/
theorem bind {a : α} (hx : DependsOn x k p q₁) (hy : Yields x k (.ok a) k₁)
    (hf : DependsOn (f a) k₁ q₁ q) : DependsOn (x >>= f) k p q := by
  intro d₁ d₂ hd₁ hd₂ hk hkeep
  obtain ⟨r, d₁', d₂', h₁, h₂, hd₁', hd₂', hkeep'⟩ := hx d₁ d₂ hd₁ hd₂ hk hkeep
  obtain ⟨d, hd, -, rfl⟩ := hy d₁ hd₁ hk
  obtain ⟨rfl, rfl⟩ := ended_inj (h₁.symm.trans hd)
  obtain ⟨r, d₁'', d₂'', h₁', h₂', hd₁'', hd₂'', hkeep''⟩ := hf d₁' d₂' hd₁' hd₂' rfl hkeep'
  exact ⟨r, d₁'', d₂'', (run_bind_ok h₁).trans h₁', (run_bind_ok h₂).trans h₂', hd₁'', hd₂'',
    hkeep''⟩

/-- What only reads comes first. -/
theorem after {a : α} (hy : ∀ k', k.Keeps k' p → Yields x k' (.ok a) k')
    (hf : DependsOn (f a) k p q) : DependsOn (x >>= f) k p q :=
  (read hy).bind (hy k (Disk.Keeps.refl k p)) hf

/-- The answer of a call. -/
theorem map (h : DependsOn x k p q) (g : α → β) : DependsOn (g <$> x) k p q := by
  intro d₁ d₂ hd₁ hd₂ hk hkeep
  obtain ⟨r, d₁', d₂', h₁, h₂, hd₁', hd₂', hkeep'⟩ := h d₁ d₂ hd₁ hd₂ hk hkeep
  have hmap : ∀ {d d' : Drive}, x d = ended r d' → (g <$> x) d = ended (r.map g) d' := by
    intro d d' hx
    show EStateM.map g x d = _
    unfold EStateM.map
    rw [hx]
    cases r <;> rfl
  exact ⟨r.map g, d₁', d₂', hmap h₁, hmap h₂, hd₁', hd₂', hkeep'⟩

theorem discard (h : DependsOn x k p q) : DependsOn (Functor.discard x) k p q := h.map _

theorem pure_answer (h : DependsOn x k p q) (g : α → β) :
    DependsOn (do return g (← x)) k p q := h.map g

theorem attempt (h : DependsOn x k p q) : DependsOn (Drive.attempt x) k p q := by
  intro d₁ d₂ hd₁ hd₂ hk hkeep
  obtain ⟨r, d₁', d₂', h₁, h₂, hd₁', hd₂', hkeep'⟩ := h d₁ d₂ hd₁ hd₂ hk hkeep
  have hattempt : ∀ {d d' : Drive}, x d = ended r d' → Drive.attempt x d = ended (.ok r) d' := by
    intro d d' hx
    unfold Drive.attempt
    rw [hx]
    cases r <;> rfl
  exact ⟨.ok r, d₁', d₂', hattempt h₁, hattempt h₂, hd₁', hd₂', hkeep'⟩

end DependsOn

namespace Disk

variable {k k' : Disk} {p : Nat → Prop}

/-! ## One sector -/

/-- The same bytes written to two disks. -/
theorem Keeps.put (h : Keeps k k' p) (i : Nat) (new : Bytes) :
    Keeps (k.put i new) (k'.put i new) fun s => p s ∨ s = i := by
  refine ⟨h.sectors, h.sectorSize, fun s hs => ?_⟩
  show Function.update k'.bytes i _ s = Function.update k.bytes i _ s
  by_cases hi : s = i
  · subst hi
    rw [Function.update_self, Function.update_self, h.sectorSize]
  · rw [Function.update_of_ne hi, Function.update_of_ne hi]
    exact h.bytes s (hs.resolve_right hi)

theorem Keeps.putBlock (h : Keeps k k' p) (b : Block) :
    Keeps (k.putBlock b) (k'.putBlock b) fun s => p s ∨ s = b.sector := h.put b.sector b.encode

theorem Keeps.putHeader (h : Keeps k k' p) (s : Nat) (header : Header) :
    Keeps (k.putHeader s header) (k'.putHeader s header) fun t => p t ∨ t = s := by
  unfold Disk.putHeader
  rw [h.sectorSize]
  exact h.put s _

theorem Keeps.putNext (h : Keeps k k' p) (a b : Nat) :
    Keeps (k.putNext a b) (k'.putNext a b) fun s => (p s ∨ s = a) ∨ s = b := by
  unfold Disk.putNext
  rw [h.dataSize]
  exact (h.putBlock ⟨a, some b, _⟩).putBlock ⟨b, none, _⟩

theorem store_depends {b : Block} (hk : 0 < k.dataSize) (hs : b.sector < k.sectors)
    (hb : b.data.length = k.dataSize) : DependsOn b.store k p fun s => p s ∨ s = b.sector :=
  .of_yields (·.putBlock b) (fun _ h => store_yields (h.dataSize.symm ▸ hk) (h.sectors.symm ▸ hs)
    (hb.trans h.dataSize.symm)) fun _ h => h.putBlock b

theorem storeHeader_depends {s : Nat} (hs : s < k.sectors) (header : Header) :
    DependsOn (header.store s) k p fun t => p t ∨ t = s :=
  .of_yields (·.putHeader s header) (fun _ h => storeHeader_yields (h.sectors.symm ▸ hs) header)
    fun _ h => h.putHeader s header

/-! ## Writing to a file -/

/-- Writing block by block depends on the blocks that are spliced. -/
theorem writeBlocks_depends {f : Handle} {l : List Nat} (hk : 0 < k.dataSize)
    (hc : k.Chained f.header l) (hp : ∀ s ∈ l, p s) {count : Nat} {bytes : Bytes} {pos : Nat}
    (hcount : pos / k.dataSize + count ≤ l.length) :
    DependsOn (f.writeBlocks k.dataSize count bytes pos) k p p := by
  induction count generalizing k bytes pos with
  | zero => exact .pure _
  | succ count ih =>
    have hi : pos / k.dataSize < l.length := by omega
    have hmem : l[pos / k.dataSize] ∈ l := List.getElem_mem hi
    obtain ⟨hblock, -, hlinked, -⟩ := hc.linked.writtenBlock hk bytes hi
    have hdata := length_writtenBlock hk bytes hi
    obtain ⟨hnext, -⟩ := next_block pos hk
    refine DependsOn.after (a := ⟨l[pos / k.dataSize], l[pos / k.dataSize + 1]?,
      k.dataAt l[pos / k.dataSize]⟩) (fun k' h => ?_) ?_
    · have hoff : pos / k.dataSize * k.dataSize / k'.dataSize = pos / k.dataSize := by
        rw [h.dataSize, Nat.mul_div_cancel _ hk]
      have hread := (hc.keeps h hp).blockAt_yields hoff hi
      rwa [h.dataAt (hp _ hmem)] at hread
    · refine ((store_depends hk hblock.1 hdata).mono (fun _ => id) fun _ => .inl).bind
        (store_yields hk hblock.1 hdata) ?_
      exact ih (k := k.putBlock (k.writtenBlock l bytes pos hi)) hk ⟨hlinked, hc.first, hc.blocks⟩
        (by show (pos + (k.dataSize - pos % k.dataSize)) / k.dataSize + count ≤ l.length; omega)

/-- **A write depends on the blocks of the chain**, and not on other sectors. -/
theorem writeAt_depends {f : Handle} {l : List Nat} (hk : 0 < k.dataSize)
    (hc : k.Chained f.header l) (hlen : f.header.length ≤ l.length * k.dataSize)
    (hp : ∀ s ∈ l, p s) (bytes : Bytes) (pos : Nat) : DependsOn (f.writeAt bytes pos) k p p := by
  unfold Handle.writeAt Handle.length
  cases hclamp : Handle.clamp? bytes.length pos f.header.length with
  | none => exact .pure _
  | some n =>
    obtain ⟨hn, hroom, -⟩ := clamp?_eq_some hclamp
    have hspan := div_add_span_le hk hn (Nat.le_trans hroom hlen)
    refine DependsOn.after (fun k' _ => Yields.note _ k') (DependsOn.after (a := k.dataSize)
      (fun k' h => h.dataSize ▸ Yields.dataSize k') ?_)
    exact (writeBlocks_depends hk hc hp hspan).map fun _ => n

theorem HasFile.write_depends {f : Handle} {place : Place} {content : Bytes}
    (h : k.HasFile place content) (hk : 0 < k.dataSize) (hf : f.header = place.header)
    (hp : ∀ s ∈ place.chain, p s) (bytes : Bytes) (pos : Nat) :
    DependsOn (f.writeAt bytes pos) k p p :=
  writeAt_depends hk (hf ▸ h.chained) (hf ▸ h.length_le hk) hp bytes pos

/-- Two files are written, and what follows depends on no more than they do. -/
theorem HasFile.writes_depend {α : Type} {x : DriveM α} {f g : Handle} {a b : Place}
    {c₁ c₂ : Bytes} (ha : k.HasFile a c₁) (hb : k.HasFile b c₂) (hk : 0 < k.dataSize)
    (hf : f.header = a.header) (hg : g.header = b.header) (hout₁ : a.sector ∉ a.chain)
    (hout₂ : b.sector ∉ b.chain) (hapart : ∀ s ∈ b.sectors, s ∉ a.chain)
    (hp₁ : ∀ s ∈ a.chain, p s) (hp₂ : ∀ s ∈ b.chain, p s) (bytes₁ bytes₂ : Bytes)
    (hx : ∀ k', DependsOn x k' p p) :
    DependsOn (do
      discard (f.writeAt bytes₁ 0)
      discard (g.writeAt bytes₂ 0)
      x) k p p := by
  obtain ⟨k₁, hy₁, hkeep₁, -⟩ := ha.write_yields hk hf hout₁ bytes₁ 0
  have hb₁ := hb.keeps hkeep₁ hapart
  have hk₁ : 0 < k₁.dataSize := hkeep₁.dataSize.symm ▸ hk
  obtain ⟨k₂, hy₂, -⟩ := hb₁.write_yields hk₁ hg hout₂ bytes₂ 0
  exact (ha.write_depends hk hf hp₁ bytes₁ 0).discard.bind hy₁.discard
    ((hb₁.write_depends hk₁ hg hp₂ bytes₂ 0).discard.bind hy₂.discard (hx k₂))

/-! ## New files -/

theorem putNext_depends (hk : 0 < k.dataSize) {a s : Nat} (ha : a < k.sectors)
    (hs : s < k.sectors) :
    DependsOn (do
      ({ sector := a, next := some s, data := Bytes.zeros k.dataSize } : Block).store
      ({ sector := s, next := none, data := Bytes.zeros k.dataSize } : Block).store) k p
      fun t => (p t ∨ t = a) ∨ t = s := by
  refine .of_yields (r := .ok ()) (·.putNext a s) (fun k' h => ?_) fun k' h => h.putNext a s
  have hput := putNext_yields (k := k') (h.dataSize.symm ▸ hk) (h.sectors.symm ▸ ha)
    (h.sectors.symm ▸ hs)
  rwa [h.dataSize] at hput

/-- Growing a chain reads nothing, and writes to every sector that it claims. -/
theorem grow_depends {m : FreeMap} (hk : 0 < k.dataSize) (hsectors : m.size = k.sectors)
    {a : Nat} (ha : a < k.sectors) (hbehind : ∀ s ∈ m.free, a < s) {count : Nat}
    (hcount : count ≤ m.free.length) :
    DependsOn (Header.grow k.dataSize count (some ⟨a, none, Bytes.zeros k.dataSize⟩) m) k p
      fun s => p s ∨ s ∈ m.free.take count := by
  induction count generalizing k m a p with
  | zero => exact (DependsOn.pure _).mono (fun _ => id) fun s hs => hs.elim id (by rintro ⟨⟩)
  | succ count ih =>
    cases hfree : m.free with
    | nil =>
      rw [hfree] at hcount
      exact absurd hcount (Nat.not_succ_le_zero count)
    | cons s rest =>
      obtain ⟨hs, hrest⟩ := FreeMap.lt_of_free_cons hfree
      rw [hsectors] at hs
      have hmark : (m.mark s).free = rest := FreeMap.free_mark_head hfree
      have hnext : m.freeFrom? (a + 1) = some s := by
        rw [FreeMap.freeFrom?_eq hbehind, hfree]
        rfl
      have hgrow := ih (k := k.putNext a s) (m := m.mark s) (a := s) (p := fun t => p t ∨ t = s) hk
        (by rw [FreeMap.size_mark]; exact hsectors) hs (by rw [hmark]; exact hrest)
        (by rw [hmark]; rw [hfree] at hcount; exact Nat.le_of_succ_le_succ hcount)
      rw [hmark] at hgrow
      unfold Header.grow
      simp only [Option.elim_some, hnext]
      refine (putNext_depends hk ha hs).attempt.bind (putNext_yields hk ha hs).attempt
        (hgrow.mono (fun t ht => ht.imp_left .inl) fun t ht => ?_)
      rw [List.take_succ_cons, List.mem_cons, ← or_assoc] at ht
      exact ht

/-- A chain from nothing. -/
theorem growNew_depends {m : FreeMap} (hk : 0 < k.dataSize) (hsectors : m.size = k.sectors)
    {count : Nat} (hcount : count ≤ m.free.length) :
    DependsOn (Header.grow k.dataSize count none m) k p
      fun s => p s ∨ s ∈ m.free.take count := by
  cases count with
  | zero => exact (DependsOn.pure _).mono (fun _ => id) fun s hs => hs.elim id (by rintro ⟨⟩)
  | succ count =>
    cases hfree : m.free with
    | nil =>
      rw [hfree] at hcount
      exact absurd hcount (Nat.not_succ_le_zero count)
    | cons s rest =>
      obtain ⟨hs, hrest⟩ := FreeMap.lt_of_free_cons hfree
      rw [hsectors] at hs
      have hmark : (m.mark s).free = rest := FreeMap.free_mark_head hfree
      have hlen : (Bytes.zeros k.dataSize).length = k.dataSize := Bytes.length_zeros _
      have hnext : m.freeFrom? 0 = some s := by
        rw [FreeMap.freeFrom?_eq fun _ _ => Nat.zero_le _, hfree]
        rfl
      have hcount' : count ≤ (m.mark s).free.length := by
        rw [hfree] at hcount
        rw [hmark]
        exact Nat.le_of_succ_le_succ hcount
      let first : Block := ⟨s, none, Bytes.zeros k.dataSize⟩
      have hgrow := grow_depends (k := k.putBlock first) (m := m.mark s)
        (p := fun t => p t ∨ t = s) hk (by rw [FreeMap.size_mark]; exact hsectors) hs
        (by rw [hmark]; exact hrest) hcount'
      rw [hmark] at hgrow
      unfold Header.grow
      simp only [Option.elim_none, hnext]
      refine (store_depends (b := first) hk hs hlen).attempt.bind
        (store_yields (b := first) hk hs hlen).attempt (hgrow.mono (fun _ => id) fun t ht => ?_)
      rw [List.take_succ_cons, List.mem_cons, ← or_assoc] at ht
      exact ht

/-- **A new chain depends on nothing** of the disk, and all its sectors are written. -/
theorem allocate_depends {m : FreeMap} (hk : 0 < k.dataSize) (hsectors : m.size = k.sectors)
    (hlimit : k.sectors ≤ Link.limit) {size : Nat} (hfits : Fits k m size) :
    DependsOn (Header.allocate m size) k p
      fun s => p s ∨ s ∈ m.free.take (Layout.blocksFor size k.dataSize) := by
  obtain ⟨k', hy, -⟩ := growNew_yields hk hsectors hfits.free
    (FreeMap.lt_of_mem_take_free (hsectors ▸ Nat.le_trans hlimit (by decide)))
  have hroom : ¬m.numFree < Layout.blocksFor size k.dataSize := by
    rw [FreeMap.numFree_eq]
    exact Nat.not_lt.mpr hfits.free
  unfold Header.allocate
  refine DependsOn.after (a := k.dataSize) (fun k' h => h.dataSize ▸ Yields.dataSize k') ?_
  dsimp only
  rw [dif_pos ⟨hfits.size_lt, hfits.blocks_lt⟩, if_neg hroom]
  exact (growNew_depends hk hsectors hfits.free).bind hy
    ((DependsOn.note _).bind (Yields.note _ k') (.pure _))

/-- **The header and the first table** of a new file depend on its chain. -/
theorem writeNew_depends (hk : 0 < k.dataSize) (hsize : Layout.headerSize ≤ k.sectorSize)
    {kind : Kind} {s : Nat} {h : Header} {c : List Nat} (hs : s < k.sectors) (hsc : s ∉ c)
    (hc : k.Chained h c) (hblocks : c.length = Layout.blocksFor h.length k.dataSize)
    (hp : ∀ t ∈ c, p t) : DependsOn (Volume.writeNew kind s h) k p fun t => p t ∨ t = s := by
  refine (storeHeader_depends hs h).bind (storeHeader_yields hs h) ?_
  have hfile := hasFile_putHeader hsize hs hsc hc hblocks
  cases kind with
  | file => exact .pure _
  | directory =>
    refine DependsOn.after (fun k' hkeep => ?_)
      (hfile.write_depends (f := Place.handle ⟨s, h, c⟩) hk rfl (fun t ht => .inl (hp t ht))
        _ 0).discard
    exact (hfile.header.keeps hkeep (.inr rfl)).open_yields

/-! ## Changes along a route -/

variable {dir : Directory} {slots slots' : NodeSlots} {path : String}
  {editM : Directory → String → DriveM Directory}
  {edit : NodeSlots → String → Except VolumeError NodeSlots}

/-- **A change depends on the directories** that are below the table it starts from. -/
theorem change_depends (fresh : Nat → Prop) (hk : 0 < k.dataSize) {r : Route}
    (hedit : Implements editM edit (Slots.lastName r))
    (hnew : ∀ {s s' e t}, edit s (Slots.lastName r) = .ok s' → some (e, t) ∈ s' →
      some (e, t) ∈ s ∨ k.Holds t ∧ ∀ x ∈ t.sectors, fresh x)
    (h : dir.Shows slots) (hall : k.HoldsAll slots) (hnodup : (Slots.sectors slots).Nodup)
    (hfresh : ∀ s ∈ Slots.sectors slots, ¬fresh s)
    (hok : Slots.change Entry.name path edit r slots = .ok slots')
    (hp : ∀ s ∈ Slots.sectors slots, p s) :
    DependsOn (Directory.change path editM r dir) k p p := by
  induction r generalizing dir slots slots' with
  | invalid rest => cases hok
  | last n =>
    obtain ⟨dir', hy, -, -⟩ := hedit.edits h hok
    exact .read fun k' _ => hy k'
  | step n rest ih =>
    unfold Slots.change at hok
    split at hok
    · cases hok
    · cases hok
    · rename_i i e place below hfind
      obtain ⟨hi, -⟩ := Slots.find?_eq_some hfind
      have ht := List.mem_of_getElem? hi
      obtain ⟨hkind, hsector⟩ := h.leads e _ ht
      cases hbelow : Slots.change Entry.name path edit rest below with
      | error x =>
        rw [hbelow] at hok
        cases hok
      | ok below' =>
        have hperm := Slots.sectors_perm hi
        obtain ⟨hin, -, -⟩ := List.nodup_append.mp (hperm.nodup_iff.mp hnodup)
        have hsub : ∀ s ∈ (Tree.directory place below : Node).sectors, s ∈ Slots.sectors slots :=
          fun s hs => hperm.mem_iff.mpr (List.mem_append_left _ hs)
        rw [Tree.sectors_directory] at hin hsub
        obtain ⟨-, hinner, hapart⟩ := List.nodup_append.mp hin
        have hplace : ∀ s ∈ place.sectors, p s := fun s hs =>
          hp s (hsub s (List.mem_append_left _ hs))
        have hbelowSub : ∀ s ∈ Slots.sectors below, s ∈ Slots.sectors slots := fun s hs =>
          hsub s (List.mem_append_right _ hs)
        cases hall e _ ht with
        | directory table htable hshows hheld =>
          -- the change below leaves the table of this directory, which is stored next
          obtain ⟨dir₁, k₁, hy₁, hkeep₁, -⟩ := change_yields (r := rest) fresh hk hedit hnew hshows
            hheld hinner (fun s hs => hfresh s (hbelowSub s hs)) hbelow
          have htable₁ := htable.keeps hkeep₁ fun s hs hmem =>
            hapart s hs s (Slots.tables_subset hmem) rfl
          refine DependsOn.after (fun k' _ => search_yields h hfind) (DependsOn.after
            (a := (place.handle, table)) (fun k' hkeep => ?_) ?_)
          · have htable' := htable.keeps hkeep hplace
            exact enter_yields hkind hsector (hkeep.dataSize.symm ▸ hk) htable'.file htable'.isIn
              path
          · refine DependsOn.bind (ih hedit hnew hshows hheld hinner
              (fun s hs => hfresh s (hbelowSub s hs)) hbelow fun s hs => hp s (hbelowSub s hs))
              hy₁ ?_
            exact (((htable₁.file.write_depends (hkeep₁.dataSize.symm ▸ hk) rfl
              (fun s hs => hplace s (List.mem_cons_of_mem _ hs)) _ 0).discard).map fun _ => dir)

end Disk

end SectorChain
