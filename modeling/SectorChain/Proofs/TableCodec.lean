import SectorChain.Proofs.SequentialAccess
import SectorChain.Proofs.OneRecord
import SectorChain.Proofs.StoredRecords

/-!
# The format of tables

A table is sixty-four records of nineteen bytes, one behind the other across the blocks of its file.
Of a record most strings of bytes will do: only the mark of use and the number of the kind can be
wrong. A file may be longer than its table, or shorter, and what it lacks counts as zeros.

* `Entry.fault? bytes`: what is wrong with the record that starts the string.
* `Directory.fault? count bytes`: what is wrong with the first faulty one of `count` records.
* `Disk.Terminated k l`: the last block of the chain has the link that is written for the end of a
  chain, and not another one of those that lead nowhere.

Results:
* `decode_eq`, `decodeSlots_eq`: a record or a table is read, or its first fault is reported.
* `exists_isIn_iff`: the bytes that are those of a table.
* `changed_looseEnd`: what a write of the bytes that are there changes.
* `codec_exact`: tables that are written and read back, and read and written back, on every device
  without faults.
-/

namespace SectorChain

/-! ## One record -/

namespace Record

/-- A byte is a truth value just if it is 0 or 1. -/
theorem takeBool_cons (b : UInt8) (rest : Bytes) :
    takeBool (b :: rest) = if 1 < b then .error (.badBool b.toNat) else .ok (b = 1, rest) := by
  unfold takeBool takeByte
  simp only [bind, Except.bind]
  by_cases h0 : b = 0
  · subst h0
    rfl
  · by_cases h1 : b = 1
    · subst h1
      rfl
    · rw [if_neg h0, if_neg h1, if_pos (by grind)]

end Record

namespace Entry

variable {bytes : Bytes}

/-- What is wrong with the record that starts the string: its mark of use, or else the number of its
kind. -/
def fault? (bytes : Bytes) : Option RecordError :=
  if 1 < bytes.getD 0 0 then some (.badBool (bytes.getD 0 0).toNat)
  else if 1 < bytes.wordAt 1 then some (.badKind (bytes.wordAt 1).toNat)
  else none

/-- The fault of a record inside a string. -/
theorem fault?_drop (bytes : Bytes) (n : Nat) : fault? (bytes.drop n) =
    if 1 < bytes.getD n 0 then some (.badBool (bytes.getD n 0).toNat)
    else if 1 < bytes.wordAt (n + 1) then some (.badKind (bytes.wordAt (n + 1)).toNat)
    else none := by
  unfold fault?
  rw [Bytes.wordAt_drop, List.getD_eq_getElem?_getD, List.getElem?_drop, Nat.add_zero,
    ← List.getD_eq_getElem?_getD]

theorem fault?_drop_eq_none_iff {n : Nat} :
    fault? (bytes.drop n) = none ↔ bytes.getD n 0 ≤ 1 ∧ bytes.wordAt (n + 1) ≤ 1 := by
  rw [fault?_drop, ← UInt8.not_lt, ← UInt32.not_lt]
  split
  · rename_i h
    exact ⟨fun hno => (Option.some_ne_none _ hno).elim, fun hno => absurd h hno.1⟩
  · rename_i h
    split
    · rename_i hkind
      exact ⟨fun hno => (Option.some_ne_none _ hno).elim, fun hno => absurd hkind hno.2⟩
    · rename_i hkind
      exact ⟨fun _ => ⟨h, hkind⟩, fun _ => rfl⟩

/-- A number is that of a kind just if it is 0 or 1. -/
theorem takeKind_word (w : UInt32) (rest : Bytes) : ∃ kind, takeKind (Bytes.ofWord w ++ rest) =
    if 1 < w then .error (.badKind w.toNat) else .ok (kind, rest) := by
  unfold takeKind
  simp only [Record.takeWord_ofWord, bind, Except.bind]
  by_cases h0 : w = 0
  · subst h0
    exact ⟨.file, rfl⟩
  · by_cases h1 : w = 1
    · subst h1
      exact ⟨.directory, rfl⟩
    · have hnone : Kind.ofCode? w = none := by rw [Kind.ofCode?, if_neg h0, if_neg h1]
      exact ⟨.file, by rw [hnone, if_pos (by grind)]⟩

/-- **A record is read** if nothing is wrong with it; otherwise its first fault is reported. -/
theorem decode_eq (h : Layout.entrySize ≤ bytes.length) :
    ∃ e, decode bytes = (fault? bytes).elim (.ok e) .error := by
  cases bytes with
  | nil => exact absurd h (by decide)
  | cons b rest =>
    have hlen : 18 ≤ rest.length := Nat.le_of_succ_le_succ h
    have hcode : Bytes.wordAt rest 0 = Bytes.wordAt (b :: rest) 1 :=
      Bytes.wordAt_drop (b :: rest) 1 0
    obtain ⟨kind, hkind⟩ := takeKind_word (Bytes.wordAt rest 0) (rest.drop 4)
    rw [← Bytes.eq_wordAt (by omega), hcode] at hkind
    obtain ⟨field, tail, hfield, htail⟩ : ∃ field tail,
        Record.takeBytes (Layout.nameMax + 1) (rest.drop 4) = .ok (field, tail) ∧
          4 ≤ tail.length := by
      have hname : ((rest.drop 4).take (Layout.nameMax + 1)).length = Layout.nameMax + 1 := by
        rw [List.length_take, List.length_drop]
        exact Nat.min_eq_left (Nat.le_sub_of_add_le (Nat.le_trans (by decide) hlen))
      refine ⟨_, _, Record.takeBytes_eq_ok_iff.mpr ⟨hname, (List.take_append_drop _ _).symm⟩, ?_⟩
      rw [List.length_drop, List.length_drop, Layout.nameMax]
      omega
    have hlink : Link.take tail = .ok (⟨tail.wordAt 0⟩, tail.drop 4) :=
      Link.take_eq_ok_iff.mpr (Bytes.eq_wordAt htail)
    refine ⟨⟨b = 1, kind, .ofBytes field, ⟨tail.wordAt 0⟩⟩, ?_⟩
    unfold decode fault?
    rw [Record.takeBool_cons, List.getD_cons_zero]
    by_cases hb : 1 < b
    · rw [if_pos hb, if_pos hb]
      rfl
    · rw [if_neg hb, if_neg hb]
      by_cases hcode : 1 < Bytes.wordAt (b :: rest) 1
      · rw [if_pos hcode] at hkind ⊢
        simp only [bind, Except.bind, hkind]
        rfl
      · rw [if_neg hcode] at hkind ⊢
        simp only [bind, Except.bind, hkind, hfield, hlink]
        rfl

end Entry

/-! ## All records of a table -/

namespace Directory

variable {bytes : Bytes} {count i : Nat} {x : RecordError}

/-- What is wrong with the first faulty one of `count` records. -/
def fault? (count : Nat) (bytes : Bytes) : Option RecordError :=
  (List.range count).findSome? fun i => Entry.fault? (bytes.drop (i * Layout.entrySize))

theorem fault?_succ (count : Nat) (bytes : Bytes) : fault? (count + 1) bytes =
    (Entry.fault? bytes).or (fault? count (bytes.drop Layout.entrySize)) := by
  unfold fault?
  rw [List.range_succ_eq_map, List.findSome?_cons, List.findSome?_map, Nat.zero_mul, List.drop_zero]
  simp only [Function.comp_def, Nat.succ_mul, List.drop_drop, Nat.add_comm Layout.entrySize]
  cases Entry.fault? bytes <;> rfl

/-- A table without a fault has none in any of its records. -/
theorem fault?_eq_none_iff : fault? count bytes = none ↔ ∀ i, i < count →
    bytes.getD (i * Layout.entrySize) 0 ≤ 1 ∧ bytes.wordAt (i * Layout.entrySize + 1) ≤ 1 := by
  unfold fault?
  simp only [List.findSome?_eq_none_iff, List.mem_range, Entry.fault?_drop_eq_none_iff]

/-- The first fault is that of the first faulty record. -/
theorem fault?_eq_some (hi : i < count)
    (hbefore : ∀ j, j < i → Entry.fault? (bytes.drop (j * Layout.entrySize)) = none)
    (hx : Entry.fault? (bytes.drop (i * Layout.entrySize)) = some x) :
    fault? count bytes = some x := by
  obtain ⟨rest, rfl⟩ := Nat.exists_eq_add_of_lt hi
  have hsplit : List.range (i + rest + 1) =
      List.range i ++ i :: (List.range rest).map fun j => i + j.succ := by
    rw [Nat.add_assoc, List.range_add, List.range_succ_eq_map, List.map_cons, List.map_map]
    rfl
  exact List.findSome?_eq_some_iff.mpr
    ⟨_, i, _, hsplit, hx, fun j hj => hbefore j (List.mem_range.mp hj)⟩

/-- **A table is read** if nothing is wrong with it; otherwise its first fault is reported. -/
theorem decodeSlots_eq (h : count * Layout.entrySize ≤ bytes.length) :
    ∃ slots, decodeSlots count bytes = (fault? count bytes).elim (.ok slots) .error := by
  induction count generalizing bytes with
  | zero => exact ⟨[], rfl⟩
  | succ count ih =>
    rw [Nat.succ_mul] at h
    have hrest : count * Layout.entrySize ≤ (bytes.drop Layout.entrySize).length := by
      rw [List.length_drop]
      omega
    obtain ⟨e, he⟩ := Entry.decode_eq (Nat.le_trans (Nat.le_add_left _ _) h)
    obtain ⟨slots, hslots⟩ := ih hrest
    refine ⟨e :: slots, ?_⟩
    rw [fault?_succ, decodeSlots, he]
    cases Entry.fault? bytes with
    | some x => rfl
    | none =>
      simp only [Option.elim_none, Option.none_or, bind, Except.bind, hslots]
      cases fault? count (bytes.drop Layout.entrySize) <;> rfl

/-- The bytes of a file are those of a table just if nothing is wrong with them. -/
theorem exists_isIn_iff {content : Bytes} : (∃ dir : Directory, dir.IsIn content) ↔
    fault? Layout.directorySlots (Bytes.fit Layout.directorySize content) = none := by
  have hlen : Layout.directorySlots * Layout.entrySize ≤
      (Bytes.fit Layout.directorySize content).length :=
    Nat.le_of_eq (Bytes.length_fit Layout.directorySize content).symm
  obtain ⟨slots, hslots⟩ := decodeSlots_eq hlen
  constructor
  · rintro ⟨dir, hin⟩
    cases hfault : fault? Layout.directorySlots (Bytes.fit Layout.directorySize content) with
    | none => rfl
    | some x =>
      rw [hfault] at hslots
      cases hslots.symm.trans hin
  · intro h
    rw [h] at hslots
    exact ⟨⟨slots⟩, hslots⟩

end Directory

/-! ## Files of any length -/

namespace Bytes

/-- Of a string that is cut or filled up, the part that was there is left. -/
theorem take_fit_take {n m : Nat} {bytes : Bytes} (h : min n m ≤ bytes.length) :
    (fit n (bytes.take m)).take m = bytes.take (min n m) := by
  apply List.ext_getElem?
  intro t
  by_cases hm : t < m
  · rw [List.getElem?_take_of_lt hm]
    by_cases hn : t < n
    · rw [getElem?_fit hn, List.getElem?_take_of_lt hm, List.getElem?_take_of_lt (by omega),
        List.getElem?_eq_getElem (by omega), Option.getD_some]
    · rw [getElem?_fit_of_ge (Nat.not_lt.mp hn), List.getElem?_take_eq_none (by omega)]
  · rw [List.getElem?_take_eq_none (Nat.not_lt.mp hm), List.getElem?_take_eq_none (by omega)]

/-- A string at the front of another is what is cut off it. -/
theorem fit_splice_front (bytes new : Bytes) : fit new.length (splice bytes 0 new) = new := by
  rw [fit, splice, List.take_zero, List.nil_append, List.take_left' rfl,
    pad_of_le (Nat.le_refl _)]

end Bytes

namespace Disk

variable {k k' : Disk} {l : List Nat} {f : Handle}

/-- The front of a file is read, on every disk. If its sectors have no room for data the file is
empty. -/
theorem readAt_front (hc : k.Chained f.header l) (count : Nat)
    (hlen : min count f.header.length ≤ l.length * k.dataSize) :
    Yields (f.readAt count 0) k (.ok ((k.content f.header l).take count)) k := by
  rcases Nat.eq_zero_or_pos k.dataSize with hzero | hk
  · rw [hzero, Nat.mul_zero, Nat.le_zero_eq, Nat.min_eq_zero_iff] at hlen
    have hclamp : Handle.clamp? count 0 f.header.length = none :=
      if_pos (hlen.imp id Nat.le_zero.mpr)
    have hnil : (k.content f.header l).take count = [] := by
      rw [content, List.take_take, Nat.min_eq_zero_iff.mpr hlen, List.take_zero]
    unfold Handle.readAt Handle.length
    rw [hclamp, hnil]
    exact Yields.pure _ k
  · have hy := readAt_slice hk hc count 0 (by rwa [Nat.zero_add])
    rwa [List.drop_zero] at hy

/-- The front of a file is written, on every disk. -/
theorem writeAt_front (hc : k.Chained f.header l) (bytes : Bytes)
    (hlen : min bytes.length f.header.length ≤ l.length * k.dataSize) :
    ∃ (k' : Disk) (touched : List Nat),
      Yields (f.writeAt bytes 0) k (.ok (bytes.take f.header.length).length) k' ∧
      k.Keeps k' (· ∉ touched) ∧ touched ⊆ l ∧ (∀ s ∈ touched, k.Relinked k' s) ∧
      k'.Chained f.header l ∧
      k'.chainData l = Bytes.splice (k.chainData l) 0 (bytes.take f.header.length) := by
  rcases Nat.eq_zero_or_pos k.dataSize with hzero | hk
  · rw [hzero, Nat.mul_zero, Nat.le_zero_eq, Nat.min_eq_zero_iff] at hlen
    have hclamp : Handle.clamp? bytes.length 0 f.header.length = none :=
      if_pos (hlen.imp id Nat.le_zero.mpr)
    have hnil : bytes.take f.header.length = [] :=
      List.take_eq_nil_iff.mpr (hlen.symm.imp id List.eq_nil_of_length_eq_zero)
    refine ⟨k, [], ?_, Keeps.refl k _, List.nil_subset l, by rintro s ⟨⟩, hc, ?_⟩
    · unfold Handle.writeAt Handle.length
      rw [hclamp, hnil]
      exact Yields.pure _ k
    · rw [hnil, Bytes.splice_nil]
  · obtain ⟨k', hy, hkeep, hrelinked, hchained, hdata⟩ :=
      writeAt_slice hk hc bytes 0 (by rwa [Nat.zero_add])
    exact ⟨k', _, hy, hkeep, fun s hs => mem_of_mem_touched hs, hrelinked, hchained, hdata⟩

/-- The front of a file is decoded. -/
theorem fetch_front (hc : k.Chained f.header l)
    (hlen : min Layout.directorySize f.header.length ≤ l.length * k.dataSize) :
    Yields (Directory.fetch f) k
      (((Directory.decodeSlots Layout.directorySlots (Bytes.fit Layout.directorySize
        (k.content f.header l))).map Directory.mk).mapError .record) k := by
  refine (readAt_front hc Layout.directorySize hlen).bind ?_
  unfold Bytes.fit
  dsimp only
  cases Directory.decodeSlots Layout.directorySlots
      (Bytes.pad Layout.directorySize ((k.content f.header l).take Layout.directorySize)) with
  | ok slots => exact (Yields.decoded _ k).bind (Yields.pure _ k)
  | error x => exact (Yields.throw _ k).bind_error

/-- A faulty table is not read: its first fault is reported. -/
theorem fetch_faulty {x : RecordError} (hc : k.Chained f.header l)
    (hlen : min Layout.directorySize f.header.length ≤ l.length * k.dataSize)
    (hx : Directory.fault? Layout.directorySlots
      (Bytes.fit Layout.directorySize (k.content f.header l)) = some x) :
    Yields (Directory.fetch f) k (.error (.record x)) k := by
  have hy := fetch_front hc hlen
  have hfit : Layout.directorySlots * Layout.entrySize ≤
      (Bytes.fit Layout.directorySize (k.content f.header l)).length :=
    Nat.le_of_eq (Bytes.length_fit Layout.directorySize _).symm
  obtain ⟨slots, hslots⟩ := Directory.decodeSlots_eq hfit
  rwa [hslots, hx] at hy

/-- **A table is read just if it is in the file.** -/
theorem fetch_isIn {dir : Directory} (hc : k.Chained f.header l)
    (hlen : min Layout.directorySize f.header.length ≤ l.length * k.dataSize)
    (hin : dir.IsIn (k.content f.header l)) : Yields (Directory.fetch f) k (.ok dir) k := by
  have hy := fetch_front hc hlen
  rwa [show Directory.decodeSlots _ _ = _ from hin] at hy

/-! ## Bytes that are written again -/

variable {s j : Nat} {touched : List Nat}

/-- The last block of the chain has the link that is written for the end of a chain. -/
def Terminated (k : Disk) (l : List Nat) : Prop :=
  ∀ s ∈ l.getLast?, (k.bytes s).wordAt 4 = Link.endOfChain.word

/-- The second link of a block is its second word. -/
theorem wordAt_second {own next : Link} {data : Bytes} :
    Bytes.wordAt (own.encode ++ next.encode ++ data) 4 = next.word := by
  have hlen : 4 ≤ (next.encode ++ data).length := by
    rw [List.length_append, Link.length_encode]
    omega
  have hword : next.encode ++ data =
      Link.encode ⟨Bytes.wordAt (next.encode ++ data) 0⟩ ++ (next.encode ++ data).drop 4 :=
    Bytes.eq_wordAt hlen
  rw [List.append_assoc, ← Nat.add_zero 4, ← Bytes.wordAt_drop, List.drop_left' own.length_encode]
  exact congrArg Link.word (Link.append_inj hword).1.symm

/-- A chain that ends as it is written has no loose end. -/
theorem Terminated.not_looseEnd (h : k.Terminated l) (hl : k.Linked l) (hs : s ∈ l) :
    ¬k.LooseEnd s j := by
  rintro ⟨-, -, own', next', hlinks, hnone, hother⟩
  obtain ⟨front, back, rfl⟩ := List.append_of_mem hs
  obtain ⟨-, own, next, hbytes, -, hnext⟩ := (hl.suffix ⟨front, rfl⟩ : k.Linked (s :: back)).1
  have hboth : (k.bytes s).take Layout.linkSize = own.encode ++ next.encode := by
    rw [hbytes]
    exact List.take_left' rfl
  obtain ⟨-, hsecond⟩ := Link.append_inj (hboth.symm.trans hlinks)
  obtain ⟨rfl, -⟩ := Link.append_inj (congrArg (· ++ ([] : Bytes)) hsecond)
  rw [hnone] at hnext
  cases back with
  | cons t back => cases hnext
  | nil =>
    have hlast := h s List.getLast?_concat
    rw [hbytes, wordAt_second] at hlast
    exact hother (congrArg Link.mk hlast)

/-- **Bytes that are written again** change nothing but loose ends. -/
theorem changed_looseEnd (hkeep : k.Keeps k' (· ∉ touched)) (hsub : touched ⊆ l)
    (hrelinked : ∀ s ∈ touched, k.Relinked k' s) (hdata : k'.chainData l = k.chainData l)
    (hchanged : (k'.bytes s)[j]? ≠ (k.bytes s)[j]?) : s ∈ l ∧ k.LooseEnd s j := by
  have hs : s ∈ touched := Classical.byContradiction fun hs => hchanged (by rw [hkeep.bytes s hs])
  refine ⟨hsub hs, ?_⟩
  rcases Nat.lt_or_ge j Layout.linkSize with hj | hj
  · exact (hrelinked s hs).looseEnd hj hchanged
  · obtain ⟨u, rfl⟩ := Nat.exists_eq_add_of_le hj
    have hsame := dataAt_eq_of_chainData hkeep.dataSize hdata s (hsub hs)
    unfold dataAt at hsame
    rw [← List.getElem?_drop, ← List.getElem?_drop, hsame] at hchanged
    exact absurd rfl hchanged

/-- A table that was read from a file is written over itself. -/
theorem store_own {dir : Directory} (hc : k.Chained f.header l)
    (hlen : min Layout.directorySize f.header.length ≤ l.length * k.dataSize)
    (hin : dir.IsIn (k.content f.header l)) :
    ∃ k', Yields (dir.store f) k (.ok ()) k' ∧ k.SameSize k' ∧
      ∀ s j, (k'.bytes s)[j]? ≠ (k.bytes s)[j]? → s ∈ l ∧ k.LooseEnd s j := by
  obtain ⟨hcount, hencode⟩ := Directory.isIn_iff.mp hin
  have hlength : dir.encode.length = Layout.directorySize := by rw [hencode, Bytes.length_fit]
  obtain ⟨k', touched, hy, hkeep, hsub, hrelinked, -, hdata⟩ :=
    writeAt_front (f := f) hc dir.encode (by rwa [hlength])
  -- what the file has of the table is the front of the data
  have hfront : dir.encode.take f.header.length =
      (k.chainData l).take (min Layout.directorySize f.header.length) := by
    rw [hencode, content, Bytes.take_fit_take (by rwa [length_chainData])]
  rw [hfront, Bytes.splice_take] at hdata
  exact ⟨k', hy.discard, hkeep.sameSize, fun s j => changed_looseEnd hkeep hsub hrelinked hdata⟩

/-- A table is found in a file that is long enough after it was written there. -/
theorem store_found {dir : Directory} (hc : k.Chained f.header l)
    (hcount : dir.slots.length = Layout.directorySlots)
    (hlength : Layout.directorySize ≤ f.header.length)
    (hroom : Layout.directorySize ≤ l.length * k.dataSize) :
    ∃ k', Yields (dir.store f) k (.ok ()) k' ∧ k.SameSize k' ∧ k'.Chained f.header l ∧
      dir.IsIn (k'.content f.header l) := by
  have hencode : dir.encode.length = Layout.directorySize := by
    rw [Directory.length_encode, hcount]
    rfl
  obtain ⟨k', touched, hy, hkeep, -, -, hchained, hdata⟩ :=
    writeAt_front (f := f) hc dir.encode (hencode.symm ▸ Nat.le_trans (Nat.min_le_left _ _) hroom)
  refine ⟨k', hy.discard, hkeep.sameSize, hchained, Directory.isIn_iff.mpr ⟨hcount, ?_⟩⟩
  rw [List.take_of_length_le (hencode.symm ▸ hlength)] at hdata
  rw [content, hdata, Bytes.take_splice (Nat.zero_le _) (by rwa [Nat.zero_add, hencode]), ← hencode,
    Bytes.fit_splice_front]

end Disk

/-! ## On a device -/

namespace Directory

variable {d d₀ : Drive} {f : Handle} {l : List Nat}

/-- A table that was read is the one in the file, and the device is as it was. -/
theorem isIn_of_fetch (hd : d.FaultFree) (hc : d.disk.Chained f.header l)
    (hroom : min Layout.directorySize f.header.length ≤ l.length * d.disk.dataSize)
    {dir : Directory} {d₁ : Drive} (h : fetch f d = .ok dir d₁) :
    dir.IsIn (d.disk.content f.header l) ∧ d₁.device = d.device ∧ d₁.FaultFree := by
  have hdevice := (fetch_still f d).1
  rw [h] at hdevice
  cases hfault : fault? Layout.directorySlots
      (Bytes.fit Layout.directorySize (d.disk.content f.header l)) with
  | some x =>
    obtain ⟨d₂, hrun, -⟩ := Disk.fetch_faulty hc hroom hfault d hd rfl
    cases h.symm.trans hrun
  | none =>
    obtain ⟨found, hin⟩ := exists_isIn_iff.mpr hfault
    obtain ⟨d₂, hrun, hd₂, -⟩ := Disk.fetch_isIn hc hroom hin d hd rfl
    cases h.symm.trans hrun
    exact ⟨hin, hdevice, hd₂⟩

/-- **The format of tables is exact.** On every device without faults, for every file whose chain
can be walked and has as much of a table as the file is long, let `table` be the first bytes of the
file, with zeros behind them where it is shorter:
* if the file is long enough, every directory of sixty-four slots is written to it and read back;
* a directory is read just if each of the sixty-four records has a mark of use and a number of its
  kind that are 0 or 1;
* it has sixty-four slots then, which are encoded to the bytes of `table`, and no byte of the disk
  changes when it is written back, if the chain ends with the link that is written for that. One
  that ends with another link to nowhere gets the written one;
* otherwise the first faulty field of the first faulty record is reported. -/
theorem codec_exact (hd : d.FaultFree) (hchain : f.header.chain d = .ok l d₀)
    (hroom : min Layout.directorySize f.header.length ≤
      l.length * Layout.dataSize d.device.sectorSize) :
    let table := Bytes.fit Layout.directorySize ((d.disk.chainData l).take f.header.length)
    let used i := table.getD (i * Layout.entrySize) 0
    let kind i := table.wordAt (i * Layout.entrySize + 1)
    (Layout.directorySize ≤ f.header.length →
      ∀ dir : Directory, dir.slots.length = Layout.directorySlots →
        ∃ d₁ d₂, dir.store f d = .ok () d₁ ∧ fetch f d₁ = .ok dir d₂) ∧
    ((∃ dir d₁, fetch f d = .ok dir d₁) ↔
      ∀ i, i < Layout.directorySlots → used i ≤ 1 ∧ kind i ≤ 1) ∧
    (∀ dir d₁, fetch f d = .ok dir d₁ →
      dir.slots.length = Layout.directorySlots ∧ dir.encode = table ∧ d₁.device = d.device ∧
      ∃ d₂, dir.store f d₁ = .ok () d₂ ∧
        (∀ s j, (d₂.disk.bytes s)[j]? ≠ (d.disk.bytes s)[j]? → s ∈ l ∧ d.disk.LooseEnd s j) ∧
        (d.disk.Terminated l → ∀ s, d₂.device.sector? s = d.device.sector? s)) ∧
    ∀ i, i < Layout.directorySlots → (∀ j, j < i → used j ≤ 1 ∧ kind j ≤ 1) →
      (1 < used i → ∃ d₁, fetch f d = .error (.record (.badBool (used i).toNat)) d₁) ∧
      (used i ≤ 1 → 1 < kind i →
        ∃ d₁, fetch f d = .error (.record (.badKind (kind i).toNat)) d₁) := by
  intro table used kind
  have hc : d.disk.Chained f.header l := hd.chained hchain
  have hok : (∃ dir d₁, fetch f d = .ok dir d₁) ↔
      ∃ dir : Directory, dir.IsIn (d.disk.content f.header l) := by
    constructor
    · rintro ⟨dir, d₁, h⟩
      exact ⟨dir, (isIn_of_fetch hd hc hroom h).1⟩
    · rintro ⟨dir, hin⟩
      obtain ⟨d₁, hrun, -⟩ := Disk.fetch_isIn hc hroom hin d hd rfl
      exact ⟨dir, d₁, hrun⟩
  have hfirst : ∀ i x, i < Layout.directorySlots → (∀ j, j < i → used j ≤ 1 ∧ kind j ≤ 1) →
      Entry.fault? (table.drop (i * Layout.entrySize)) = some x →
      ∃ d₁, fetch f d = .error (.record x) d₁ := fun i x hi hbefore hx => by
    have hfault : fault? Layout.directorySlots table = some x :=
      fault?_eq_some hi (fun j hj => Entry.fault?_drop_eq_none_iff.mpr (hbefore j hj)) hx
    obtain ⟨d₁, hrun, -⟩ := Disk.fetch_faulty hc hroom hfault d hd rfl
    exact ⟨d₁, hrun⟩
  refine ⟨fun hlength dir hcount => ?_, hok.trans (exists_isIn_iff.trans fault?_eq_none_iff),
    fun dir d₁ h => ?_, fun i hi hbefore => ⟨fun hused => hfirst i _ hi hbefore ?_,
      fun hused hkind => hfirst i _ hi hbefore ?_⟩⟩
  · have hwhole := hroom
    rw [Nat.min_eq_left hlength] at hwhole
    obtain ⟨k', hstore, hsame, hc', hin⟩ := Disk.store_found (f := f) hc hcount hlength hwhole
    obtain ⟨d₁, hrun, hd₁, rfl⟩ := hstore d hd rfl
    obtain ⟨d₂, hread, -⟩ :=
      Disk.fetch_isIn hc' (hsame.dataSize.symm ▸ hroom) hin d₁ hd₁ rfl
    exact ⟨d₁, d₂, hrun, hread⟩
  · obtain ⟨hin, hdevice, hd₁⟩ := isIn_of_fetch hd hc hroom h
    have hdisk : d₁.disk = d.disk := congrArg Device.disk hdevice
    obtain ⟨k', hstore, hsame, hloose⟩ := Disk.store_own (f := f) hc hroom hin
    obtain ⟨d₂, hrun, hd₂, rfl⟩ := hstore d₁ hd₁ hdisk
    refine ⟨hin.length_slots, (isIn_iff.mp hin).2, hdevice, d₂, hrun, hloose, fun hend => ?_⟩
    refine hd₂.sector?_eq hd (Disk.ext hsame.sectors hsame.sectorSize (funext fun s => ?_))
    refine List.ext_getElem? fun j => Classical.byContradiction fun hchanged => ?_
    obtain ⟨hs, hlast⟩ := hloose s j hchanged
    exact hend.not_looseEnd hc.linked hs hlast
  · rw [Entry.fault?_drop]
    exact if_pos hused
  · rw [Entry.fault?_drop]
    exact (if_neg (UInt8.not_lt.mpr hused)).trans (if_pos hkind)

/-- A drive with a file of twelve bytes in the sectors 3 and 1, which begins with the number `n` of
a kind. -/
def kindDrive (n : UInt8) : Drive where
  device := ((Device.blank 4 16).put 3 ([3, 0, 0, 0, 1, 0, 0, 0] ++ [1, n, 0, 0, 0, 0, 0, 0])).put 1
    ([1, 0, 0, 0, 0xFF, 0xFF, 0xFF, 0xFF] ++ Bytes.zeros 8)

theorem faultFree_kindDrive (n : UInt8) : (kindDrive n).FaultFree :=
  ⟨Device.reliable_put (Device.reliable_put (Drive.faultFree_blank 4 16).reliable rfl) rfl, rfl⟩

/-- Twelve bytes across two blocks are read as a table that begins with a directory, and written
back without a change; with another number in place of its kind they are refused. A whole table of
directories is written to a file of one block. -/
theorem codec_exact_across :
    (∃ (dir : Directory) (d₁ d₂ : Drive), fetch Handle.twelve (kindDrive 1) = .ok dir d₁ ∧
      dir.slots.length = 64 ∧ dir.store Handle.twelve d₁ = .ok () d₂ ∧
      ∀ s, d₂.device.sector? s = (kindDrive 1).device.sector? s) ∧
    (∃ d₁, fetch Handle.twelve (kindDrive 2) = .error (.record (.badKind 2)) d₁) ∧
    ∃ d₁ d₂, store ⟨List.replicate 64 (.ofFile "x" .directory 7)⟩ shelf.place.handle shelfDrive =
        .ok () d₁ ∧
      fetch shelf.place.handle d₁ = .ok ⟨List.replicate 64 (.ofFile "x" .directory 7)⟩ d₂ := by
  refine ⟨?_, ?_, ?_⟩
  · obtain ⟨d₀, hchain⟩ : ∃ d₀, Handle.twelve.header.chain (kindDrive 1) = .ok [3, 1] d₀ := ⟨_, rfl⟩
    obtain ⟨-, hread, hwritten, -⟩ :=
      codec_exact (faultFree_kindDrive 1) hchain (by decide +kernel)
    have hdata : (kindDrive 1).disk.chainData [3, 1] = [1, 1] ++ Bytes.zeros 14 := by
      decide +kernel
    have hnone : fault? Layout.directorySlots (Bytes.fit Layout.directorySize
        (((kindDrive 1).disk.chainData [3, 1]).take Handle.twelve.header.length)) = none := by
      rw [hdata]
      decide +kernel
    obtain ⟨dir, d₁, hfetch⟩ := hread.mpr (fault?_eq_none_iff.mp hnone)
    obtain ⟨hcount, -, -, d₂, hstore, -, hsame⟩ := hwritten dir d₁ hfetch
    have hend : (kindDrive 1).disk.Terminated [3, 1] := by
      intro s hs
      cases hs
      decide +kernel
    exact ⟨dir, d₁, d₂, hfetch, hcount, hstore, hsame hend⟩
  · obtain ⟨d₀, hchain⟩ : ∃ d₀, Handle.twelve.header.chain (kindDrive 2) = .ok [3, 1] d₀ := ⟨_, rfl⟩
    obtain ⟨-, -, -, hfault⟩ := codec_exact (faultFree_kindDrive 2) hchain (by decide +kernel)
    obtain ⟨-, hkind⟩ := hfault 0 (by decide) (fun j hj => absurd hj (Nat.not_lt_zero j))
    exact hkind (by decide +kernel) (by decide +kernel)
  · obtain ⟨d₀, hchain, -⟩ :=
      tabled_shelf.lies.chained.chain_yields shelfDrive faultFree_shelfDrive rfl
    obtain ⟨hstored, -⟩ := codec_exact (f := shelf.place.handle) faultFree_shelfDrive hchain
      (by decide +kernel)
    exact hstored (by decide) _ (by decide)

end Directory

end SectorChain
