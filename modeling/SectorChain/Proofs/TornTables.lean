import SectorChain.Proofs.Tearing

/-!
# Tables and maps that are torn

An edit of one slot changes the bytes of one record of a table. When the table is torn on its way
to the disk, the front of that record may be new and the rest old: every such record can be read
(`Entry.torn`), so what is in the file then is the table with some entry in that slot.

Taking an entry out of use changes one byte of its record: a table that is torn by this is the old
one or the new one. A free map has a bit for each mark, so a torn map is made of old and new marks.

Results:
* `IsIn.torn`: a torn table differs from the old one in the edited slot, if at all.
* `IsIn.torn_erased`: a torn erasure is none, or is complete.
* `IsIn.rewrite`: a table that is written over itself stays, torn or not.
* `isUsed_torn`: each mark of a torn free map is new or old.
-/

namespace SectorChain

namespace Bytes

variable {bytes new : Bytes} {pos n t : Nat}

theorem getElem?_splice_zero (bytes new : Bytes) (t : Nat) :
    (splice bytes 0 new)[t]? = if t < new.length then new[t]? else bytes[t]? := by
  rw [getElem?_splice (Nat.zero_le _), Nat.zero_add, Nat.sub_zero]
  simp only [Nat.zero_le, true_and]

/-- Bytes that are replaced by the same bytes. -/
theorem splice_take (bytes : Bytes) (n : Nat) : splice bytes 0 (bytes.take n) = bytes := by
  apply List.ext_getElem?
  intro t
  rw [getElem?_splice_zero, List.length_take]
  split
  · rw [List.getElem?_take_of_lt (by omega)]
  · rfl

theorem getElem?_fit_of_ge (h : n ≤ t) : (fit n bytes)[t]? = none :=
  List.getElem?_eq_none (by rwa [length_fit])

theorem take_fit (n : Nat) (bytes : Bytes) :
    (fit n bytes).take bytes.length = bytes.take n := by
  unfold fit pad
  split
  · rename_i h
    rw [List.length_take] at h
    rw [List.take_of_length_le (l := bytes) (by omega), List.take_left' rfl]
  · rw [List.take_take, Nat.min_comm, ← List.take_take, List.take_length]

/-- The bytes of a file when `new` was written from its start on, as far as the file goes, and only
the first `n` of them have reached the disk. -/
def torn (bytes new : Bytes) (n : Nat) : Bytes := splice bytes 0 ((new.take bytes.length).take n)

theorem torn_zero (bytes new : Bytes) : bytes.torn new 0 = bytes := by
  unfold torn
  rw [List.take_zero, splice_nil]

theorem torn_length (bytes new : Bytes) :
    bytes.torn new bytes.length = splice bytes 0 (new.take bytes.length) := by
  unfold torn
  rw [List.take_take, Nat.min_self]

/-- A torn file, cut or filled up, is a string of that length that is torn. -/
theorem fit_torn (n : Nat) (bytes new : Bytes) (m : Nat) (hnew : new.length ≤ n) :
    fit n (bytes.torn new m) = splice (fit n bytes) 0 (new.take (min m bytes.length)) := by
  apply List.ext_getElem?
  intro t
  unfold torn
  rw [getElem?_splice_zero, List.length_take]
  by_cases ht : t < n
  · rw [getElem?_fit ht, getElem?_fit ht, getElem?_splice_zero, List.length_take, List.length_take]
    by_cases hin : t < min (min m bytes.length) new.length
    · rw [if_pos (by omega), if_pos hin, List.getElem?_take_of_lt (by omega),
        List.getElem?_take_of_lt (by omega), List.getElem?_take_of_lt (by omega),
        List.getElem?_eq_getElem (by omega), Option.getD_some]
    · rw [if_neg (by omega), if_neg hin]
  · rw [getElem?_fit_of_ge (Nat.not_lt.mp ht), getElem?_fit_of_ge (Nat.not_lt.mp ht),
      if_neg (by omega)]

/-- Bytes that are replaced from the start on by others of the same number, torn. -/
theorem splice_torn (h : new.length = bytes.length) (n : Nat) :
    splice bytes 0 (new.take n) = new.take n ++ bytes.drop n := by
  unfold splice
  rw [List.take_zero, List.nil_append, Nat.zero_add, List.length_take]
  by_cases hn : n ≤ new.length
  · rw [Nat.min_eq_left hn]
  · rw [List.drop_eq_nil_of_le (by omega), List.drop_eq_nil_of_le (by omega)]

theorem splice_of_length (h : new.length = bytes.length) : splice bytes 0 new = new := by
  have hall := splice_torn h new.length
  rwa [List.take_length, List.drop_eq_nil_of_le (by omega), List.append_nil] at hall

/-- Of three parts, only the middle one is new. -/
theorem splice_middle {old : Bytes} (h : new.length = old.length) (front back : Bytes) (n : Nat) :
    splice (front ++ old ++ back) 0 ((front ++ new ++ back).take n) =
      front ++ splice old 0 (new.take (n - front.length)) ++ back := by
  rw [splice_torn (by simp only [List.length_append, h]), splice_torn h, List.append_assoc front,
    List.append_assoc front]
  rcases Nat.lt_or_ge n front.length with hfront | hfront
  · rw [Nat.sub_eq_zero_of_le (Nat.le_of_lt hfront), List.take_zero, List.drop_zero,
      List.nil_append, List.take_append_of_le_length (Nat.le_of_lt hfront),
      List.drop_append_of_le_length (Nat.le_of_lt hfront), ← List.append_assoc,
      List.take_append_drop, List.append_assoc]
  · obtain ⟨m, rfl⟩ := Nat.exists_eq_add_of_le hfront
    rw [List.take_length_add_append, List.drop_length_add_append, Nat.add_sub_cancel_left]
    rcases Nat.lt_or_ge m old.length with hold | hold
    · rw [List.take_append_of_le_length (by omega), List.drop_append_of_le_length (by omega)]
      simp only [List.append_assoc]
    · rw [List.take_append, List.drop_append, List.drop_eq_nil_of_le hold, h,
        List.take_of_length_le (by omega)]
      simp only [List.append_assoc, List.nil_append, List.take_append_drop]

end Bytes

/-! ## Torn records -/

namespace Entry

theorem encode_injective {e e' : Entry} (h : e.encode = e'.encode) : e = e' := by
  have hd := decode_encode e []
  rw [h, decode_encode] at hd
  exact (Except.ok.inj hd).symm

/-- The bytes of a record: the mark of use, the number of the kind, and the rest. -/
theorem encode_eq (e : Entry) : e.encode =
    (if e.inUse then 1 else 0) :: (if e.kind = .directory then 1 else 0) :: 0 :: 0 :: 0 ::
      (e.field.bytes ++ e.link.encode) := by
  unfold encode Record.ofBool
  cases e.kind <;> rfl

/-- The mark of use and the kind aside, a record can have any bytes. -/
theorem exists_encode (inUse : Bool) (kind : Kind) {rest : Bytes}
    (h : rest.length = Layout.nameMax + 1 + 4) :
    ∃ e : Entry, e.encode =
      (if inUse then 1 else 0) :: (if kind = .directory then 1 else 0) :: 0 :: 0 :: 0 :: rest := by
  have hfield : (rest.take (Layout.nameMax + 1)).length = Layout.nameMax + 1 := by
    rw [List.length_take, h]
    rfl
  have hlink : ∃ l : Link, l.encode = rest.drop (Layout.nameMax + 1) := by
    have hlen : (rest.drop (Layout.nameMax + 1)).length = 4 := by
      rw [List.length_drop, h]
      rfl
    match rest.drop (Layout.nameMax + 1), hlen with
    | [a, b, c, d], _ => exact ⟨⟨_⟩, Bytes.ofWord_of_bytes a b c d⟩
  obtain ⟨l, hl⟩ := hlink
  refine ⟨⟨inUse, kind, ⟨_, hfield⟩, l⟩, ?_⟩
  rw [encode_eq]
  dsimp only
  rw [hl, List.take_append_drop]

/-- **A torn record can be read**: its front is that of the new record, and the rest is old. -/
theorem exists_torn (e e' : Entry) (n : Nat) :
    ∃ e'' : Entry, e''.encode = Bytes.splice e.encode 0 (e'.encode.take n) := by
  have hlen : e'.encode.length = e.encode.length := by
    rw [length_encode, length_encode]
  have hrest : ∀ e : Entry, (e.field.bytes ++ e.link.encode).length = Layout.nameMax + 1 + 4 :=
    fun e => by rw [List.length_append, e.field.length_eq]; rfl
  rw [Bytes.splice_torn hlen]
  match n with
  | 0 => exact ⟨e, rfl⟩
  | 1 =>
    refine ⟨{ e with inUse := e'.inUse }, ?_⟩
    rw [encode_eq, encode_eq e, encode_eq e']
    rfl
  | n + 2 =>
    -- the kinds differ in one byte, so the number of the kind is not torn
    have hlen : ((e'.field.bytes ++ e'.link.encode).take (n - 3) ++
        (e.field.bytes ++ e.link.encode).drop (n - 3)).length = Layout.nameMax + 1 + 4 := by
      rw [List.length_append, List.length_take, List.length_drop, hrest, hrest]
      omega
    obtain ⟨e'', he⟩ := exists_encode e'.inUse e'.kind hlen
    refine ⟨e'', ?_⟩
    rw [he, encode_eq e, encode_eq e']
    match n with
    | 0 | 1 | 2 => rfl
    | n + 3 => rfl

/-- Taken out of use, a record is torn only as a whole. -/
theorem torn_unused {e e'' : Entry} {n : Nat}
    (h : e''.encode = Bytes.splice e.encode 0 (({ e with inUse := false } : Entry).encode.take n)) :
    e'' = if n = 0 then e else { e with inUse := false } := by
  apply encode_injective
  rw [h, Bytes.splice_torn (by rw [length_encode, length_encode])]
  cases n with
  | zero => rfl
  | succ n =>
    rw [if_neg (Nat.succ_ne_zero n), encode_eq e, encode_eq { e with inUse := false },
      List.take_succ_cons, List.drop_succ_cons, List.cons_append, List.take_append_drop]

end Entry

/-! ## Torn tables -/

namespace Directory

variable {dir : Directory} {content : Bytes} {i : Nat} {e : Entry}

/-- The table with the entry in slot `i` no longer in use. -/
def erased (dir : Directory) (i : Nat) : Directory :=
  ⟨dir.slots.modify i fun e => { e with inUse := false }⟩

theorem erased_eq (h : dir.slots[i]? = some e) :
    dir.erased i = ⟨dir.slots.set i { e with inUse := false }⟩ := by
  unfold erased
  rw [List.modify_eq_set_getElem?, h]
  rfl

/-- A table with a new record in one slot: the records before it, the new one, those behind. -/
theorem encode_set (h : dir.slots[i]? = some e) : ∃ front back : Bytes,
    front.length = i * Layout.entrySize ∧ dir.encode = front ++ e.encode ++ back ∧
      ∀ e', (⟨dir.slots.set i e'⟩ : Directory).encode = front ++ e'.encode ++ back := by
  obtain ⟨hlt, hget⟩ := List.getElem?_eq_some_iff.mp h
  have hset : ∀ e', (⟨dir.slots.set i e'⟩ : Directory).encode =
      (dir.slots.take i).flatMap Entry.encode ++ e'.encode ++
        (dir.slots.drop (i + 1)).flatMap Entry.encode := fun e' => by
    unfold encode
    rw [List.set_eq_take_append_cons_drop, if_pos hlt, List.flatMap_append, List.flatMap_cons,
      List.append_assoc]
  refine ⟨_, _, ?_, ?_, hset⟩
  · have := length_encode ⟨dir.slots.take i⟩
    unfold encode at this
    rw [this, List.length_take_of_le (Nat.le_of_lt hlt)]
  · rw [← hset e, ← hget, List.set_getElem_self]

namespace IsIn

theorem length_slots (h : dir.IsIn content) : dir.slots.length = Layout.directorySlots :=
  (isIn_iff.mp h).1

theorem unique {dir' : Directory} (h : dir.IsIn content) (h' : dir'.IsIn content) : dir = dir' := by
  unfold IsIn at h h'
  rw [h] at h'
  cases dir
  cases dir'
  cases h'
  rfl

/-- **A torn table** has some entry in the edited slot, and its other slots are as they were. -/
theorem torn (h : dir.IsIn content) (hi : dir.slots[i]? = some e) (e' : Entry) (n : Nat) :
    ∃ e'', (⟨dir.slots.set i e''⟩ : Directory).IsIn
        (content.torn (⟨dir.slots.set i e'⟩ : Directory).encode n) ∧
      e''.encode = Bytes.splice e.encode 0
        (e'.encode.take (min n content.length - i * Layout.entrySize)) := by
  obtain ⟨hlen, hencode⟩ := isIn_iff.mp h
  obtain ⟨front, back, hfront, hold, hset⟩ := encode_set hi
  obtain ⟨e'', he⟩ := e.exists_torn e' (min n content.length - i * Layout.entrySize)
  refine ⟨e'', isIn_iff.mpr ⟨by rw [List.length_set, hlen], ?_⟩, he⟩
  rw [Bytes.fit_torn, ← hencode, hset, hset, hold, Bytes.splice_middle, he, hfront]
  · rw [Entry.length_encode, Entry.length_encode]
  · rw [length_encode, List.length_set, hlen]
    exact Nat.le_refl _

/-- **A table that is written over itself** stays, torn or not. -/
theorem rewrite (h : dir.IsIn content) (n : Nat) : content.torn dir.encode n = content := by
  unfold Bytes.torn
  rw [(isIn_iff.mp h).2, Bytes.take_fit, List.take_take, Bytes.splice_take]

/-- An entry in use starts inside the file. -/
theorem lt_length (h : dir.IsIn content) (hi : dir.slots[i]? = some e) (he : e.inUse = true) :
    i * Layout.entrySize < content.length := by
  obtain ⟨front, back, hfront, hold, -⟩ := encode_set hi
  by_contra hout
  have hbyte : dir.encode[i * Layout.entrySize]? = some 1 := by
    rw [hold, List.append_assoc, ← hfront, List.getElem?_append_right (Nat.le_refl _),
      Nat.sub_self, Entry.encode_eq, he]
    rfl
  obtain ⟨hlt, -⟩ := List.getElem?_eq_some_iff.mp hbyte
  rw [(isIn_iff.mp h).2, Bytes.length_fit] at hlt
  rw [(isIn_iff.mp h).2, Bytes.getElem?_fit hlt,
    List.getElem?_eq_none (Nat.not_lt.mp hout)] at hbyte
  exact absurd hbyte (by decide)

/-- **An erasure** is complete when it is not torn, and all or nothing when it is. -/
theorem torn_erased (h : dir.IsIn content) (hi : dir.slots[i]? = some e) (he : e.inUse = true) :
    (dir.erased i).IsIn (content.torn (dir.erased i).encode content.length) ∧
      ∀ n, dir.IsIn (content.torn (dir.erased i).encode n) ∨
        (dir.erased i).IsIn (content.torn (dir.erased i).encode n) := by
  have hlt := h.lt_length hi he
  have hcases : ∀ n, ∃ dir' : Directory, dir'.IsIn (content.torn (dir.erased i).encode n) ∧
      dir' = if min n content.length - i * Layout.entrySize = 0 then dir else dir.erased i := by
    intro n
    obtain ⟨e'', hin, htorn⟩ := h.torn hi { e with inUse := false } n
    rw [← erased_eq hi] at hin
    refine ⟨_, hin, ?_⟩
    rw [Entry.torn_unused htorn]
    split
    · obtain ⟨hlt, hget⟩ := List.getElem?_eq_some_iff.mp hi
      rw [← hget, List.set_getElem_self]
    · exact (erased_eq hi).symm
  constructor
  · obtain ⟨dir', hin, rfl⟩ := hcases content.length
    rwa [if_neg (by omega)] at hin
  · intro n
    obtain ⟨dir', hin, rfl⟩ := hcases n
    split at hin
    · exact .inl hin
    · exact .inr hin

end IsIn

end Directory

/-! ## Torn free maps -/

namespace Bits

theorem unpacked_append (a b : Bytes) : unpacked (a ++ b) = unpacked a ++ unpacked b :=
  List.flatMap_append

/-- Each bit of a torn file is new or old. -/
theorem getD_unpacked_torn {bytes new : Bytes} (h : new.length = bytes.length) (n i : Nat) :
    (unpacked (bytes.torn new n)).getD i false = (unpacked new).getD i false ∨
      (unpacked (bytes.torn new n)).getD i false = (unpacked bytes).getD i false := by
  have htorn : bytes.torn new n = new.take n ++ bytes.drop n := by
    unfold Bytes.torn
    rw [← h, List.take_length, Bytes.splice_torn h]
  have hlen : (unpacked (new.take n)).length = (unpacked (bytes.take n)).length := by
    rw [length_unpacked, length_unpacked, List.length_take, List.length_take, h]
  simp only [List.getD_eq_getElem?_getD]
  rw [htorn, unpacked_append]
  by_cases hi : i < (unpacked (new.take n)).length
  · left
    rw [List.getElem?_append_left hi]
    conv_rhs => rw [← List.take_append_drop n new, unpacked_append, List.getElem?_append_left hi]
  · right
    rw [List.getElem?_append_right (Nat.not_lt.mp hi), hlen]
    conv_rhs => rw [← List.take_append_drop n bytes, unpacked_append,
      List.getElem?_append_right (hlen ▸ Nat.not_lt.mp hi)]

end Bits

/-- **Each mark of a torn map** is new or old. -/
theorem FreeMap.isUsed_torn (size : Nat) {bytes new : Bytes} (h : new.length = bytes.length)
    (n s : Nat) :
    (ofBytes size (bytes.torn new n)).isUsed s = (ofBytes size new).isUsed s ∨
      (ofBytes size (bytes.torn new n)).isUsed s = (ofBytes size bytes).isUsed s := by
  unfold isUsed ofBytes
  dsimp only
  rw [Marks.contains_ofBits, Marks.contains_ofBits, Marks.contains_ofBits]
  exact (Bits.getD_unpacked_torn h n s).imp (congrArg _) (congrArg _)

/-- **A free map is stored**, or fails to be with each mark new or old. -/
theorem Disk.storeMap_survives {F : Faults} {k : Disk} {p : Place} {content : Bytes} {f : Handle}
    (h : k.HasFile p content) (hk : 0 < k.dataSize) (hf : f.header = p.header)
    (hp : p.sector ∉ p.chain) {m : FreeMap} (hlen : content.length = Layout.freeMapSize m.size)
    (hstored : m.stored = Layout.freeMapSize m.size) :
    Survives F (m.store f) k
      (fun _ k' => k.Keeps k' (· ∉ p.chain) ∧ ∃ content', k'.HasFile p content' ∧
        content'.length = Layout.freeMapSize m.size ∧
        ∀ s, (FreeMap.ofBytes m.size content').isUsed s = m.isUsed s)
      (fun e k' => F.Injects e ∧ k.Keeps k' (· ∉ p.chain) ∧ ∃ content', k'.HasFile p content' ∧
        content'.length = Layout.freeMapSize m.size ∧
        ∀ s, (FreeMap.ofBytes m.size content').isUsed s = m.isUsed s ∨
          (FreeMap.ofBytes m.size content').isUsed s =
            (FreeMap.ofBytes m.size content).isUsed s) := by
  have hcount : min m.stored f.length = Layout.freeMapSize m.size := by
    unfold Handle.length
    rw [hf, ← h.length_content hk, hlen, hstored, Nat.min_self]
  have hsame : (m.firstBytes (Layout.freeMapSize m.size)).length = content.length := by
    rw [FreeMap.length_firstBytes, hlen]
  have hnew := FreeMap.isUsed_stored (m := m) (hstored ▸ m.size_le)
  unfold FreeMap.store
  rw [hcount]
  refine (h.overwrite_survives hk hf hp _).mono ?_ ?_
  · rintro - k' ⟨hkeep, hfile⟩
    rw [← hsame, List.take_length, Bytes.splice_of_length hsame] at hfile
    exact ⟨hkeep, _, hfile, hsame.trans hlen, hnew⟩
  · rintro e k' ⟨he, hkeep, n, hfile⟩
    refine ⟨he, hkeep, _, hfile, ?_, fun s => ?_⟩
    · rw [← hlen]
      refine Bytes.length_splice ?_
      rw [List.length_take, List.length_take]
      omega
    · rw [← hnew s]
      exact FreeMap.isUsed_torn m.size hsame n s

end SectorChain
