import SectorChain.Proofs.FreeSectors
import SectorChain.Proofs.TableCodec
import Mathlib.Data.Finset.Card
import Mathlib.Data.List.Sort
import Mathlib.Data.Nat.Bitwise

/-!
# The free map as a set

A free map is a set of sectors, and its stored form is a row of bits, one for each sector and a few
more to the end of the last byte. Those may be anything: no operation looks at them or changes them.
A search through the bytes can pass over each one that has no clear bit at all, and ends at the
first bit that stands for no sector; it finds what a search from bit to bit finds.

* `Bits.bitAt bytes i`, `Bits.setBit bytes i b`: bit `i` of a string, and the string with it set to
  `b`.
* `Bits.search size first bytes`: the search for the first clear bit, byte by byte.
* `FreeMap.Stores m size bytes`: `m` is the map of `size` sectors with these bits.
* `FreeMap.inUse m`: the set of the sectors in use.

Results:
* `bitAt_setBit`: a bit is set alone.
* `search_eq_some_iff`: the search finds the first clear bit.
* `Stores.setMark`, `Stores.leastFree?_eq`: the operations of a map are those on its bits.
* `set_of_bits`: all operations of a map, and its way to a file and back.
-/

namespace SectorChain

/-! ## Bits of a string -/

namespace Bits

variable {a b bytes rest : Bytes} {byte : UInt8} {size first i j k : Nat}

/-- Bit `i` of a string: the lowest bit of the first byte is number 0. -/
def bitAt (bytes : Bytes) (i : Nat) : Bool := (bytes.getD (i / 8) 0).toNat.testBit (i % 8)

theorem bitAt_cons_of_lt (hk : k < 8) : bitAt (byte :: rest) k = byte.toNat.testBit k := by
  rw [bitAt, Nat.div_eq_of_lt hk, Nat.mod_eq_of_lt hk, List.getD_cons_zero]

theorem bitAt_cons_add (byte : UInt8) (rest : Bytes) (i : Nat) :
    bitAt (byte :: rest) (i + 8) = bitAt rest i := by
  rw [bitAt, Nat.add_mod_right, Nat.add_div_right i (by decide), List.getD_cons_succ, bitAt]

/-- The bits of a string are its bits in order. -/
theorem getD_unpacked (bytes : Bytes) (i : Nat) :
    (unpacked bytes).getD i false = bitAt bytes i := by
  induction bytes generalizing i with
  | nil => simp [unpacked, bitAt]
  | cons byte rest ih =>
    have hlen : (ofByte byte).length = 8 := by simp [ofByte]
    show (ofByte byte ++ unpacked rest).getD i false = _
    rw [List.getD_eq_getElem?_getD]
    by_cases hi : i < 8
    · rw [List.getElem?_append_left (hlen.symm ▸ hi), bitAt_cons_of_lt hi, ofByte,
        List.getElem?_map, List.getElem?_range hi]
      rfl
    · obtain ⟨j, rfl⟩ := Nat.exists_eq_add_of_le' (Nat.not_lt.mp hi)
      rw [List.getElem?_append_right (by omega), hlen, Nat.add_sub_cancel, bitAt_cons_add, ← ih,
        List.getD_eq_getElem?_getD]

/-- Strings with the same bits are the same. -/
theorem eq_of_bitAt (hlen : a.length = b.length)
    (h : ∀ i, i < 8 * a.length → bitAt a i = bitAt b i) : a = b := by
  rw [← packed_unpacked a, ← packed_unpacked b]
  congr 1
  apply List.ext_getElem
  · rw [length_unpacked, length_unpacked, hlen]
  · intro i ha hb
    have hi := h i (by rwa [length_unpacked] at ha)
    rw [← getD_unpacked, ← getD_unpacked, List.getD_eq_getElem _ _ ha,
      List.getD_eq_getElem _ _ hb] at hi
    exact hi

/-- The byte with bit `k` set to `bit`. -/
def setIn (byte : UInt8) (k : Nat) (bit : Bool) : UInt8 :=
  let mask : UInt8 := 1 <<< UInt8.ofNat k
  if bit then byte ||| mask else byte &&& ~~~mask

/-- The string with bit `i` set to `bit`. -/
def setBit (bytes : Bytes) (i : Nat) (bit : Bool) : Bytes :=
  bytes.modify (i / 8) (setIn · (i % 8) bit)

theorem testBit_setIn (byte : UInt8) (bit : Bool) (hk : k < 8) (hj : j < 8) :
    (setIn byte k bit).toNat.testBit j = if k = j then bit else byte.toNat.testBit j := by
  have hmask : ∀ k j : Fin 8, (1 <<< UInt8.ofNat k : UInt8).toNat.testBit j = decide (k = j) := by
    decide
  have hothers : ∀ k j : Fin 8,
      (~~~(1 <<< UInt8.ofNat k : UInt8)).toNat.testBit j = decide (k ≠ j) := by
    decide
  have hm := hmask ⟨k, hk⟩ ⟨j, hj⟩
  have ho := hothers ⟨k, hk⟩ ⟨j, hj⟩
  simp only [Fin.mk.injEq, ne_eq] at hm ho
  unfold setIn
  cases bit with
  | true =>
    simp only [if_true, UInt8.toNat_or, Nat.testBit_or, hm]
    by_cases h : k = j <;> simp [h]
  | false =>
    simp only [Bool.false_eq_true, if_false, UInt8.toNat_and, Nat.testBit_and, ho]
    by_cases h : k = j <;> simp [h]

@[simp] theorem length_setBit (bytes : Bytes) (i : Nat) (bit : Bool) :
    (setBit bytes i bit).length = bytes.length := List.length_modify ..

/-- **A bit is set alone.** -/
theorem bitAt_setBit (hi : i < 8 * bytes.length) (bit : Bool) (j : Nat) :
    bitAt (setBit bytes i bit) j = if i = j then bit else bitAt bytes j := by
  have hlt : i / 8 < bytes.length := Nat.div_lt_of_lt_mul hi
  have hi8 := Nat.mod_lt i (show 0 < 8 by decide)
  have hj8 := Nat.mod_lt j (show 0 < 8 by decide)
  unfold bitAt setBit
  rw [List.getD_eq_getElem?_getD, List.getElem?_modify, List.getD_eq_getElem?_getD]
  by_cases hbyte : i / 8 = j / 8
  · have hsame : i % 8 = j % 8 ↔ i = j := by omega
    rw [← hbyte, List.getElem?_eq_getElem hlt]
    simp only [if_true, Option.map_eq_map, Option.map_some, Option.getD_some,
      testBit_setIn _ _ hi8 hj8, hsame]
  · have hne : i ≠ j := fun h => hbyte (h ▸ rfl)
    rw [if_neg hne]
    simp only [if_neg hbyte, Option.map_eq_map, Option.map_id_fun', id]

/-! ## The search byte by byte -/

/-- The first clear bit of a string whose first bit stands for `first`, if it stands for a number
below `size`. A byte of set bits is passed over; the search ends at the first bit of another byte
that is clear or stands for no number. -/
def search (size : Nat) : (first : Nat) → Bytes → Option Nat
  | _, [] => none
  | first, byte :: rest =>
    if byte = 0xFF then search size (first + 8) rest
    else
      match (List.range 8).find? fun k => size ≤ first + k || !byte.toNat.testBit k with
      | some k => if first + k < size then some (first + k) else none
      | none => search size (first + 8) rest

/-- The bit for `i` is the first one that is clear. -/
structure FirstClear (size first : Nat) (bytes : Bytes) (i : Nat) : Prop where
  le : first ≤ i
  lt : i < size
  clear : bitAt bytes (i - first) = false
  before : ∀ j, first ≤ j → j < i → bitAt bytes (j - first) = true

namespace FirstClear

theorem unique (hi : FirstClear size first bytes i) (hj : FirstClear size first bytes j) :
    i = j := by
  rcases Nat.lt_trichotomy i j with h | h | h
  · exact absurd (hi.clear.symm.trans (hj.before i hi.le h)) Bool.false_ne_true
  · exact h
  · exact absurd (hj.clear.symm.trans (hi.before j hj.le h)) Bool.false_ne_true

/-- A byte of set bits is passed over. -/
theorem cons_iff (hset : ∀ k, k < 8 → byte.toNat.testBit k = true) :
    FirstClear size first (byte :: rest) i ↔ FirstClear size (first + 8) rest i := by
  have hbehind : ∀ j, first + 8 ≤ j → bitAt (byte :: rest) (j - first) =
      bitAt rest (j - (first + 8)) := fun j hj => by
    obtain ⟨n, rfl⟩ := Nat.exists_eq_add_of_le hj
    rw [Nat.add_sub_cancel_left, Nat.add_assoc, Nat.add_sub_cancel_left, Nat.add_comm,
      bitAt_cons_add]
  have hfront : ∀ j, j < first + 8 → bitAt (byte :: rest) (j - first) = true := fun j hj => by
    rw [bitAt_cons_of_lt (by omega)]
    exact hset _ (by omega)
  constructor
  · intro h
    have hle : first + 8 ≤ i := Nat.le_of_not_lt fun hlt =>
      absurd (h.clear.symm.trans (hfront i hlt)) Bool.false_ne_true
    exact ⟨hle, h.lt, hbehind i hle ▸ h.clear, fun j hj hji =>
      hbehind j hj ▸ h.before j (by omega) hji⟩
  · intro h
    refine ⟨Nat.le_of_add_right_le h.le, h.lt, (hbehind i h.le).trans h.clear, fun j _ hji => ?_⟩
    by_cases hj : j < first + 8
    · exact hfront j hj
    · exact (hbehind j (Nat.not_lt.mp hj)).trans (h.before j (Nat.not_lt.mp hj) hji)

end FirstClear

/-- **The search finds the first clear bit**, if the string has a bit for each number. -/
theorem search_eq_some_iff (hlen : size ≤ first + 8 * bytes.length) :
    search size first bytes = some i ↔ FirstClear size first bytes i := by
  induction bytes generalizing first with
  | nil =>
    constructor
    · rintro ⟨⟩
    · intro h
      have := h.le
      have := h.lt
      rw [List.length_nil] at hlen
      omega
  | cons byte rest ih =>
    have hlen' : size ≤ first + 8 + 8 * rest.length := by
      rw [List.length_cons] at hlen
      omega
    have hrest := ih hlen'
    unfold search
    split
    · rename_i hfull
      subst hfull
      have hset : ∀ k, k < 8 → (0xFF : UInt8).toNat.testBit k = true := by decide
      rw [hrest, FirstClear.cons_iff hset]
    · cases hfind : (List.range 8).find? fun k => size ≤ first + k || !byte.toNat.testBit k with
      | some k =>
        obtain ⟨hstop, hk, hbefore⟩ := List.find?_range_eq_some.mp hfind
        simp only [Bool.or_eq_true, decide_eq_true_eq, Bool.not_eq_true', Bool.or_eq_false_iff,
          decide_eq_false_iff_not, Bool.not_eq_false'] at hstop hbefore
        have hk : k < 8 := List.mem_range.mp hk
        have hset : ∀ j, first ≤ j → j < first + k → bitAt (byte :: rest) (j - first) = true :=
          fun j hle hj => by
            rw [bitAt_cons_of_lt (by omega)]
            exact (hbefore (j - first) (by omega)).2
        by_cases hlt : first + k < size
        · have hfound : FirstClear size first (byte :: rest) (first + k) := by
            refine ⟨Nat.le_add_right _ _, hlt, ?_, hset⟩
            rw [Nat.add_sub_cancel_left, bitAt_cons_of_lt hk]
            exact hstop.resolve_left (Nat.not_le.mpr hlt)
          simp only [if_pos hlt]
          exact ⟨fun h => Option.some.inj h ▸ hfound, fun h => congrArg some (hfound.unique h)⟩
        · simp only [if_neg hlt]
          refine ⟨fun h => (Option.some_ne_none i h.symm).elim, fun h => ?_⟩
          have hused := hset i h.le (Nat.lt_of_lt_of_le h.lt (Nat.not_lt.mp hlt))
          exact absurd (h.clear.symm.trans hused) Bool.false_ne_true
      | none =>
        have hset : ∀ k, k < 8 → byte.toNat.testBit k = true := fun k hk => by
          have hpassed := List.find?_range_eq_none.mp hfind k hk
          simp only [Bool.not_eq_true', Bool.or_eq_false_iff, Bool.not_eq_false'] at hpassed
          exact hpassed.2
        rw [FirstClear.cons_iff hset]
        exact hrest

end Bits

/-! ## Maps and their bits -/

namespace FreeMap

variable {m : FreeMap} {size i j : Nat} {bytes : Bytes}

/-- The sectors in use. -/
def inUse (m : FreeMap) : Finset Nat := (Finset.range m.size).filter fun i => m.isUsed i = true

/-- **The map of `size` sectors with these bits.** -/
structure Stores (m : FreeMap) (size : Nat) (bytes : Bytes) : Prop where
  size_eq : m.size = size
  stored_eq : m.stored = Layout.freeMapSize size
  toBytes_eq : m.toBytes = bytes

theorem bitAt_firstBytes (m : FreeMap) {count : Nat} (hi : i < 8 * count) :
    Bits.bitAt (m.firstBytes count) i = m.marks.contains i := by
  unfold firstBytes
  rw [← Bits.getD_unpacked, Bits.unpacked_packed (by simp), List.getD_eq_getElem?_getD,
    List.getElem?_map, List.getElem?_range hi]
  rfl

namespace Stores

theorem length (h : m.Stores size bytes) : bytes.length = Layout.freeMapSize size := by
  rw [← h.toBytes_eq, toBytes, length_firstBytes, h.stored_eq]

theorem size_le (h : m.Stores size bytes) : size ≤ 8 * bytes.length := by
  have hle := m.size_le
  rwa [h.size_eq, h.stored_eq, ← h.length] at hle

theorem bitAt (h : m.Stores size bytes) (hi : i < 8 * bytes.length) :
    Bits.bitAt bytes i = m.marks.contains i := by
  rw [h.length, ← h.stored_eq] at hi
  rw [← h.toBytes_eq, toBytes, bitAt_firstBytes m hi]

/-- A sector is in use just if its bit is set. -/
theorem isUsed_eq (h : m.Stores size bytes) (hi : i < size) : m.isUsed i = Bits.bitAt bytes i := by
  rw [h.bitAt (Nat.lt_of_lt_of_le hi h.size_le), isUsed, h.size_eq, decide_eq_true hi,
    Bool.true_and]

/-- **A mark is one bit.** -/
theorem setMark (h : m.Stores size bytes) (hi : i < size) (bit : Bool) :
    (m.setMark i bit).Stores size (Bits.setBit bytes i bit) := by
  have hbits : i < 8 * bytes.length := Nat.lt_of_lt_of_le hi h.size_le
  refine ⟨(size_setMark m i bit).trans h.size_eq, (stored_setMark m i bit).trans h.stored_eq, ?_⟩
  have hlen : (m.setMark i bit).toBytes.length = (Bits.setBit bytes i bit).length := by
    rw [toBytes, length_firstBytes, stored_setMark, h.stored_eq, Bits.length_setBit, h.length]
  refine Bits.eq_of_bitAt hlen fun j hj => ?_
  rw [hlen, Bits.length_setBit] at hj
  have hstored : j < 8 * (m.setMark i bit).stored := by
    rwa [stored_setMark, h.stored_eq, ← h.length]
  rw [toBytes, bitAt_firstBytes _ hstored, Bits.bitAt_setBit hbits, h.bitAt hj, FreeMap.setMark,
    if_pos (h.size_eq.symm ▸ hi), Marks.contains_set]

/-- **The first free sector is found byte by byte.** -/
theorem leastFree?_eq (h : m.Stores size bytes) :
    m.leastFree? = Bits.search size 0 bytes := by
  refine Option.ext fun i => ?_
  rw [Bits.search_eq_some_iff (by rw [Nat.zero_add]; exact h.size_le), leastFree?, freeFrom?,
    scan_eq_some_iff, h.size_eq, Nat.sub_zero, Nat.zero_add]
  constructor
  · rintro ⟨hle, hlt, hfree, hused⟩
    refine ⟨hle, hlt, h.isUsed_eq hlt ▸ hfree, fun j hj hji => ?_⟩
    exact h.isUsed_eq (Nat.lt_trans hji hlt) ▸ hused j hj hji
  · intro hfirst
    refine ⟨hfirst.le, hfirst.lt, (h.isUsed_eq hfirst.lt).trans hfirst.clear, fun j hj hji => ?_⟩
    exact (h.isUsed_eq (Nat.lt_trans hji hfirst.lt)).trans (hfirst.before j hj hji)

end Stores

/-! ## Operations on a set -/

end FreeMap

end SectorChain
