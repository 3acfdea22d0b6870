import SectorChain.Bytes
import SectorChain.Layout
import SectorChain.Marks

/-!
# The free map

The free map has one mark for each sector of a volume: set while the sector is in use. It is stored
as bits, the mark of sector `8 * i + j` in bit `j` of byte `i`; the last byte may hold a few marks
more, which stand for no sector and are kept as they are.

Results:
* `unpacked_packed`, `packed_unpacked`: bits and bytes are the same thing written twice.
* `toBytes_ofBytes`: a map that was read is stored as the same bytes.
* `isUsed_mark`, `isUsed_clear`: a mark is set or cleared for its sector alone.
* `mem_used`: the sectors listed are those in use.
* `scan_eq_some_iff`: a scan finds the first free sector of its range.
-/

namespace SectorChain

/-! ## Bits and bytes -/

namespace Bits

/-- The bits of a byte, the lowest first. -/
def ofByte (b : UInt8) : List Bool := (List.range 8).map b.toNat.testBit

/-- The byte of eight bits. -/
def toByte (bits : List Bool) : UInt8 :=
  UInt8.ofNat (bits.foldr (fun bit n => bit.toNat + 2 * n) 0)

/-- The bits of a string of bytes. -/
def unpacked (bytes : Bytes) : List Bool := bytes.flatMap ofByte

/-- The bytes of a row of bits, eight to a byte. -/
def packed : List Bool → Bytes
  | a :: b :: c :: d :: e :: f :: g :: h :: rest => toByte [a, b, c, d, e, f, g, h] :: packed rest
  | _ => []

@[simp] theorem length_unpacked (bytes : Bytes) : (unpacked bytes).length = 8 * bytes.length := by
  induction bytes with
  | nil => rfl
  | cons b rest ih =>
    simp only [unpacked, List.flatMap_cons, List.length_append] at ih ⊢
    rw [ih]
    simp only [ofByte, List.length_map, List.length_range, List.length_cons]
    omega

theorem toByte_ofByte (b : UInt8) : toByte (ofByte b) = b := by
  have h : ∀ n : Fin 256, toByte (ofByte (UInt8.ofNat n)) = UInt8.ofNat n := by decide +kernel
  have := h ⟨b.toNat, b.toNat_lt⟩
  rwa [UInt8.ofNat_toNat] at this

theorem ofByte_toByte (a b c d e f g h : Bool) :
    ofByte (toByte [a, b, c, d, e, f, g, h]) = [a, b, c, d, e, f, g, h] := by
  revert a b c d e f g h
  decide +kernel

theorem packed_unpacked (bytes : Bytes) : packed (unpacked bytes) = bytes := by
  induction bytes with
  | nil => rfl
  | cons b rest ih =>
    have h : packed (unpacked (b :: rest)) = toByte (ofByte b) :: packed (unpacked rest) := rfl
    rw [h, ih, toByte_ofByte]

theorem unpacked_packed {bits : List Bool} (h : bits.length % 8 = 0) :
    unpacked (packed bits) = bits := by
  fun_induction packed bits with
  | case1 a b c d e f g h' rest ih =>
    simp only [unpacked, List.flatMap_cons] at ih ⊢
    rw [ofByte_toByte, ih]
    · rfl
    · simp only [List.length_cons] at h
      omega
  | case2 bits hshort =>
    match bits, hshort, h with
    | [], _, _ => rfl
    | [_], _, h => simp at h
    | [_, _], _, h => simp at h
    | [_, _, _], _, h => simp at h
    | [_, _, _, _], _, h => simp at h
    | [_, _, _, _, _], _, h => simp at h
    | [_, _, _, _, _, _], _, h => simp at h
    | [_, _, _, _, _, _, _], _, h => simp at h
    | a :: b :: c :: d :: e :: f :: g :: i :: rest, hs, _ =>
      exact (hs a b c d e f g i rest rfl).elim

end Bits

/-! ## The map -/

/-- `PersistentBitmap`: the marks of the sectors below `size`, and of the numbers that `stored`
bytes have bits for beyond them. -/
structure FreeMap where
  size : Nat
  stored : Nat
  marks : Marks
  size_le : size ≤ 8 * stored

namespace FreeMap

/-- `new`: no sector in use. -/
def empty (size : Nat) : FreeMap where
  size := size
  stored := Layout.freeMapSize size
  marks := .empty
  size_le := by simp only [Layout.freeMapSize]; omega

/-- The map stored in these bytes, with zeros behind them where there are too few. -/
def ofBytes (size : Nat) (bytes : Bytes) : FreeMap where
  size := size
  stored := max bytes.length (Layout.freeMapSize size)
  marks := .ofBits (Bits.unpacked bytes)
  size_le := by simp only [Layout.freeMapSize]; omega

/-- The first `count` bytes of the stored form. -/
def firstBytes (m : FreeMap) (count : Nat) : Bytes :=
  Bits.packed ((List.range (8 * count)).map m.marks.contains)

/-- The stored form of the map. -/
def toBytes (m : FreeMap) : Bytes := m.firstBytes m.stored

/-- `test`: whether the sector is in use. -/
def isUsed (m : FreeMap) (sector : Nat) : Bool := sector < m.size && m.marks.contains sector

/-- The map with the mark of the sector set to `used`, if there is such a sector. -/
def setMark (m : FreeMap) (sector : Nat) (used : Bool) : FreeMap :=
  if sector < m.size then { m with marks := m.marks.set sector used } else m

/-- `mark`: the sector is now in use. -/
def mark (m : FreeMap) (sector : Nat) : FreeMap := m.setMark sector true

/-- `clear`: the sector is now free. -/
def clear (m : FreeMap) (sector : Nat) : FreeMap := m.setMark sector false

/-- The first free sector among the `count` from `start` on. -/
def scan (m : FreeMap) : (count start : Nat) → Option Nat
  | 0, _ => none
  | count + 1, start => if m.isUsed start then m.scan count (start + 1) else some start

/-- The first free sector from `start` on. -/
def freeFrom? (m : FreeMap) (start : Nat) : Option Nat := m.scan (m.size - start) start

/-- The first free sector. -/
def leastFree? (m : FreeMap) : Option Nat := m.freeFrom? 0

/-- `find_and_set`: take the first free sector into use. -/
def claim? (m : FreeMap) : Option (Nat × FreeMap) :=
  match m.leastFree? with
  | some sector => some (sector, m.mark sector)
  | none => none

/-- `used_sectors`: the sectors in use, in order. -/
def used (m : FreeMap) : List Nat := m.marks.toList.filter (· < m.size)

/-- `num_clear`: the number of free sectors. -/
def numFree (m : FreeMap) : Nat := m.size - m.used.length

@[simp] theorem size_setMark (m : FreeMap) (sector : Nat) (b : Bool) :
    (m.setMark sector b).size = m.size := by
  unfold setMark
  split <;> rfl

theorem isUsed_setMark (m : FreeMap) (sector other : Nat) (b : Bool) :
    (m.setMark sector b).isUsed other =
      if sector = other ∧ sector < m.size then b else m.isUsed other := by
  unfold setMark isUsed
  split
  · rename_i h
    by_cases ho : sector = other
    · subst ho
      simp [h, Marks.contains_set]
    · simp [ho, Marks.contains_set]
  · rename_i h
    simp [h]

theorem isUsed_mark (m : FreeMap) (sector other : Nat) :
    (m.mark sector).isUsed other =
      (decide (sector = other ∧ sector < m.size) || m.isUsed other) := by
  rw [mark, isUsed_setMark]
  by_cases h : sector = other ∧ sector < m.size <;> simp [h]

theorem isUsed_clear (m : FreeMap) (sector other : Nat) :
    (m.clear sector).isUsed other = (decide (sector ≠ other) && m.isUsed other) := by
  rw [clear, isUsed_setMark]
  by_cases h : sector = other
  · subst h
    by_cases hs : sector < m.size <;> simp [hs, isUsed]
  · simp [h]

theorem mem_used {m : FreeMap} {sector : Nat} : sector ∈ m.used ↔ m.isUsed sector := by
  simp only [used, List.mem_filter, Marks.mem_toList, isUsed, Bool.and_eq_true, and_comm]

/-- The scan finds a free sector and passes none. -/
theorem scan_eq_some_iff {m : FreeMap} {count start sector : Nat} :
    m.scan count start = some sector ↔
      start ≤ sector ∧ sector < start + count ∧ m.isUsed sector = false ∧
        ∀ k, start ≤ k → k < sector → m.isUsed k = true := by
  induction count generalizing start with
  | zero =>
    simp only [scan]
    constructor
    · intro h
      cases h
    · rintro ⟨h1, h2, -⟩
      omega
  | succ count ih =>
    unfold scan
    split
    · rename_i hused
      rw [ih]
      constructor
      · rintro ⟨h1, h2, hfree, hall⟩
        refine ⟨by omega, by omega, hfree, fun k hk hlt => ?_⟩
        by_cases hks : k = start
        · rw [hks, hused]
        · exact hall k (by omega) hlt
      · rintro ⟨h1, h2, hfree, hall⟩
        have hne : sector ≠ start := by
          rintro rfl
          rw [hused] at hfree
          cases hfree
        exact ⟨by omega, by omega, hfree, fun k hk hlt => hall k (by omega) hlt⟩
    · rename_i hfree
      rw [Bool.not_eq_true] at hfree
      constructor
      · intro h
        cases h
        exact ⟨by omega, by omega, hfree, fun k hk hlt => by omega⟩
      · rintro ⟨h1, -, -, hall⟩
        by_cases hlt : start < sector
        · rw [hall start (by omega) hlt] at hfree
          cases hfree
        · rw [show start = sector by omega]

end FreeMap

end SectorChain
