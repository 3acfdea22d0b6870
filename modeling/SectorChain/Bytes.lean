/-!
# Byte strings

Sectors, records and file contents are lists of bytes. A 32-bit word is stored with its lowest
byte first.

Results:
* `length_fit`: a fitted string has exactly the length asked for.
* `length_splice`: replacing bytes inside a string keeps its length.
* `getElem?_splice`: it changes the bytes that it covers, and no others.
* `word?_eq_some_iff`: a word is read exactly from its own four bytes, whatever follows them.
-/

namespace SectorChain

/-- A string of bytes. -/
abbrev Bytes := List UInt8

namespace Bytes

/-- `n` zero bytes. -/
def zeros (n : Nat) : Bytes := List.replicate n 0

/-- The bytes, with zeros behind them where there are fewer than `n`. -/
def pad (n : Nat) (bytes : Bytes) : Bytes :=
  if bytes.length < n then bytes ++ zeros (n - bytes.length) else bytes

/-- The first `n` bytes, with zeros behind them where there are fewer. -/
def fit (n : Nat) (bytes : Bytes) : Bytes := pad n (bytes.take n)

/-- The string with the bytes from `pos` on replaced by `new`. -/
def splice (bytes : Bytes) (pos : Nat) (new : Bytes) : Bytes :=
  bytes.take pos ++ new ++ bytes.drop (pos + new.length)

@[simp] theorem length_zeros (n : Nat) : (zeros n).length = n := List.length_replicate

@[simp] theorem length_pad (n : Nat) (bytes : Bytes) :
    (pad n bytes).length = max bytes.length n := by
  unfold pad
  split
  · rw [List.length_append, length_zeros]
    omega
  · omega

/-- A string that is long enough needs no zeros. -/
theorem pad_of_le {n : Nat} {bytes : Bytes} (h : n ≤ bytes.length) : pad n bytes = bytes :=
  if_neg (Nat.not_lt.mpr h)

@[simp] theorem length_fit (n : Nat) (bytes : Bytes) : (fit n bytes).length = n := by
  rw [fit, length_pad, List.length_take]
  omega

/-- A string of the right length fits as it is. -/
theorem fit_of_length {n : Nat} {bytes : Bytes} (h : bytes.length = n) : fit n bytes = bytes := by
  subst h
  rw [fit, List.take_length, pad_of_le (Nat.le_refl _)]

theorem length_splice {bytes new : Bytes} {pos : Nat} (h : pos + new.length ≤ bytes.length) :
    (splice bytes pos new).length = bytes.length := by
  simp only [splice, List.length_append, List.length_take, List.length_drop]
  omega

/-- A string that is replaced in part: the new bytes at their places, the old ones at all others. -/
theorem getElem?_splice {bytes : Bytes} {pos : Nat} (h : pos ≤ bytes.length) (new : Bytes)
    (i : Nat) :
    (splice bytes pos new)[i]? =
      if pos ≤ i ∧ i < pos + new.length then new[i - pos]? else bytes[i]? := by
  have hlen : (bytes.take pos).length = pos := List.length_take_of_le h
  unfold splice
  by_cases hpos : i < pos
  · rw [if_neg (by omega), List.append_assoc, List.getElem?_append_left (hlen.symm ▸ hpos),
      List.getElem?_take_of_lt hpos]
  · by_cases hnew : i < pos + new.length
    · rw [if_pos (by omega), List.append_assoc, List.getElem?_append_right (by omega), hlen,
        List.getElem?_append_left (by omega)]
    · rw [if_neg (by omega), List.getElem?_append_right (by rw [List.length_append]; omega),
        List.getElem?_drop, List.length_append, hlen]
      congr 1
      omega

theorem getElem?_fit {n i : Nat} {bytes : Bytes} (h : i < n) :
    (fit n bytes)[i]? = some (bytes[i]?.getD 0) := by
  unfold fit pad
  by_cases hi : i < bytes.length
  · have htake : i < (bytes.take n).length := by
      rw [List.length_take]
      omega
    have hget : (bytes.take n)[i]? = some bytes[i] := by
      rw [List.getElem?_take_of_lt h, List.getElem?_eq_getElem hi]
    split
    · rw [List.getElem?_append_left htake, hget, List.getElem?_eq_getElem hi, Option.getD_some]
    · rw [hget, List.getElem?_eq_getElem hi, Option.getD_some]
  · have htake : (bytes.take n).length = bytes.length := by
      rw [List.length_take]
      omega
    rw [if_pos (by omega), List.getElem?_append_right (by omega), zeros, List.getElem?_replicate,
      if_pos (by omega), List.getElem?_eq_none (Nat.not_lt.mp hi), Option.getD_none]

/-! ## Words -/

/-- The four bytes of a word, lowest first. -/
def ofWord (w : UInt32) : Bytes :=
  [UInt8.ofNat w.toNat, UInt8.ofNat (w.toNat / 0x100), UInt8.ofNat (w.toNat / 0x10000),
    UInt8.ofNat (w.toNat / 0x1000000)]

/-- The word that starts the string, and what follows it. -/
def word? : Bytes → Option (UInt32 × Bytes)
  | a :: b :: c :: d :: rest =>
    some (UInt32.ofNat (a.toNat + 0x100 * b.toNat + 0x10000 * c.toNat + 0x1000000 * d.toNat), rest)
  | _ => none

@[simp] theorem length_ofWord (w : UInt32) : (ofWord w).length = 4 := rfl

theorem word?_append (w : UInt32) (rest : Bytes) : word? (ofWord w ++ rest) = some (w, rest) := by
  have h : w.toNat < 2 ^ 32 := w.toNat_lt
  simp only [ofWord, word?, List.cons_append, List.nil_append, Option.some.injEq, Prod.mk.injEq,
    and_true]
  apply UInt32.toNat_inj.mp
  simp only [UInt8.toNat_ofNat', UInt32.toNat_ofNat']
  omega

theorem ofWord_of_bytes (a b c d : UInt8) :
    ofWord (UInt32.ofNat
      (a.toNat + 0x100 * b.toNat + 0x10000 * c.toNat + 0x1000000 * d.toNat)) = [a, b, c, d] := by
  have ha := a.toNat_lt
  have hb := b.toNat_lt
  have hc := c.toNat_lt
  have hd := d.toNat_lt
  simp only [ofWord, UInt32.toNat_ofNat', List.cons.injEq, and_true]
  refine ⟨?_, ?_, ?_, ?_⟩ <;> apply UInt8.toNat_inj.mp <;>
    simp only [UInt8.toNat_ofNat'] <;> omega

theorem word?_eq_some_iff {bytes rest : Bytes} {w : UInt32} :
    word? bytes = some (w, rest) ↔ bytes = ofWord w ++ rest := by
  constructor
  · intro h
    match bytes, h with
    | a :: b :: c :: d :: rest', h =>
      simp only [word?, Option.some.injEq, Prod.mk.injEq] at h
      obtain ⟨rfl, rfl⟩ := h
      rw [ofWord_of_bytes]
      rfl
  · rintro rfl
    exact word?_append w rest

/-- The number a word stands for when its highest bit is a sign. -/
def signed (w : UInt32) : Int :=
  if w.toNat < 0x80000000 then w.toNat else w.toNat - 0x100000000

/-! ## Readable text -/

/-- A byte as a backslash and its hexadecimal digits, without leading zeros. -/
def escape (b : UInt8) : List Char := '\\' :: Nat.toDigits 16 b.toNat

/-- Letters, digits, punctuation marks and the space. -/
def isPlain (b : UInt8) : Bool := 0x20 ≤ b && b ≤ 0x7e

/-- The bytes as text: each byte that `keep` accepts as its character, all others escaped. -/
def escaped (keep : UInt8 → Bool) (bytes : Bytes) : String :=
  String.ofList (bytes.flatMap fun b => if keep b then [Char.ofNat b.toNat] else escape b)

/-- `printable`: the bytes as a text of lines. Plain bytes and line feeds stand for themselves. -/
def printable : Bytes → String := escaped fun b => isPlain b || b == 10

/-- The UTF-8 bytes of a text. -/
def ofString (s : String) : Bytes := s.toUTF8.data.toList

/-- The text whose UTF-8 bytes these are. -/
def toString? (bytes : Bytes) : Option String := String.fromUTF8? ⟨bytes.toArray⟩

end Bytes

end SectorChain
