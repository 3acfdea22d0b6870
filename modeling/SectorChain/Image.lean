import SectorChain.Bytes
import SectorChain.Sparse

/-!
# Images

An image is the content of a disk image file. Zeros at its end are not kept, so an image that was
only made longer takes no more room than before. An open file (`ImageFile`) is an image and a
cursor: every access begins at the cursor and moves it on.

Results:
* `get?_write`: writing changes the bytes it covers, makes the image long enough for them, and
  changes no other byte.
* `get?_resize`: resizing keeps the bytes that there is still room for; new ones are zeros.
-/

namespace SectorChain

/-- A string of `size` bytes: `bytes`, and zeros behind them. -/
structure Image where
  bytes : Array UInt8
  size : Nat
  size_le : bytes.size ≤ size
  deriving DecidableEq

namespace Image

/-- An image of the given bytes. -/
def ofBytes (bytes : Array UInt8) : Image := ⟨bytes, bytes.size, Nat.le_refl _⟩

/-- An image without a byte. -/
def empty : Image := ofBytes #[]

/-- All bytes of the image. -/
def toBytes (img : Image) : Array UInt8 := Sparse.extend img.bytes 0 img.size

/-- The byte at an index. -/
def get? (img : Image) (i : Nat) : Option UInt8 :=
  if i < img.size then some (img.bytes.getD i 0) else none

/-- The `count` bytes from `pos` on; nothing if the image ends before the last of them. -/
def read? (img : Image) (pos count : Nat) : Option Bytes :=
  if pos + count ≤ img.size then
    some (Bytes.pad count (img.bytes.extract pos (pos + count)).toList)
  else none

/-- The image cut to `size` bytes, or made longer by zeros. -/
def resize (img : Image) (size : Nat) : Image where
  bytes := if size < img.bytes.size then img.bytes.extract 0 size else img.bytes
  size := size
  size_le := by
    split
    · rw [Array.size_extract]
      omega
    · omega

/-- The bytes with those from `pos` on replaced by `new`, as far as there are any. -/
def overwrite (bytes : Array UInt8) (pos : Nat) : Bytes → Array UInt8
  | [] => bytes
  | b :: rest => overwrite (bytes.setIfInBounds pos b) (pos + 1) rest

@[simp] theorem size_overwrite (bytes : Array UInt8) (pos : Nat) (new : Bytes) :
    (overwrite bytes pos new).size = bytes.size := by
  induction new generalizing bytes pos with
  | nil => rfl
  | cons b rest ih => rw [overwrite, ih, Array.size_setIfInBounds]

theorem getElem?_overwrite (bytes : Array UInt8) (pos : Nat) (new : Bytes) (i : Nat) :
    (overwrite bytes pos new)[i]? =
      if pos ≤ i ∧ i < pos + new.length ∧ i < bytes.size then new[i - pos]? else bytes[i]? := by
  induction new generalizing bytes pos with
  | nil =>
    rw [overwrite, if_neg]
    rintro ⟨h1, h2, -⟩
    simp only [List.length_nil] at h2
    omega
  | cons b rest ih =>
    rw [overwrite, ih, Array.size_setIfInBounds, Array.getElem?_setIfInBounds]
    simp only [List.length_cons]
    by_cases hp : pos = i
    · subst hp
      rw [if_neg (by omega), if_pos rfl]
      by_cases hs : pos < bytes.size
      · rw [if_pos hs, if_pos (by omega), Nat.sub_self]
        rfl
      · rw [if_neg hs, if_neg (by omega), Array.getElem?_eq_none (by omega)]
    · rw [if_neg hp]
      by_cases hin : pos ≤ i ∧ i < pos + (rest.length + 1) ∧ i < bytes.size
      · rw [if_pos (by omega), if_pos hin]
        obtain ⟨j, hj⟩ : ∃ j, i - pos = j + 1 := ⟨i - pos - 1, by omega⟩
        rw [hj, show i - (pos + 1) = j by omega]
        rfl
      · rw [if_neg (by omega), if_neg hin]

/-- The image with the bytes from `pos` on replaced by `new`; one that ends before them grows. -/
def write (img : Image) (pos : Nat) (new : Bytes) : Image where
  bytes := overwrite (Sparse.extend img.bytes 0 (pos + new.length)) pos new
  size := max img.size (pos + new.length)
  size_le := by
    have := img.size_le
    rw [size_overwrite, Sparse.size_extend]
    omega

@[simp] theorem size_resize (img : Image) (size : Nat) : (img.resize size).size = size := rfl

@[simp] theorem size_write (img : Image) (pos : Nat) (new : Bytes) :
    (img.write pos new).size = max img.size (pos + new.length) := rfl

theorem getD_resize {img : Image} {size i : Nat} (h : i < size) :
    (img.resize size).bytes.getD i 0 = img.bytes.getD i 0 := by
  show (if size < img.bytes.size then img.bytes.extract 0 size else img.bytes).getD i 0 = _
  split
  · rw [Array.getD_eq_getD_getElem?, Array.getElem?_extract, if_pos (by omega), Nat.zero_add,
      Array.getD_eq_getD_getElem?]
  · rfl

theorem get?_resize (img : Image) (size i : Nat) :
    (img.resize size).get? i = if i < size then some ((img.get? i).getD 0) else none := by
  have hle := img.size_le
  rw [get?, size_resize]
  by_cases hi : i < size
  · rw [if_pos hi, if_pos hi, getD_resize hi, get?]
    by_cases his : i < img.size
    · rw [if_pos his, Option.getD_some]
    · rw [if_neg his, Option.getD_none, Array.getD_eq_getD_getElem?,
        Array.getElem?_eq_none (by omega), Option.getD_none]
  · rw [if_neg hi, if_neg hi]

theorem get?_write (img : Image) (pos : Nat) (new : Bytes) (i : Nat) :
    (img.write pos new).get? i =
      if pos ≤ i ∧ i < pos + new.length then new[i - pos]?
      else if i < max img.size (pos + new.length) then some ((img.get? i).getD 0) else none := by
  have hle := img.size_le
  simp only [get?, write, Array.getD_eq_getD_getElem?, getElem?_overwrite, Sparse.size_extend]
  by_cases hin : pos ≤ i ∧ i < pos + new.length
  · rw [if_pos (by omega), if_pos (by omega), if_pos hin,
      List.getElem?_eq_getElem (show i - pos < new.length by omega), Option.getD_some]
  · rw [if_neg (show ¬(pos ≤ i ∧ i < pos + new.length ∧ _) by omega), if_neg hin,
      ← Array.getD_eq_getD_getElem?, Sparse.getD_extend]
    by_cases his : i < img.size
    · rw [if_pos his, Option.getD_some, Array.getD_eq_getD_getElem?]
    · rw [if_neg his, Option.getD_none, Array.getD_eq_getD_getElem?,
        Array.getElem?_eq_none (by omega), Option.getD_none]

end Image

/-! ## Open files -/

/-- An image file that is open, with the place of its cursor. -/
structure ImageFile where
  image : Image
  cursor : Nat

namespace ImageFile

/-- `seek`: the cursor goes to an offset from the start, which may be behind the end. -/
def seek (f : ImageFile) (pos : Nat) : ImageFile := { f with cursor := pos }

/-- `read_exact`: the next `count` bytes. If the file ends before the last of them there are none,
and the cursor is at the end. -/
def readExact (f : ImageFile) (count : Nat) : Option Bytes × ImageFile :=
  match f.image.read? f.cursor count with
  | some bytes => (some bytes, { f with cursor := f.cursor + count })
  | none => (none, { f with cursor := max f.cursor f.image.size })

/-- `write_all`: the next bytes are replaced; a file that ends before the last of them grows. -/
def writeAll (f : ImageFile) (new : Bytes) : ImageFile :=
  ⟨f.image.write f.cursor new, f.cursor + new.length⟩

end ImageFile

end SectorChain
