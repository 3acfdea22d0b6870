import SectorChain.Bytes
import SectorChain.Sparse

/-!
# Memories

A memory is one row of bytes, which are found by their offsets. It is kept in pages, and those
behind the last one that was written to take no room: they are zeros. Where the pages begin and end
does not show: `toBytes` is the row, of which `slice` copies a part and `patch` replaces one.

Results:
* `toBytes_blank`: a new memory is a row of zeros.
* `slice_eq`: a slice is the part of the row from its offset on.
* `toBytes_patch`: a patch replaces the bytes of the row from its offset on.
* `byte_patch`: the same, byte by byte.
-/

namespace SectorChain

namespace Memory

/-- The bytes of one page. -/
def pageSize : Nat := 64

/-- One page of a memory. -/
structure Page where
  bytes : Bytes
  length_eq : bytes.length = pageSize

/-- A page of zeros. -/
def Page.blank : Page := ⟨Bytes.zeros pageSize, Bytes.length_zeros pageSize⟩

/-- The page that a row of bytes begins with. -/
def Page.cut (row : Bytes) : Page := ⟨Bytes.fit pageSize row, Bytes.length_fit pageSize row⟩

end Memory

/-- A row of `size` bytes. -/
structure Memory where
  pages : Array Memory.Page
  size : Nat

namespace Memory

/-- A row of zeros. -/
def blank (size : Nat) : Memory := ⟨#[], size⟩

/-- The page with the bytes from `p * pageSize` on. -/
def page (m : Memory) (p : Nat) : Page := m.pages.getD p .blank

/-- The byte at an offset. -/
def byte (m : Memory) (i : Nat) : UInt8 := (m.page (i / pageSize)).bytes.getD (i % pageSize) 0

/-- All bytes, one after the other. -/
def toBytes (m : Memory) : Bytes := (List.range m.size).map m.byte

/-- The number of pages with some of the `count` bytes from `pos` on. -/
def pagesOf (pos count : Nat) : Nat := (pos % pageSize + count + (pageSize - 1)) / pageSize

/-- The bytes of `count` pages from page `p` on. -/
def span (m : Memory) (p : Nat) : Nat → Bytes
  | 0 => []
  | count + 1 => (m.page p).bytes ++ m.span (p + 1) count

/-- The pages, with those of a row of bytes from page `p` on. -/
def store (pages : Array Page) (p : Nat) (row : Bytes) : Nat → Array Page
  | 0 => pages
  | count + 1 => store (Sparse.put pages .blank p (.cut row)) (p + 1) (row.drop pageSize) count

/-- The `count` bytes from `pos` on. -/
def slice (m : Memory) (pos count : Nat) : Bytes :=
  ((m.span (pos / pageSize) (pagesOf pos count)).drop (pos % pageSize)).take count

/-- The memory with the bytes from `pos` on replaced by `new`. -/
def patch (m : Memory) (pos : Nat) (new : Bytes) : Memory :=
  let count := pagesOf pos new.length
  let row := (m.span (pos / pageSize) count).splice (pos % pageSize) new
  { m with pages := store m.pages (pos / pageSize) row count }

variable {m : Memory} {pos count p i : Nat} {new row : Bytes}

@[simp] theorem size_blank (size : Nat) : (blank size).size = size := rfl

@[simp] theorem size_patch (m : Memory) (pos : Nat) (new : Bytes) :
    (m.patch pos new).size = m.size := rfl

@[simp] theorem byte_blank (size i : Nat) : (blank size).byte i = 0 := by
  show (Bytes.zeros pageSize).getD (i % pageSize) 0 = 0
  rw [Bytes.zeros, List.getD_eq_getElem?_getD, List.getElem?_replicate]
  split <;> rfl

@[simp] theorem length_toBytes (m : Memory) : m.toBytes.length = m.size := by
  rw [toBytes, List.length_map, List.length_range]

theorem getElem?_toBytes (h : i < m.size) : m.toBytes[i]? = some (m.byte i) := by
  rw [toBytes, List.getElem?_map, List.getElem?_range h]
  rfl

/-- **A new memory** is a row of zeros. -/
theorem toBytes_blank (size : Nat) : (blank size).toBytes = Bytes.zeros size := by
  apply List.ext_getElem?
  intro i
  rw [Bytes.zeros, List.getElem?_replicate]
  split
  · rw [getElem?_toBytes ‹_›, byte_blank]
  · rw [List.getElem?_eq_none (by rw [length_toBytes, size_blank]; omega)]

/-! ## Pages -/

@[simp] theorem length_span (m : Memory) (p count : Nat) :
    (m.span p count).length = count * pageSize := by
  induction count generalizing p with
  | zero => rw [span, List.length_nil, Nat.zero_mul]
  | succ count ih =>
    rw [span, List.length_append, ih, (m.page p).length_eq, Nat.succ_mul, Nat.add_comm]

theorem getElem?_span (h : i < count * pageSize) :
    (m.span p count)[i]? = some (m.byte (p * pageSize + i)) := by
  induction count generalizing p i with
  | zero => omega
  | succ count ih =>
    have hlen := (m.page p).length_eq
    rw [span]
    by_cases hi : i < pageSize
    · have hdiv : (p * pageSize + i) / pageSize = p := by
        rw [Nat.mul_comm, Nat.mul_add_div (by decide), Nat.div_eq_of_lt hi, Nat.add_zero]
      have hmod : (p * pageSize + i) % pageSize = i := by
        rw [Nat.mul_comm, Nat.mul_add_mod, Nat.mod_eq_of_lt hi]
      have hi' : i < (m.page p).bytes.length := hlen.symm ▸ hi
      rw [List.getElem?_append_left hi', byte, hdiv, hmod, List.getD_eq_getElem?_getD,
        List.getElem?_eq_getElem hi', Option.getD_some]
    · have hbehind : (p + 1) * pageSize + (i - pageSize) = p * pageSize + i := by
        rw [Nat.succ_mul]
        omega
      rw [List.getElem?_append_right (by omega), hlen, ih (by rw [Nat.succ_mul] at h; omega),
        hbehind]

theorem getD_store (pages : Array Page) (p : Nat) (row : Bytes) (count q : Nat) :
    (store pages p row count).getD q .blank =
      if p ≤ q ∧ q < p + count then .cut (row.drop ((q - p) * pageSize))
      else pages.getD q .blank := by
  induction count generalizing pages p row with
  | zero => rw [store, if_neg (by omega)]
  | succ count ih =>
    rw [store, ih, Sparse.getD_put]
    by_cases hq : p = q
    · subst hq
      rw [if_neg (by omega), if_pos rfl, if_pos (by omega), Nat.sub_self, Nat.zero_mul,
        List.drop_zero]
    · rw [if_neg hq]
      by_cases hin : p + 1 ≤ q ∧ q < p + 1 + count
      · rw [if_pos hin, if_pos (by omega), List.drop_drop, Nat.add_comm, ← Nat.succ_mul]
        congr 3
        omega
      · rw [if_neg hin, if_neg (by omega)]

/-- The pages of a slice reach to its end. -/
theorem le_pagesOf (pos count : Nat) : pos % pageSize + count ≤ pagesOf pos count * pageSize := by
  unfold pagesOf pageSize
  omega

/-! ## Slices and patches -/

theorem getElem?_slice (m : Memory) (pos count i : Nat) :
    (m.slice pos count)[i]? = if i < count then some (m.byte (pos + i)) else none := by
  rw [slice, List.getElem?_take]
  split
  · have hle := le_pagesOf pos count
    rw [List.getElem?_drop, getElem?_span (by omega), ← Nat.add_assoc, Nat.div_add_mod']
  · rfl

@[simp] theorem length_slice (m : Memory) (pos count : Nat) :
    (m.slice pos count).length = count := by
  have hle := le_pagesOf pos count
  rw [slice, List.length_take, List.length_drop, length_span]
  omega

/-- **A slice** is the part of the row from its offset on. -/
theorem slice_eq (h : pos + count ≤ m.size) :
    m.slice pos count = (m.toBytes.drop pos).take count := by
  apply List.ext_getElem?
  intro i
  rw [getElem?_slice, List.getElem?_take]
  split
  · rw [List.getElem?_drop, getElem?_toBytes (by omega)]
  · rfl

/-- A byte of the pages that are written has its place in the row of those pages. -/
theorem byte_store (h : i / pageSize < pos / pageSize + count)
    (hpos : pos / pageSize ≤ i / pageSize) :
    (⟨store m.pages (pos / pageSize) row count, m.size⟩ : Memory).byte i =
      row.getD (i - pos / pageSize * pageSize) 0 := by
  have hplace : (i / pageSize - pos / pageSize) * pageSize + i % pageSize =
      i - pos / pageSize * pageSize := by
    have hle := Nat.mul_le_mul_right pageSize hpos
    have hi := Nat.div_add_mod' i pageSize
    rw [Nat.sub_mul]
    omega
  unfold byte page
  rw [getD_store, if_pos ⟨hpos, h⟩, Page.cut, List.getD_eq_getElem?_getD,
    Bytes.getElem?_fit (Nat.mod_lt i (by decide)), Option.getD_some, List.getElem?_drop, hplace,
    List.getD_eq_getElem?_getD]

/-- **A patch** replaces the bytes that it covers, and no others. -/
theorem byte_patch (m : Memory) (pos : Nat) (new : Bytes) (i : Nat) :
    (m.patch pos new).byte i =
      if pos ≤ i ∧ i < pos + new.length then new.getD (i - pos) 0 else m.byte i := by
  have hle := le_pagesOf pos new.length
  have hpos := Nat.div_add_mod' pos pageSize
  have hi := Nat.div_add_mod' i pageSize
  have hlt := Nat.mod_lt i (show 0 < pageSize by decide)
  by_cases hin : pos / pageSize ≤ i / pageSize ∧
      i / pageSize < pos / pageSize + pagesOf pos new.length
  · obtain ⟨hfirst, hlast⟩ := hin
    have hstart := Nat.mul_le_mul_right pageSize hfirst
    have hend := Nat.mul_le_mul_right pageSize (Nat.succ_le_of_lt hlast)
    rw [Nat.succ_mul, Nat.add_mul] at hend
    have hiff : pos % pageSize ≤ i - pos / pageSize * pageSize ∧
        i - pos / pageSize * pageSize < pos % pageSize + new.length ↔
        pos ≤ i ∧ i < pos + new.length := by omega
    have hplace : i - pos / pageSize * pageSize - pos % pageSize = i - pos := by omega
    rw [patch, byte_store hlast hfirst, List.getD_eq_getElem?_getD,
      Bytes.getElem?_splice (by rw [length_span]; omega), getElem?_span (by omega),
      Nat.add_sub_cancel' (by omega), hplace]
    simp only [hiff]
    split
    · rw [List.getD_eq_getElem?_getD]
    · rfl
  · have hout : ¬(pos ≤ i ∧ i < pos + new.length) := by
      rcases Nat.lt_or_ge (i / pageSize) (pos / pageSize) with hbefore | hfirst
      · have hend := Nat.mul_le_mul_right pageSize (Nat.succ_le_of_lt hbefore)
        rw [Nat.succ_mul] at hend
        omega
      · have hbehind : pos / pageSize + pagesOf pos new.length ≤ i / pageSize := by omega
        have hstart := Nat.mul_le_mul_right pageSize hbehind
        rw [Nat.add_mul] at hstart
        omega
    rw [if_neg hout]
    unfold patch byte page
    rw [getD_store, if_neg hin]

/-- **A patch** replaces the bytes of the row from its offset on. -/
theorem toBytes_patch (h : pos + new.length ≤ m.size) :
    (m.patch pos new).toBytes = m.toBytes.splice pos new := by
  apply List.ext_getElem?
  intro i
  rw [Bytes.getElem?_splice (by rw [length_toBytes]; omega)]
  by_cases hi : i < m.size
  · rw [getElem?_toBytes (m := m.patch pos new) hi, getElem?_toBytes hi, byte_patch]
    split
    · rw [List.getD_eq_getElem?_getD, List.getElem?_eq_getElem (by omega), Option.getD_some]
    · rfl
  · rw [if_neg (by omega), List.getElem?_eq_none, List.getElem?_eq_none]
    · exact (length_toBytes m).symm ▸ Nat.not_lt.mp hi
    · exact (length_toBytes (m.patch pos new)).symm ▸ Nat.not_lt.mp hi

end Memory

end SectorChain
