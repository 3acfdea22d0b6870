import SectorChain.FreeMap
import Mathlib.Data.List.Nodup
import Mathlib.Data.List.Basic
import Mathlib.Tactic.Tauto

/-!
# The free sectors of a map

`FreeMap.free m` lists the free sectors of a map, the first one first. Claiming takes its head and
counting gives its length.

Results:
* `freeFrom?_eq`: the search for a free sector finds the head of the list.
* `free_mark_head`: taking the first free sector into use leaves the others.
* `numFree_eq`: the number of free sectors is the length of the list.
* `isUsed_stored`: a map that was stored reads back with the same marks.
-/

namespace SectorChain

namespace Marks

/-- The numbers listed are listed once. -/
theorem nodup_toList (m : Marks) : m.toList.Nodup := by
  unfold toList
  refine List.nodup_flatMap.mpr ⟨fun p _ => (List.nodup_range' 1).filter _, ?_⟩
  refine (List.pairwise_lt_range).imp fun {p q} hpq i hp hq => ?_
  have hp' := List.mem_range'_1.mp (List.mem_filter.mp hp).1
  have hq' := List.mem_range'_1.mp (List.mem_filter.mp hq).1
  have := Nat.mul_le_mul_right pageSize hpq
  rw [Nat.succ_mul] at this
  omega

end Marks

namespace FreeMap

variable {m : FreeMap}

/-- The free sectors, in order. -/
def free (m : FreeMap) : List Nat := (List.range m.size).filter (!m.isUsed ·)

theorem mem_free {s : Nat} : s ∈ m.free ↔ s < m.size ∧ m.isUsed s = false := by
  simp [free]

/-- What is taken of the free sectors lies below any bound of the map. -/
theorem lt_of_mem_take_free {m : FreeMap} {n bound : Nat} (h : m.size ≤ bound) :
    ∀ s ∈ m.free.take n, s < bound := fun _ hs =>
  Nat.lt_of_lt_of_le (mem_free.mp (List.mem_of_mem_take hs)).1 h

theorem lt_size_of_isUsed {s : Nat} (h : m.isUsed s = true) : s < m.size := by
  unfold isUsed at h
  simp only [Bool.and_eq_true, decide_eq_true_eq] at h
  exact h.1

theorem sorted_free (m : FreeMap) : m.free.Pairwise (· < ·) :=
  List.pairwise_lt_range.filter _

theorem nodup_free (m : FreeMap) : m.free.Nodup := List.nodup_range.filter _

/-- The first free sector is a sector, and the others lie behind it. -/
theorem lt_of_free_cons {s : Nat} {rest : List Nat} (h : m.free = s :: rest) :
    s < m.size ∧ ∀ t ∈ rest, s < t := by
  have hsorted := m.sorted_free
  rw [h] at hsorted
  exact ⟨(mem_free.mp (h ▸ List.mem_cons_self)).1, (List.pairwise_cons.mp hsorted).1⟩

/-- The head of the free sectors is the least of them. -/
theorem head?_free {s : Nat} (hs : s ∈ m.free) (hleast : ∀ t ∈ m.free, s ≤ t) :
    m.free.head? = some s := by
  cases hfree : m.free with
  | nil =>
    rw [hfree] at hs
    cases hs
  | cons t rest =>
    rw [hfree] at hs hleast
    rcases List.mem_cons.mp hs with rfl | hs
    · rfl
    · have h1 := hleast t List.mem_cons_self
      have h2 := (lt_of_free_cons hfree).2 s hs
      omega

/-- **The search finds the first free sector** when none is free before its start. -/
theorem freeFrom?_eq {start : Nat} (h : ∀ s ∈ m.free, start ≤ s) :
    m.freeFrom? start = m.free.head? := by
  unfold freeFrom?
  cases hscan : m.scan (m.size - start) start with
  | some s =>
    obtain ⟨hle, hlt, hfree, hall⟩ := scan_eq_some_iff.mp hscan
    refine (head?_free (mem_free.mpr ⟨by omega, hfree⟩) fun t ht => ?_).symm
    by_cases hts : t < s
    · have hused := hall t (h t ht) hts
      rw [(mem_free.mp ht).2] at hused
      cases hused
    · omega
  | none =>
    cases hfree : m.free with
    | nil => rfl
    | cons s rest =>
      have hs : s ∈ m.free := hfree ▸ List.mem_cons_self
      obtain ⟨hlt, hunused⟩ := mem_free.mp hs
      have hle := h s hs
      have hsome : m.scan (m.size - start) start = some s := by
        refine scan_eq_some_iff.mpr ⟨hle, by omega, hunused, fun t _ hts => ?_⟩
        cases hused : m.isUsed t with
        | true => rfl
        | false =>
          have ht : t ∈ m.free := mem_free.mpr ⟨by omega, hused⟩
          rw [hfree] at ht
          rcases List.mem_cons.mp ht with rfl | ht
          · omega
          · have := (lt_of_free_cons hfree).2 t ht
            omega
      rw [hscan] at hsome
      cases hsome

theorem leastFree?_eq (m : FreeMap) : m.leastFree? = m.free.head? :=
  freeFrom?_eq fun _ _ => Nat.zero_le _

@[simp] theorem size_mark (m : FreeMap) (s : Nat) : (m.mark s).size = m.size :=
  size_setMark m s true

@[simp] theorem size_clear (m : FreeMap) (s : Nat) : (m.clear s).size = m.size :=
  size_setMark m s false

theorem stored_setMark (m : FreeMap) (s : Nat) (b : Bool) : (m.setMark s b).stored = m.stored := by
  unfold setMark
  split <;> rfl

@[simp] theorem stored_mark (m : FreeMap) (s : Nat) : (m.mark s).stored = m.stored :=
  stored_setMark m s true

@[simp] theorem stored_clear (m : FreeMap) (s : Nat) : (m.clear s).stored = m.stored :=
  stored_setMark m s false

/-- Taking a sector into use takes it from the free ones. -/
theorem free_mark (m : FreeMap) (s : Nat) : (m.mark s).free = m.free.filter (· ≠ s) := by
  unfold free
  rw [size_mark, List.filter_filter]
  refine List.filter_congr fun t ht => ?_
  rw [isUsed_mark]
  have hlt := List.mem_range.mp ht
  by_cases hst : s = t
  · subst hst
    simp [hlt]
  · simp [hst, Ne.symm hst]

theorem free_mark_head {s : Nat} {rest : List Nat} (h : m.free = s :: rest) :
    (m.mark s).free = rest := by
  have hnodup := m.nodup_free
  rw [h, List.nodup_cons] at hnodup
  rw [free_mark, h, List.filter_cons_of_neg (by simp), List.filter_eq_self]
  intro t ht
  simp only [ne_eq, decide_not, Bool.not_eq_true', decide_eq_false_iff_not]
  rintro rfl
  exact hnodup.1 ht

theorem nodup_used (m : FreeMap) : m.used.Nodup := m.marks.nodup_toList.filter _

/-- **The number of free sectors** is that of the sectors without a mark. -/
theorem numFree_eq (m : FreeMap) : m.numFree = m.free.length := by
  have hperm : m.used.Perm ((List.range m.size).filter (m.isUsed ·)) := by
    refine (List.perm_ext_iff_of_nodup m.nodup_used (List.nodup_range.filter _)).mpr fun s => ?_
    rw [mem_used, List.mem_filter, List.mem_range]
    exact ⟨fun h => ⟨lt_size_of_isUsed h, h⟩, fun h => h.2⟩
  have hsplit := List.length_eq_length_filter_add (l := List.range m.size) (m.isUsed ·)
  rw [List.length_range] at hsplit
  rw [numFree, hperm.length_eq, free]
  omega

theorem claim?_eq (m : FreeMap) : m.claim? = m.free.head?.map fun s => (s, m.mark s) := by
  unfold claim?
  rw [leastFree?_eq]
  cases m.free.head? <;> rfl

/-! ## Many sectors at once -/

@[simp] theorem size_foldl_mark (m : FreeMap) (l : List Nat) : (l.foldl mark m).size = m.size := by
  induction l generalizing m with
  | nil => rfl
  | cons s rest ih => rw [List.foldl_cons, ih, size_mark]

@[simp] theorem stored_foldl_mark (m : FreeMap) (l : List Nat) :
    (l.foldl mark m).stored = m.stored := by
  induction l generalizing m with
  | nil => rfl
  | cons s rest ih => rw [List.foldl_cons, ih, stored_mark]

theorem isUsed_foldl_mark {m : FreeMap} {l : List Nat} (h : ∀ s ∈ l, s < m.size) (i : Nat) :
    (l.foldl mark m).isUsed i = true ↔ m.isUsed i = true ∨ i ∈ l := by
  induction l generalizing m with
  | nil => simp
  | cons s rest ih =>
    have hs := h s List.mem_cons_self
    rw [List.foldl_cons, ih fun t ht => by rw [size_mark]; exact h t (List.mem_cons_of_mem _ ht),
      isUsed_mark, List.mem_cons, Bool.or_eq_true, decide_eq_true_eq, eq_comm (a := s)]
    tauto

@[simp] theorem size_foldl_clear (m : FreeMap) (l : List Nat) :
    (l.foldl clear m).size = m.size := by
  induction l generalizing m with
  | nil => rfl
  | cons s rest ih => rw [List.foldl_cons, ih, size_clear]

@[simp] theorem stored_foldl_clear (m : FreeMap) (l : List Nat) :
    (l.foldl clear m).stored = m.stored := by
  induction l generalizing m with
  | nil => rfl
  | cons s rest ih => rw [List.foldl_cons, ih, stored_clear]

theorem isUsed_foldl_clear (m : FreeMap) (l : List Nat) (i : Nat) :
    (l.foldl clear m).isUsed i = true ↔ m.isUsed i = true ∧ i ∉ l := by
  induction l generalizing m with
  | nil => simp
  | cons s rest ih =>
    rw [List.foldl_cons, ih, isUsed_clear, List.mem_cons, Bool.and_eq_true, decide_eq_true_eq,
      ne_comm (a := s)]
    tauto

/-- Taking the first free sectors into use leaves those behind them. -/
theorem free_foldl_mark (m : FreeMap) (n : Nat) :
    ((m.free.take n).foldl mark m).free = m.free.drop n := by
  induction n generalizing m with
  | zero => rfl
  | succ n ih =>
    cases hfree : m.free with
    | nil => simp [hfree]
    | cons s rest =>
      have hmark := free_mark_head hfree
      have := ih (m.mark s)
      rw [hmark] at this
      rw [List.take_succ_cons, List.foldl_cons, List.drop_succ_cons, this]

/-! ## The stored map -/

@[simp] theorem length_packed {bits : List Bool} (h : bits.length % 8 = 0) :
    8 * (Bits.packed bits).length = bits.length := by
  rw [← Bits.length_unpacked, Bits.unpacked_packed h]

@[simp] theorem length_firstBytes (m : FreeMap) (count : Nat) :
    (m.firstBytes count).length = count := by
  have h : ((List.range (8 * count)).map m.marks.contains).length = 8 * count := by
    rw [List.length_map, List.length_range]
  have hmod : ((List.range (8 * count)).map m.marks.contains).length % 8 = 0 := by omega
  have := length_packed hmod
  unfold firstBytes
  omega

/-- **A stored map reads back with the same marks.** -/
theorem isUsed_stored {count : Nat} (h : m.size ≤ 8 * count) (s : Nat) :
    (ofBytes m.size (m.firstBytes count)).isUsed s = m.isUsed s := by
  unfold isUsed ofBytes firstBytes
  dsimp only
  by_cases hs : s < m.size
  · rw [Marks.contains_ofBits, Bits.unpacked_packed (by simp), List.getD_eq_getElem?_getD,
      List.getElem?_map, List.getElem?_range (by omega)]
    rfl
  · simp [hs]

theorem stored_ofBytes {size : Nat} {bytes : Bytes} (h : bytes.length = Layout.freeMapSize size) :
    (ofBytes size bytes).stored = Layout.freeMapSize size := by
  show max bytes.length (Layout.freeMapSize size) = _
  omega

end FreeMap

end SectorChain
