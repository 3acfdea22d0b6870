import SectorChain.Sparse

/-!
# Marks

A set of numbers, kept as pages of marks: page `p` has the marks of the numbers from
`p * pageSize` on. Neither pages nor marks are kept behind the last one that was ever set, so a
few marks far apart take little room.

Results:
* `contains_set`: setting a mark changes that mark alone.
* `contains_ofBits`: the marks made from a row of bits are those bits.
* `mem_toList`: the numbers listed are those with a mark.
-/

namespace SectorChain

/-- A set of numbers. -/
structure Marks where
  pages : Array (Array Bool)

namespace Marks

/-- The marks of one page. -/
def pageSize : Nat := 1024

/-- No number has a mark. -/
def empty : Marks := ⟨#[]⟩

/-- The marks of a page. -/
def page (m : Marks) (p : Nat) : Array Bool := m.pages.getD p #[]

/-- Whether the number has a mark. -/
def contains (m : Marks) (i : Nat) : Bool := (m.page (i / pageSize)).getD (i % pageSize) false

/-- The set with the mark of `i` set to `mark`. -/
def set (m : Marks) (i : Nat) (mark : Bool) : Marks :=
  ⟨Sparse.update m.pages #[] (i / pageSize) fun page => Sparse.put page false (i % pageSize) mark⟩

/-- The set, and the marks that a row of bits gives to the numbers from `i` on. -/
def addBits (m : Marks) (i : Nat) : List Bool → Marks
  | [] => m
  | bit :: rest => (if bit then m.set i true else m).addBits (i + 1) rest

/-- The marks that a row of bits gives to the numbers from 0 on. -/
def ofBits (bits : List Bool) : Marks := empty.addBits 0 bits

/-- The numbers with a mark, in order. -/
def toList (m : Marks) : List Nat :=
  (List.range m.pages.size).flatMap fun p =>
    (List.range' (p * pageSize) (min pageSize (m.page p).size)).filter m.contains

@[simp] theorem contains_empty (i : Nat) : empty.contains i = false := rfl

theorem contains_set (m : Marks) (i j : Nat) (mark : Bool) :
    (m.set i mark).contains j = if i = j then mark else m.contains j := by
  rw [contains, page, set, Sparse.getD_update]
  by_cases hp : i / pageSize = j / pageSize
  · rw [if_pos hp, Sparse.getD_put]
    by_cases hk : i % pageSize = j % pageSize
    · have hij : i = j := by
        rw [← Nat.div_add_mod i pageSize, ← Nat.div_add_mod j pageSize, hp, hk]
      rw [if_pos hk, if_pos hij]
    · have hij : i ≠ j := fun h => hk (h ▸ rfl)
      rw [if_neg hk, if_neg hij, hp, contains, page]
  · have hij : i ≠ j := fun h => hp (h ▸ rfl)
    rw [if_neg hp, if_neg hij, contains, page]

theorem contains_addBits (m : Marks) (i j : Nat) (bits : List Bool) :
    (m.addBits i bits).contains j =
      ((decide (i ≤ j) && bits.getD (j - i) false) || m.contains j) := by
  induction bits generalizing m i with
  | nil => simp [addBits]
  | cons bit rest ih =>
    rw [addBits, ih]
    by_cases hij : i = j
    · subst hij
      cases bit <;> simp [contains_set, show ¬i + 1 ≤ i by omega]
    · have hset : (if bit then m.set i true else m).contains j = m.contains j := by
        cases bit
        · rfl
        · exact (contains_set m i j true).trans (if_neg hij)
      rw [hset]
      by_cases hlt : i < j
      · obtain ⟨k, rfl⟩ : ∃ k, j = i + 1 + k := ⟨j - (i + 1), by omega⟩
        rw [show i + 1 + k - i = k + 1 by omega, show i + 1 + k - (i + 1) = k by omega]
        simp [show i ≤ i + 1 + k by omega]
      · simp [show ¬i ≤ j by omega, show ¬i + 1 ≤ j by omega]

theorem contains_ofBits (bits : List Bool) (i : Nat) :
    (ofBits bits).contains i = bits.getD i false := by
  simp [ofBits, contains_addBits]

theorem mod_lt_size_of_contains {m : Marks} {i : Nat} (h : m.contains i) :
    i % pageSize < (m.page (i / pageSize)).size := by
  by_cases hlt : i % pageSize < (m.page (i / pageSize)).size
  · exact hlt
  · rw [contains, Array.getD_eq_getD_getElem?, Array.getElem?_eq_none (by omega)] at h
    cases h

theorem mem_toList {m : Marks} {i : Nat} : i ∈ m.toList ↔ m.contains i := by
  simp only [toList, List.mem_flatMap, List.mem_range, List.mem_filter, List.mem_range'_1]
  constructor
  · rintro ⟨p, -, -, h⟩
    exact h
  · intro h
    have hk := mod_lt_size_of_contains h
    have hmod := Nat.mod_lt i (show 0 < pageSize by decide)
    have hdiv := Nat.div_add_mod' i pageSize
    refine ⟨i / pageSize, ?_, by omega, h⟩
    by_cases hp : i / pageSize < m.pages.size
    · exact hp
    · rw [page, Array.getD_eq_getD_getElem?, Array.getElem?_eq_none (by omega)] at hk
      exact absurd hk (Nat.not_lt_zero _)

end Marks

end SectorChain
