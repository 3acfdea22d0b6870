/-!
# Sparse arrays

Behind its end a sparse array holds the same default value everywhere, so it is only as long as
the last element that was ever put into it.

Results:
* `getD_update`, `getD_put`: changing an element changes its place and no other.
-/

namespace SectorChain.Sparse

/-- The array, with `default` behind it where it has fewer than `size` elements. -/
def extend {α : Type} (a : Array α) (default : α) (size : Nat) : Array α :=
  a ++ Array.replicate (size - a.size) default

/-- The array with `f` applied to the element at index `i`, also if the array ends before it. -/
def update {α : Type} (a : Array α) (default : α) (i : Nat) (f : α → α) : Array α :=
  (extend a default (i + 1)).modify i f

/-- The array with `x` at index `i`, also if the array ends before it. -/
def put {α : Type} (a : Array α) (default : α) (i : Nat) (x : α) : Array α :=
  update a default i fun _ => x

variable {α : Type}

@[simp] theorem size_extend (a : Array α) (default : α) (size : Nat) :
    (extend a default size).size = max a.size size := by
  simp only [extend, Array.size_append, Array.size_replicate]
  omega

@[simp] theorem getD_extend (a : Array α) (default : α) (size i : Nat) :
    (extend a default size).getD i default = a.getD i default := by
  simp only [extend, Array.getD_eq_getD_getElem?, Array.getElem?_append, Array.getElem?_replicate]
  split
  · rfl
  · rename_i h
    rw [Array.getElem?_eq_none (Nat.not_lt.mp h)]
    split <;> rfl

theorem getD_update (a : Array α) (default : α) (i j : Nat) (f : α → α) :
    (update a default i f).getD j default =
      if i = j then f (a.getD i default) else a.getD j default := by
  have hsize : i < (extend a default (i + 1)).size := by
    rw [size_extend]
    omega
  rw [update, Array.getD_eq_getD_getElem?, Array.getElem?_modify]
  by_cases h : i = j
  · subst h
    rw [if_pos rfl, if_pos rfl, ← getD_extend a default (i + 1) i, Array.getD_eq_getD_getElem?,
      Array.getElem?_eq_getElem hsize]
    rfl
  · rw [if_neg h, if_neg h, ← Array.getD_eq_getD_getElem?, getD_extend]

theorem getD_put (a : Array α) (default : α) (i j : Nat) (x : α) :
    (put a default i x).getD j default = if i = j then x else a.getD j default :=
  getD_update a default i j fun _ => x

end SectorChain.Sparse
