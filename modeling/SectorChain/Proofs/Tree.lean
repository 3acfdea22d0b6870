import SectorChain.Error
import SectorChain.Kind
import SectorChain.Path
import Mathlib.Data.List.Flatten
import Mathlib.Data.List.Perm.Basic
import Mathlib.Data.List.ReduceOption

/-!
# Trees of files

A `Tree` is what a volume looks like from outside: a file, or a directory with a table of slots,
each of them unused or with a label and a tree below it. What is kept of a file (`α`), of a
directory (`β`) and in a label (`ε`) is left open; `name` gives the name in a label.

A route is followed from table to table (`Slots.follow`). An edit changes the table at the end of
a route (`Slots.change`): it puts a new tree into the first unused slot (`Slots.insert`), or makes
a slot unused (`Slots.erase`).

Results:
* `Tree.induction`: induction over a tree, with the trees in the slots of a directory.
* `change_spliced`: a change edits one table, the one in which the route is searched at its end.
* `Spliced.nodes_perm`: what the edit adds to a table and takes from it, the change adds to the
  whole tree and takes from it.
* `follow_map`, `change_map`: a view of a tree is followed and changed as the tree is.
-/

namespace SectorChain

/-- A file, or a directory with the trees in its slots. -/
inductive Tree (α β ε : Type) where
  | file (info : α)
  | directory (info : β) (slots : List (Option (ε × Tree α β ε)))

/-- The slots of a directory. -/
abbrev Slots (α β ε : Type) := List (Option (ε × Tree α β ε))

variable {α β ε α' β' ε' γ : Type}

namespace Tree

/-! ## Recursion and induction -/

mutual

/-- The value of a tree, from that of each file and from the values below each directory. -/
def fold (onFile : α → γ) (onDirectory : β → List (Option (ε × γ)) → γ) : Tree α β ε → γ
  | .file a => onFile a
  | .directory b slots => onDirectory b (foldSlots onFile onDirectory slots)

/-- The values of the trees in the slots. -/
def foldSlots (onFile : α → γ) (onDirectory : β → List (Option (ε × γ)) → γ) :
    List (Option (ε × Tree α β ε)) → List (Option (ε × γ))
  | [] => []
  | none :: rest => none :: foldSlots onFile onDirectory rest
  | some (e, t) :: rest => some (e, fold onFile onDirectory t) :: foldSlots onFile onDirectory rest

end

theorem foldSlots_eq (onFile : α → γ) (onDirectory : β → List (Option (ε × γ)) → γ)
    (slots : Slots α β ε) :
    foldSlots onFile onDirectory slots =
      slots.map (Option.map (Prod.map id (fold onFile onDirectory))) := by
  induction slots with
  | nil => rfl
  | cons slot rest ih =>
    cases slot with
    | none => rw [foldSlots, ih]; rfl
    | some p => rw [foldSlots, ih]; rfl

mutual

/-- **Induction over a tree**: a directory comes after the trees in its slots. -/
theorem induction {P : Tree α β ε → Prop} (file : ∀ a, P (.file a))
    (directory : ∀ b slots, (∀ e t, some (e, t) ∈ slots → P t) → P (.directory b slots)) :
    ∀ t, P t
  | .file a => file a
  | .directory b slots => directory b slots (inductionSlots file directory slots)

theorem inductionSlots {P : Tree α β ε → Prop} (file : ∀ a, P (.file a))
    (directory : ∀ b slots, (∀ e t, some (e, t) ∈ slots → P t) → P (.directory b slots)) :
    ∀ (slots : List (Option (ε × Tree α β ε))) (e : ε) (t : Tree α β ε), some (e, t) ∈ slots → P t
  | [], _, _, h => nomatch h
  | none :: rest, e, t, h => by
    rcases List.mem_cons.mp h with h | h
    · cases h
    · exact inductionSlots file directory rest e t h
  | some (e', t') :: rest, e, t, h => by
    rcases List.mem_cons.mp h with h | h
    · cases h
      exact induction file directory t'
    · exact inductionSlots file directory rest e t h

end

/-! ## Files and directories of a tree -/

/-- The kind of file at the root of the tree. -/
def kind : Tree α β ε → Kind
  | .file _ => .file
  | .directory _ _ => .directory

/-- What is kept of the files and directories of the tree, each directory before those in it. -/
def nodes : Tree α β ε → List (α ⊕ β) :=
  fold (fun a => [.inl a]) fun b slots => .inr b :: slots.reduceOption.flatMap Prod.snd

/-- The tree with other values at its files, its directories and its labels. -/
def map (f : α → α') (g : β → β') (h : ε → ε') : Tree α β ε → Tree α' β' ε' :=
  fold (fun a => .file (f a)) fun b slots =>
    .directory (g b) (slots.map (Option.map (Prod.map h id)))

end Tree

namespace Slots

/-- The trees in the slots, with their labels. -/
def children (slots : Slots α β ε) : List (ε × Tree α β ε) := slots.reduceOption

/-- What is kept of the files and directories below the slots. -/
def nodes (slots : Slots α β ε) : List (α ⊕ β) := (children slots).flatMap fun p => p.2.nodes

/-- The labels, each in its slot. -/
def labels (slots : Slots α β ε) : List (Option ε) := List.map (Option.map Prod.fst) slots

/-- The slots with other values below them. -/
def map (f : α → α') (g : β → β') (h : ε → ε') (slots : Slots α β ε) : Slots α' β' ε' :=
  List.map (Option.map (Prod.map h (Tree.map f g h))) slots

theorem mem_children {slots : Slots α β ε} {e : ε} {t : Tree α β ε} :
    (e, t) ∈ children slots ↔ some (e, t) ∈ slots := List.reduceOption_mem_iff

theorem reduceOption_labels (slots : Slots α β ε) :
    (labels slots).reduceOption = (children slots).map Prod.fst := List.reduceOption_map

theorem labels_map (f : α → α') (g : β → β') (h : ε → ε') (slots : Slots α β ε) :
    labels (map f g h slots) = (labels slots).map (Option.map h) := by
  unfold labels map
  rw [List.map_map, List.map_map, Option.map_comp_map, Option.map_comp_map]
  rfl

/-- What is in a view of slots is a view of what is in them. -/
theorem mem_map {f : α → α'} {g : β → β'} {h : ε → ε'} {slots : Slots α β ε} {e' : ε'}
    {t' : Tree α' β' ε'} (ht : some (e', t') ∈ map f g h slots) :
    ∃ e t, some (e, t) ∈ slots ∧ h e = e' ∧ t.map f g h = t' := by
  obtain ⟨slot, hslot, heq⟩ := List.mem_map.mp ht
  obtain ⟨⟨e, t⟩, rfl, heq⟩ := Option.map_eq_some_iff.mp heq
  cases heq
  exact ⟨e, t, hslot, rfl, rfl⟩

theorem nodes_subset {slots : Slots α β ε} {e : ε} {t : Tree α β ε} (h : some (e, t) ∈ slots) :
    t.nodes ⊆ nodes slots := fun _ hx => List.mem_flatMap.mpr ⟨(e, t), mem_children.mpr h, hx⟩

theorem length_nodes_le {slots : Slots α β ε} {e : ε} {t : Tree α β ε} (h : some (e, t) ∈ slots) :
    t.nodes.length ≤ (nodes slots).length := by
  have hsub := List.sublist_flatten_of_mem
    (List.mem_map_of_mem (f := fun p : ε × Tree α β ε => p.2.nodes) (mem_children.mpr h))
  rw [← List.flatMap_def] at hsub
  exact hsub.length_le

end Slots

namespace Tree

@[simp] theorem nodes_file (a : α) : (file a : Tree α β ε).nodes = [.inl a] := rfl

@[simp] theorem nodes_directory (b : β) (slots : Slots α β ε) :
    (directory b slots).nodes = .inr b :: Slots.nodes slots := by
  unfold nodes
  rw [fold, foldSlots_eq, List.reduceOption_map, List.flatMap_map]
  rfl

@[simp] theorem map_file (f : α → α') (g : β → β') (h : ε → ε') (a : α) :
    map f g h (file a) = file (f a) := rfl

@[simp] theorem map_directory (f : α → α') (g : β → β') (h : ε → ε') (b : β)
    (slots : Slots α β ε) :
    map f g h (directory b slots) = directory (g b) (Slots.map f g h slots) := by
  unfold map
  rw [fold, foldSlots_eq, List.map_map, Option.map_comp_map]
  rfl

theorem kind_map (f : α → α') (g : β → β') (h : ε → ε') (t : Tree α β ε) :
    (t.map f g h).kind = t.kind := by
  cases t with
  | file a => rfl
  | directory b slots => rw [map_directory]; rfl

end Tree

/-- A view of a tree has the views of its files and directories. -/
theorem Tree.nodes_map (f : α → α') (g : β → β') (h : ε → ε') (t : Tree α β ε) :
    (t.map f g h).nodes = t.nodes.map (Sum.map f g) := by
  induction t using Tree.induction with
  | file a => rfl
  | directory b slots ih =>
    rw [map_directory, nodes_directory, nodes_directory, List.map_cons]
    unfold Slots.nodes Slots.children Slots.map
    rw [List.reduceOption_map, List.flatMap_map, List.map_flatMap]
    exact congrArg _ (List.flatMap_congr fun p hp => ih p.1 p.2 (Slots.mem_children.mp hp))

/-- A view of a view is a view. -/
theorem Tree.map_map {α'' β'' ε'' : Type} {f : α → α'} {g : β → β'} {h : ε → ε'}
    {f' : α' → α''} {g' : β' → β''} {h' : ε' → ε''} (t : Tree α β ε) :
    (t.map f g h).map f' g' h' = t.map (f' ∘ f) (g' ∘ g) (h' ∘ h) := by
  induction t using Tree.induction with
  | file a => rfl
  | directory b slots ih =>
    rw [map_directory, map_directory, map_directory]
    refine congrArg (directory _) ?_
    unfold Slots.map
    rw [List.map_map]
    refine List.map_congr_left fun slot hslot => ?_
    cases slot with
    | none => rfl
    | some p => exact congrArg (fun t => some (h' (h p.1), t)) (ih p.1 p.2 hslot)

theorem Slots.map_map {α'' β'' ε'' : Type} {f : α → α'} {g : β → β'} {h : ε → ε'}
    {f' : α' → α''} {g' : β' → β''} {h' : ε' → ε''} (slots : Slots α β ε) :
    map f' g' h' (map f g h slots) = map (f' ∘ f) (g' ∘ g) (h' ∘ h) slots := by
  unfold map
  rw [List.map_map, Option.map_comp_map]
  refine List.map_congr_left fun slot _ => ?_
  cases slot with
  | none => rfl
  | some p => exact congrArg (fun t => some (h' (h p.1), t)) (Tree.map_map p.2)

namespace Slots

/-! ## Following a route -/

section Names

variable (name : ε → String)

/-- Whether the slot has a tree of this name. -/
def isFor (n : String) (slot : Option (ε × Tree α β ε)) : Bool := slot.any fun p => name p.1 == n

/-- The first slot with a tree of this name, and what is in it. -/
def find? (slots : Slots α β ε) (n : String) : Option (Nat × ε × Tree α β ε) := do
  let i ← slots.findIdx? (isFor name n)
  let p ← slots[i]?.join
  return (i, p)

/-- The label and the tree at the end of a route that was cut from `path`. -/
def follow (path : String) : Route → Slots α β ε → Except VolumeError (ε × Tree α β ε)
  | .invalid rest, _ => .error (.invalidPath rest)
  | .last n, slots =>
    match find? name slots n with
    | none => .error (.notFound path)
    | some (_, p) => .ok p
  | .step n rest, slots =>
    match find? name slots n with
    | none => .error (.notFound path)
    | some (_, _, .file _) => .error (.notADirectory path)
    | some (_, _, .directory _ below) => follow path rest below

/-- The slots with the table changed that holds the last name of a route. -/
def change (path : String) (edit : Slots α β ε → String → Except VolumeError (Slots α β ε)) :
    Route → Slots α β ε → Except VolumeError (Slots α β ε)
  | .invalid rest, _ => .error (.invalidPath rest)
  | .last n, slots => edit slots n
  | .step n rest, slots =>
    match find? name slots n with
    | none => .error (.notFound path)
    | some (_, _, .file _) => .error (.notADirectory path)
    | some (i, e, .directory b below) => do
      let below ← change path edit rest below
      return slots.set i (some (e, .directory b below))

/-- A tree in the first unused slot, if there is none of this name. -/
def insert (path : String) (label : String → ε) (t : Tree α β ε) (slots : Slots α β ε)
    (n : String) : Except VolumeError (Slots α β ε) :=
  if (find? name slots n).isSome then .error (.alreadyExists path)
  else match slots.findIdx? Option.isNone with
    | none => .error (.directoryFull path)
    | some i => .ok (slots.set i (some (label n, t)))

/-- The slots without the tree of this name. -/
def erase (path : String) (slots : Slots α β ε) (n : String) : Except VolumeError (Slots α β ε) :=
  match find? name slots n with
  | none => .error (.notFound path)
  | some (i, _) => .ok (slots.set i none)

end Names

variable {name : ε → String} {path : String} {slots slots' s s' : Slots α β ε}

/-- The first slot for a name is in use. -/
theorem find?_of_findIdx? {n : String} {i : Nat} (h : slots.findIdx? (isFor name n) = some i) :
    ∃ e t, find? name slots n = some (i, e, t) ∧ slots[i]? = some (some (e, t)) ∧ name e = n := by
  obtain ⟨hlt, hfor, -⟩ := List.findIdx?_eq_some_iff_getElem.mp h
  cases hi : slots[i] with
  | none =>
    rw [hi] at hfor
    cases hfor
  | some p =>
    have hget : slots[i]? = some (some p) := by rw [List.getElem?_eq_getElem hlt, hi]
    rw [hi] at hfor
    refine ⟨p.1, p.2, ?_, hget, eq_of_beq hfor⟩
    unfold find?
    rw [h, Option.bind_eq_bind, Option.bind_some, hget]
    rfl

theorem find?_eq_some {n : String} {i : Nat} {e : ε} {t : Tree α β ε}
    (h : find? name slots n = some (i, e, t)) : slots[i]? = some (some (e, t)) ∧ name e = n := by
  cases hi : slots.findIdx? (isFor name n) with
  | none =>
    unfold find? at h
    rw [hi] at h
    cases h
  | some j =>
    obtain ⟨e', t', hfind, hget, hname⟩ := find?_of_findIdx? hi
    cases h.symm.trans hfind
    exact ⟨hget, hname⟩

/-- Slots that are not in use have no names. -/
theorem find?_replicate_none (count : Nat) (n : String) :
    find? name (List.replicate count none : Slots α β ε) n = none := by
  have hfor : (List.replicate count none : Slots α β ε).findIdx? (isFor name n) = none :=
    List.findIdx?_eq_none_iff.mpr fun slot hslot => by
      rw [List.eq_of_mem_replicate hslot]
      rfl
  unfold find?
  rw [hfor]
  rfl

/-- The name of a slot that is not found is in no slot. -/
theorem find?_eq_none {n : String} (h : find? name slots n = none) {e : ε} {t : Tree α β ε}
    (ht : some (e, t) ∈ slots) : name e ≠ n := by
  rintro rfl
  cases hi : slots.findIdx? (isFor name (name e)) with
  | none =>
    have := List.findIdx?_eq_none_iff.mp hi _ ht
    simp [isFor] at this
  | some j =>
    obtain ⟨e', t', hfind, -⟩ := find?_of_findIdx? hi
    cases h.symm.trans hfind

theorem isFor_eq_false {n : String} (h : find? name slots n = none)
    {o : Option (ε × Tree α β ε)} (ho : o ∈ slots) : isFor name n o = false := by
  cases o with
  | none => rfl
  | some p => exact beq_false_of_ne (find?_eq_none h ho)

/-- What is found is in the first slot of its name. -/
theorem isFor_of_lt {n : String} {i j : Nat} {p : ε × Tree α β ε}
    (h : find? name slots n = some (i, p)) (hj : j < i) {o : Option (ε × Tree α β ε)}
    (ho : slots[j]? = some o) : isFor name n o = false := by
  unfold find? at h
  cases hi : slots.findIdx? (isFor name n) with
  | none =>
    rw [hi] at h
    cases h
  | some i' =>
    rw [hi] at h
    simp only [Option.bind_eq_bind, Option.bind_some] at h
    obtain ⟨p', -, heq⟩ := Option.bind_eq_some_iff.mp h
    cases heq
    obtain ⟨hlt, -, hbefore⟩ := List.findIdx?_eq_some_iff_getElem.mp hi
    rw [List.getElem?_eq_getElem (Nat.lt_trans hj hlt)] at ho
    cases ho
    exact Bool.eq_false_iff.mpr (hbefore j hj)

/-- What is put into a slot is found there, if it is the first of its name. -/
theorem find?_set {n : String} {i : Nat} {e : ε} (t : Tree α β ε) (hi : i < slots.length)
    (he : name e = n) (hbefore : ∀ j o, j < i → slots[j]? = some o → isFor name n o = false) :
    find? name (slots.set i (some (e, t))) n = some (i, e, t) := by
  have hidx : (slots.set i (some (e, t))).findIdx? (isFor name n) = some i := by
    rw [List.findIdx?_eq_some_iff_getElem]
    refine ⟨by rw [List.length_set]; exact hi, ?_, fun j hj => ?_⟩
    · rw [List.getElem_set_self]
      exact beq_iff_eq.mpr he
    · rw [List.getElem_set_of_ne (Nat.ne_of_gt hj), Bool.not_eq_true]
      exact hbefore j _ hj (List.getElem?_eq_getElem _)
  unfold find?
  rw [hidx]
  simp only [Option.bind_eq_bind, Option.bind_some, List.getElem?_set_self hi, Option.join_some]
  rfl

/-! ## One slot of a table -/

/-- A tree put into a slot comes in addition to those in the other slots. -/
theorem children_set_perm {i : Nat} (hi : i < slots.length) (p : ε × Tree α β ε) :
    (children (slots.set i (some p))).Perm (p :: children (slots.set i none)) := by
  induction slots generalizing i with
  | nil => exact absurd hi (Nat.not_lt_zero i)
  | cons slot rest ih =>
    cases i with
    | zero => exact .refl _
    | succ i =>
      have hrest := ih (Nat.lt_of_succ_lt_succ hi)
      cases slot with
      | none => exact hrest
      | some q => exact (hrest.cons q).trans (.swap p q _)

theorem nodes_set_perm {i : Nat} (hi : i < slots.length) (e : ε) (t : Tree α β ε) :
    (nodes (slots.set i (some (e, t)))).Perm (t.nodes ++ nodes (slots.set i none)) :=
  (children_set_perm hi (e, t)).flatMap_right _

/-- The trees in the slots are the one in slot `i` and those in the others. -/
theorem nodes_perm {i : Nat} {e : ε} {t : Tree α β ε} (hi : slots[i]? = some (some (e, t))) :
    (nodes slots).Perm (t.nodes ++ nodes (slots.set i none)) := by
  obtain ⟨hlt, hget⟩ := List.getElem?_eq_some_iff.mp hi
  have := nodes_set_perm hlt e t
  rwa [← hget, List.set_getElem_self] at this

theorem mem_set {i : Nat} {o : Option (ε × Tree α β ε)} {e : ε} {t : Tree α β ε}
    (h : some (e, t) ∈ slots.set i o) : some (e, t) ∈ slots.set i none ∨ o = some (e, t) := by
  obtain ⟨j, hj⟩ := List.mem_iff_getElem?.mp h
  rw [List.getElem?_set] at hj
  split at hj
  · split at hj
    · exact .inr (Option.some.inj hj)
    · cases hj
  · rename_i hij
    exact .inl (List.mem_iff_getElem?.mpr ⟨j, by rw [List.getElem?_set, if_neg hij, hj]⟩)

theorem mem_of_mem_set_none {i : Nat} {e : ε} {t : Tree α β ε}
    (h : some (e, t) ∈ slots.set i none) : some (e, t) ∈ slots := by
  rcases List.mem_or_eq_of_mem_set h with h | h
  · exact h
  · cases h

/-! ## One table of a tree -/

/-- The slots `slots'` are `slots` with the table `s`, which is this one or one below it, replaced
by `s'`. -/
inductive Spliced (s s' : Slots α β ε) : Slots α β ε → Slots α β ε → Prop
  | here : Spliced s s' s s'
  | inside {slots inner inner' : Slots α β ε} {i : Nat} {e : ε} {b : β} :
      slots[i]? = some (some (e, .directory b inner)) → Spliced s s' inner inner' →
      Spliced s s' slots (slots.set i (some (e, .directory b inner')))

/-- The last name of a route. -/
def lastName : Route → String
  | .invalid rest => rest
  | .last n => n
  | .step _ rest => lastName rest

/-- **A change edits one table**: the one in which the last name of the route is searched. -/
theorem change_spliced {edit : Slots α β ε → String → Except VolumeError (Slots α β ε)} {r : Route}
    (h : change name path edit r slots = .ok slots') :
    ∃ s s', Spliced s s' slots slots' ∧ edit s (lastName r) = .ok s' ∧
      follow name path r slots = follow name path (.last (lastName r)) s := by
  induction r generalizing slots slots' with
  | invalid rest => cases h
  | last n => exact ⟨slots, slots', .here, h, rfl⟩
  | step n rest ih =>
    unfold change at h
    unfold follow
    split at h
    · cases h
    · cases h
    · rename_i i e b inner hfind
      cases hinner : change name path edit rest inner with
      | error x =>
        rw [hinner] at h
        cases h
      | ok inner' =>
        rw [hinner] at h
        cases h
        obtain ⟨s, s', hs, hedit, hfollow⟩ := ih hinner
        exact ⟨s, s', .inside (find?_eq_some hfind).1 hs, hedit, hfollow⟩

/-- **What is added to one table** and taken from it is added to the tree and taken from it. -/
theorem Spliced.nodes_perm (h : Spliced s s' slots slots') {x y : List (α ⊕ β)}
    (hs : (nodes s' ++ x).Perm (nodes s ++ y)) : (nodes slots' ++ x).Perm (nodes slots ++ y) := by
  induction h with
  | here => exact hs
  | @inside slots inner inner' i e b hi _ ih =>
    obtain ⟨hlt, -⟩ := List.getElem?_eq_some_iff.mp hi
    have hnew := nodes_set_perm hlt e (.directory b inner')
    have hold := Slots.nodes_perm hi
    rw [Tree.nodes_directory] at hnew hold
    refine (hnew.append_right x).trans ((?_ : List.Perm _ _).trans (hold.append_right y).symm)
    have hmid : ∀ (l l' z : List (α ⊕ β)), (l ++ l' ++ z).Perm (l ++ z ++ l') := fun l l' z => by
      rw [List.append_assoc, List.append_assoc]
      exact List.perm_append_comm.append_left l
    refine (hmid _ _ _).trans (.trans ?_ (hmid _ _ _).symm)
    exact (ih.cons _).append_right _

/-! ## The two edits -/

theorem insert_eq_ok {label : String → ε} {t : Tree α β ε} {n : String}
    (h : insert name path label t s n = .ok s') :
    find? name s n = none ∧ ∃ i, s.findIdx? Option.isNone = some i ∧ s[i]? = some none ∧
      s' = s.set i (some (label n, t)) := by
  unfold insert at h
  split at h
  · cases h
  · rename_i hnone
    rw [Bool.not_eq_true, Option.isSome_eq_false_iff, Option.isNone_iff_eq_none] at hnone
    cases hi : s.findIdx? Option.isNone with
    | none =>
      rw [hi] at h
      cases h
    | some i =>
      rw [hi] at h
      cases h
      obtain ⟨hlt, hfree, -⟩ := List.findIdx?_eq_some_iff_getElem.mp hi
      rw [Option.isNone_iff_eq_none] at hfree
      exact ⟨hnone, i, rfl, by rw [List.getElem?_eq_getElem hlt, hfree], rfl⟩

theorem insert_nodes_perm {label : String → ε} {t : Tree α β ε} {n : String}
    (h : insert name path label t s n = .ok s') : (nodes s').Perm (nodes s ++ t.nodes) := by
  obtain ⟨-, i, -, hfree, rfl⟩ := insert_eq_ok h
  obtain ⟨hlt, hget⟩ := List.getElem?_eq_some_iff.mp hfree
  have := nodes_set_perm hlt (label n) t
  rw [← hget, List.set_getElem_self] at this
  exact this.trans List.perm_append_comm

theorem erase_eq_ok {n : String} (h : erase name path s n = .ok s') :
    ∃ i e t, find? name s n = some (i, e, t) ∧ s' = s.set i none := by
  unfold erase at h
  split at h
  · cases h
  · rename_i i p hfind
    cases h
    exact ⟨i, p.1, p.2, hfind, rfl⟩

/-- What is in the slots after an insertion was there before, or is the new tree. -/
theorem mem_insert {label : String → ε} {t t' : Tree α β ε} {n : String} {e : ε}
    (h : insert name path label t s n = .ok s') (ht : some (e, t') ∈ s') :
    some (e, t') ∈ s ∨ t' = t := by
  obtain ⟨-, i, -, -, rfl⟩ := insert_eq_ok h
  rcases mem_set ht with ht | ht
  · exact .inl (mem_of_mem_set_none ht)
  · cases ht
    exact .inr rfl

/-- What is in the slots after an erasure was there before. -/
theorem mem_erase {t : Tree α β ε} {n : String} {e : ε} (h : erase name path s n = .ok s')
    (ht : some (e, t) ∈ s') : some (e, t) ∈ s := by
  obtain ⟨i, -, -, -, rfl⟩ := erase_eq_ok h
  exact mem_of_mem_set_none ht

/-- **An insertion** adds the new tree to the files and directories. -/
theorem change_insert_nodes {label : String → ε} {t : Tree α β ε} {r : Route}
    (h : change name path (insert name path label t) r slots = .ok slots') :
    (nodes slots').Perm (nodes slots ++ t.nodes) := by
  obtain ⟨s, s', hs, hedit, -⟩ := change_spliced h
  have hterm := insert_nodes_perm hedit
  rw [← List.append_nil (nodes s')] at hterm
  have := hs.nodes_perm hterm
  rwa [List.append_nil] at this

/-- **What is inserted is found** at the end of the route, when its label has the name. -/
theorem follow_change_insert (label : String → ε) {t : Tree α β ε} {r : Route}
    (h : change name path (insert name path label t) r slots = .ok slots')
    (hlabel : name (label (lastName r)) = lastName r) :
    follow name path r slots' = .ok (label (lastName r), t) := by
  induction r generalizing slots slots' with
  | invalid rest => cases h
  | last n =>
    obtain ⟨hnone, i, -, hfree, rfl⟩ := insert_eq_ok h
    have hfind : find? name (slots.set i (some (label n, t))) n = some (i, label n, t) :=
      find?_set t (List.getElem?_eq_some_iff.mp hfree).1 hlabel fun j o _ ho =>
        isFor_eq_false hnone (List.mem_of_getElem? ho)
    unfold follow
    rw [hfind]
    rfl
  | step n rest ih =>
    unfold change at h
    split at h
    · cases h
    · cases h
    · rename_i i e b below hfind
      cases hbelow : change name path (insert name path label t) rest below with
      | error x =>
        rw [hbelow] at h
        cases h
      | ok below' =>
        rw [hbelow] at h
        cases h
        obtain ⟨hi, hname⟩ := find?_eq_some hfind
        unfold follow
        rw [find?_set _ (List.getElem?_eq_some_iff.mp hi).1 hname fun j o hj ho =>
          isFor_of_lt hfind hj ho]
        exact ih hbelow hlabel

/-- **An erasure** takes the tree at the end of the route from them. -/
theorem change_erase_nodes {r : Route} {e : ε} {t : Tree α β ε}
    (h : change name path (erase name path) r slots = .ok slots')
    (hfollow : follow name path r slots = .ok (e, t)) :
    (nodes slots).Perm (nodes slots' ++ t.nodes) := by
  obtain ⟨s, s', hs, hedit, heq⟩ := change_spliced h
  obtain ⟨i, e', t', hfind, rfl⟩ := erase_eq_ok hedit
  rw [hfollow, follow, hfind] at heq
  cases heq
  have hterm := Slots.nodes_perm (find?_eq_some hfind).1
  have hback : (nodes (s.set i none) ++ t.nodes).Perm (nodes s ++ []) := by
    rw [List.append_nil]
    exact List.perm_append_comm.trans hterm.symm
  have := hs.nodes_perm hback
  rw [List.append_nil] at this
  exact this.symm

/-- What was found can be erased. -/
theorem change_erase_ok {r : Route} {p : ε × Tree α β ε}
    (h : follow name path r slots = .ok p) :
    ∃ slots', change name path (erase name path) r slots = .ok slots' := by
  induction r generalizing slots with
  | invalid rest => cases h
  | last n =>
    unfold follow at h
    unfold change erase
    split at h
    · cases h
    · exact ⟨_, rfl⟩
  | step n rest ih =>
    unfold follow at h
    unfold change
    split at h
    · cases h
    · cases h
    · obtain ⟨below, hbelow⟩ := ih h
      rw [hbelow]
      exact ⟨_, rfl⟩

/-! ## Errors -/

/-- What is not found says nothing about the device. -/
theorem isDamage_of_follow {r : Route} {e : VolumeError}
    (h : follow name path r slots = .error e) : e.isDamage = false := by
  induction r generalizing slots with
  | invalid rest => cases h; rfl
  | last n =>
    unfold follow at h
    split at h
    · cases h; rfl
    · cases h
  | step n rest ih =>
    unfold follow at h
    split at h
    · cases h; rfl
    · cases h; rfl
    · exact ih h

theorem isDamage_of_change {edit : Slots α β ε → String → Except VolumeError (Slots α β ε)}
    (hedit : ∀ {s n e}, edit s n = .error e → e.isDamage = false) {r : Route} {e : VolumeError}
    (h : change name path edit r slots = .error e) : e.isDamage = false := by
  induction r generalizing slots with
  | invalid rest => cases h; rfl
  | last n => exact hedit h
  | step n rest ih =>
    unfold change at h
    split at h
    · cases h; rfl
    · cases h; rfl
    · rename_i below _
      cases hbelow : change name path edit rest below with
      | error x =>
        rw [hbelow] at h
        cases h
        exact ih hbelow
      | ok below' =>
        rw [hbelow] at h
        cases h

theorem isDamage_of_insert {label : String → ε} {t : Tree α β ε} {n : String} {e : VolumeError}
    (h : insert name path label t s n = .error e) : e.isDamage = false := by
  unfold insert at h
  split at h
  · cases h; rfl
  · split at h <;> cases h
    rfl

/-! ## Views of a tree -/

variable {f : α → α'} {g : β → β'} {h : ε → ε'} {name' : ε' → String}

theorem find?_map (hname : ∀ e, name' (h e) = name e) (slots : Slots α β ε) (n : String) :
    find? name' (map f g h slots) n =
      (find? name slots n).map (Prod.map id (Prod.map h (Tree.map f g h))) := by
  have hfor : isFor name' n ∘ Option.map (Prod.map h (Tree.map f g h)) = isFor name n := by
    funext slot
    cases slot with
    | none => rfl
    | some p => simp [isFor, hname]
  unfold find? map
  rw [List.findIdx?_map, hfor]
  cases slots.findIdx? (isFor name n) with
  | none => rfl
  | some i =>
    simp only [Option.bind_eq_bind, Option.bind_some, List.getElem?_map]
    cases slots[i]? with
    | none => rfl
    | some slot => cases slot <;> rfl

/-- **A view of a tree is followed** as the tree is. -/
theorem follow_map (hname : ∀ e, name' (h e) = name e) (r : Route) (slots : Slots α β ε) :
    follow name' path r (map f g h slots) =
      (follow name path r slots).map (Prod.map h (Tree.map f g h)) := by
  induction r generalizing slots with
  | invalid rest => rfl
  | last n =>
    unfold follow
    rw [find?_map hname]
    cases find? name slots n <;> rfl
  | step n rest ih =>
    unfold follow
    rw [find?_map hname]
    cases find? name slots n with
    | none => rfl
    | some p =>
      obtain ⟨i, e, t⟩ := p
      cases t with
      | file a => rfl
      | directory b below =>
        simp only [Option.map_some, Prod.map_apply, Tree.map_directory]
        exact ih below

theorem map_set (slots : Slots α β ε) (i : Nat) (o : Option (ε × Tree α β ε)) :
    map f g h (slots.set i o) =
      (map f g h slots).set i (o.map (Prod.map h (Tree.map f g h))) := List.map_set

/-- **A view of a tree is changed** as the tree is. -/
theorem change_map (hname : ∀ e, name' (h e) = name e)
    {edit : Slots α β ε → String → Except VolumeError (Slots α β ε)}
    {edit' : Slots α' β' ε' → String → Except VolumeError (Slots α' β' ε')} {r : Route}
    (hedit : ∀ s, edit' (map f g h s) (lastName r) = (edit s (lastName r)).map (map f g h))
    (slots : Slots α β ε) :
    change name' path edit' r (map f g h slots) =
      (change name path edit r slots).map (map f g h) := by
  induction r generalizing slots with
  | invalid rest => rfl
  | last n => exact hedit slots
  | step n rest ih =>
    unfold change
    rw [find?_map hname]
    cases find? name slots n with
    | none => rfl
    | some p =>
      obtain ⟨i, e, t⟩ := p
      cases t with
      | file a => rfl
      | directory b below =>
        simp only [Option.map_some, Prod.map_apply, Tree.map_directory, id_eq]
        rw [ih hedit below]
        cases change name path edit rest below with
        | error x => rfl
        | ok below' =>
          show Except.ok _ = Except.ok _
          rw [map_set, Option.map_some, Prod.map_apply, Tree.map_directory]

theorem insert_map (hname : ∀ e, name' (h e) = name e) {label : String → ε}
    {label' : String → ε'} (t : Tree α β ε) (s : Slots α β ε) {n : String}
    (hlabel : label' n = h (label n)) :
    insert name' path label' (t.map f g h) (map f g h s) n =
      (insert name path label t s n).map (map f g h) := by
  have hfree : Option.isNone ∘ Option.map (Prod.map h (Tree.map f g h)) =
      (Option.isNone : Option (ε × Tree α β ε) → Bool) := by
    funext slot
    cases slot <;> rfl
  unfold insert
  rw [find?_map hname, Option.isSome_map]
  split
  · rfl
  · rw [show (map f g h s).findIdx? Option.isNone = s.findIdx? Option.isNone by
      unfold map; rw [List.findIdx?_map, hfree]]
    cases s.findIdx? Option.isNone with
    | none => rfl
    | some i =>
      show Except.ok _ = Except.ok _
      rw [map_set, hlabel]
      rfl

theorem erase_map (hname : ∀ e, name' (h e) = name e) (s : Slots α β ε) (n : String) :
    erase name' path (map f g h s) n = (erase name path s n).map (map f g h) := by
  unfold erase
  rw [find?_map hname]
  cases find? name s n with
  | none => rfl
  | some p =>
    show Except.ok _ = Except.ok _
    rw [map_set]
    rfl

/-- **A view of an insertion** is an insertion of a view, when the label is viewed as one. -/
theorem change_insert_map (path : String) (hname : ∀ e, name' (h e) = name e)
    (label : String → ε) (label' : String → ε') (t : Tree α β ε) (slots : Slots α β ε) {r : Route}
    (hlabel : label' (lastName r) = h (label (lastName r))) :
    change name' path (insert name' path label' (t.map f g h)) r (map f g h slots) =
      (change name path (insert name path label t) r slots).map (map f g h) :=
  change_map hname (fun s => insert_map hname t s hlabel) slots

theorem change_erase_map (path : String) (hname : ∀ e, name' (h e) = name e)
    (slots : Slots α β ε) (r : Route) :
    change name' path (erase name' path) r (map f g h slots) =
      (change name path (erase name path) r slots).map (map f g h) :=
  change_map hname (fun s => erase_map hname s (lastName r)) slots

end Slots

end SectorChain
