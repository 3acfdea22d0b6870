import SectorChain.Proofs.Tree

/-!
# Slots by address

A directory in a tree has an address, the numbers of the slots on the way to it, and each of its
slots a number. An edit at the end of a route is one at such a place: first the slot is chosen, by
the tables on the way and the last one; then what is in it is replaced.

* `slot? dir i slots`: what is in slot `i` of the directory at `dir`.
* `write dir i o slots`: the slots with `o` there.
* `slotFor name path pick r slots`: the place that `pick` chooses in the table at the end of `r`.

Results:
* `label?_write`: every label stays that is not in the written slot or below it.
* `change_eq_write`: a change of one slot at the end of a route is a choice and a write.
* `change_insert_eq`, `change_erase_eq`: the two edits are such changes.
* `slot?_of_unused`, `slot?_of_follow`: the slots that these two choose, before and after.
-/

namespace SectorChain

namespace Slots

variable {α β ε : Type}

/-! ## One slot -/

/-- What is in slot `i` of the directory at an address. -/
def slot? : (dir : List Nat) → (i : Nat) → Slots α β ε → Option (ε × Tree α β ε)
  | [], i, slots => slots[i]?.join
  | j :: dir, i, slots =>
    match slots[j]?.join with
    | some (_, .directory _ below) => slot? dir i below
    | _ => none

/-- The slots with `o` in slot `i` of the directory at an address. -/
def write : (dir : List Nat) → (i : Nat) → Option (ε × Tree α β ε) → Slots α β ε → Slots α β ε
  | [], i, o, slots => slots.set i o
  | j :: dir, i, o, slots =>
    match slots[j]?.join with
    | some (e, .directory b below) => slots.set j (some (e, .directory b (write dir i o below)))
    | _ => slots

/-- The label in slot `i` of the directory at an address. -/
def label? (dir : List Nat) (i : Nat) (slots : Slots α β ε) : Option ε :=
  (slot? dir i slots).map Prod.fst

variable {o : Option (ε × Tree α β ε)} {i j : Nat} {e : ε} {t : Tree α β ε} {b : β}
  {slots below : Slots α β ε}

theorem slot?_step (h : slots[j]?.join = some (e, .directory b below)) (dir : List Nat) (i : Nat) :
    slot? (j :: dir) i slots = slot? dir i below := by
  rw [slot?, h]

theorem write_step (h : slots[j]?.join = some (e, .directory b below)) (dir : List Nat) (i : Nat)
    (o : Option (ε × Tree α β ε)) :
    write (j :: dir) i o slots = slots.set j (some (e, .directory b (write dir i o below))) := by
  rw [write, h]

theorem slot?_of_ne {a : Nat} (h : a ≠ j) (dir : List Nat) (i : Nat) :
    slot? (j :: dir) i (slots.set a o) = slot? (j :: dir) i slots := by
  rw [slot?, slot?, List.getElem?_set_ne h]

/-- What is in a slot of the directory is found in the slots that it is written to. -/
theorem join_set_self (hj : j < slots.length) : (slots.set j o)[j]?.join = o := by
  rw [List.getElem?_set_self hj]
  rfl

theorem lt_of_join {p : ε × Tree α β ε} (h : slots[j]?.join = some p) : j < slots.length :=
  (List.getElem?_eq_some_iff.mp (Option.join_eq_some_iff.mp h)).1

/-- **Every label stays** that is not in the slot that is written and not below it. -/
theorem label?_write {dir : List Nat} (o : Option (ε × Tree α β ε)) {dir' : List Nat}
    (h : ¬(dir ++ [i]) <+: (dir' ++ [j])) :
    label? dir' j (write dir i o slots) = label? dir' j slots := by
  unfold label?
  induction dir generalizing dir' slots with
  | nil =>
    cases dir' with
    | nil =>
      have hne : i ≠ j := by
        rintro rfl
        exact h (List.prefix_refl _)
      rw [slot?, slot?, write, List.getElem?_set_ne hne]
    | cons a dir' =>
      have hne : i ≠ a := by
        rintro rfl
        exact h ⟨dir' ++ [j], rfl⟩
      rw [write, slot?_of_ne hne]
  | cons a dir ih =>
    cases hslot : slots[a]?.join with
    | none => rw [write, hslot]
    | some p =>
      obtain ⟨e, t⟩ := p
      cases t with
      | file => rw [write, hslot]
      | directory b below =>
        rw [write_step hslot]
        have hself := join_set_self (o := some (e, .directory b (write dir i o below)))
          (lt_of_join hslot)
        cases dir' with
        | nil =>
          by_cases ha : a = j
          · subst ha
            rw [slot?, slot?, hself, hslot]
            rfl
          · rw [slot?, slot?, List.getElem?_set_ne ha]
        | cons a' dir' =>
          by_cases ha : a = a'
          · subst ha
            rw [slot?_step hself, slot?_step hslot]
            refine ih fun hpre => h ?_
            exact (List.prefix_cons_inj a).mpr hpre
          · rw [slot?_of_ne ha]

/-! ## The place of an edit -/

section Names

variable (name : ε → String) (path : String)

/-- The place that `pick` chooses in the table at the end of a route: the address of the directory
and the number of the slot. -/
def slotFor (pick : Slots α β ε → String → Except VolumeError Nat) :
    Route → Slots α β ε → Except VolumeError (List Nat × Nat)
  | .invalid rest, _ => .error (.invalidPath rest)
  | .last n, slots => (pick slots n).map fun i => ([], i)
  | .step n rest, slots =>
    match find? name slots n with
    | none => .error (.notFound path)
    | some (_, _, .file _) => .error (.notADirectory path)
    | some (i, _, .directory _ below) => (slotFor pick rest below).map fun a => (i :: a.1, a.2)

/-- The first unused slot. -/
def unused (slots : Slots α β ε) (_ : String) : Except VolumeError Nat :=
  match slots.findIdx? Option.isNone with
  | none => .error (.directoryFull path)
  | some i => .ok i

/-- The first slot with a tree of this name. -/
def named (slots : Slots α β ε) (n : String) : Except VolumeError Nat :=
  match find? name slots n with
  | none => .error (.notFound path)
  | some (i, _) => .ok i

end Names

variable {name : ε → String} {path : String} {r : Route} {dir : List Nat}

theorem join_of_find? {n : String} (h : find? name slots n = some (i, e, t)) :
    slots[i]?.join = some (e, t) := by
  rw [(find?_eq_some h).1]
  rfl

theorem follow_step {n : String} {rest : Route}
    (h : find? name slots n = some (i, e, .directory b below)) :
    follow name path (.step n rest) slots = follow name path rest below := by
  rw [follow, h]

/-- **A change of one slot** of the last table is a write to the place that is chosen there. -/
theorem change_eq_write {edit : Slots α β ε → String → Except VolumeError (Slots α β ε)}
    {pick : Slots α β ε → String → Except VolumeError Nat}
    (hedit : ∀ s, follow name path (.last (lastName r)) s = follow name path r slots →
      edit s (lastName r) = (pick s (lastName r)).map fun i => s.set i o) :
    change name path edit r slots =
      (slotFor name path pick r slots).map fun a => write a.1 a.2 o slots := by
  induction r generalizing slots with
  | invalid rest => rfl
  | last n =>
    have hlast : edit slots n = (pick slots n).map fun i => slots.set i o := hedit slots rfl
    rw [change, slotFor, hlast]
    cases pick slots n <;> rfl
  | step n rest ih =>
    cases hfind : find? name slots n with
    | none =>
      rw [change, slotFor, hfind]
      rfl
    | some p =>
      obtain ⟨i, e, t⟩ := p
      cases t with
      | file a =>
        rw [change, slotFor, hfind]
        rfl
      | directory b below =>
        rw [change, slotFor, hfind]
        dsimp only
        rw [ih fun s hs => hedit s (hs.trans (follow_step hfind).symm)]
        cases slotFor name path pick rest below with
        | error x => rfl
        | ok a =>
          show Except.ok _ = Except.ok (write (i :: a.1) a.2 o slots)
          rw [write_step (join_of_find? hfind)]

/-- **An insertion** of a name that is not there goes to the first unused slot. -/
theorem change_insert_eq {label : String → ε} {x : VolumeError}
    (h : follow name path r slots = .error x) (t : Tree α β ε) :
    change name path (insert name path label t) r slots =
      (slotFor name path (unused path) r slots).map fun a =>
        write a.1 a.2 (some (label (lastName r), t)) slots := by
  refine change_eq_write fun s hs => ?_
  rw [h, follow] at hs
  cases hfind : find? name s (lastName r) with
  | some p =>
    rw [hfind] at hs
    cases hs
  | none =>
    rw [insert, hfind, unused, Option.isSome_none, if_neg Bool.false_ne_true]
    cases s.findIdx? Option.isNone <;> rfl

/-- **An erasure** leaves the first slot of the name unused. -/
theorem change_erase_eq (r : Route) (slots : Slots α β ε) :
    change name path (erase name path) r slots =
      (slotFor name path (named name path) r slots).map fun a => write a.1 a.2 none slots := by
  refine change_eq_write fun s _ => ?_
  rw [erase, named]
  cases find? name s (lastName r) <;> rfl

/-- **The chosen place is a slot of one table**: the one in which the last name of the route is
searched. What is written there is written to this table. -/
theorem exists_table {pick : Slots α β ε → String → Except VolumeError Nat}
    (h : slotFor name path pick r slots = .ok (dir, i)) :
    ∃ table : Slots α β ε, pick table (lastName r) = .ok i ∧
      follow name path r slots = follow name path (.last (lastName r)) table ∧
      (∀ j, slot? dir j slots = table[j]?.join) ∧
      ∀ o, slot? dir i (write dir i o slots) = (table.set i o)[i]?.join := by
  induction r generalizing dir slots with
  | invalid rest => cases h
  | last n =>
    rw [slotFor] at h
    cases hpick : pick slots n with
    | error x =>
      rw [hpick] at h
      cases h
    | ok a =>
      rw [hpick] at h
      cases h
      exact ⟨slots, hpick, rfl, fun _ => rfl, fun _ => rfl⟩
  | step n rest ih =>
    rw [slotFor] at h
    cases hfind : find? name slots n with
    | none =>
      rw [hfind] at h
      cases h
    | some q =>
      obtain ⟨a, e, t⟩ := q
      rw [hfind] at h
      cases t with
      | file => cases h
      | directory b below =>
        dsimp only at h
        cases hslot : slotFor name path pick rest below with
        | error x =>
          rw [hslot] at h
          cases h
        | ok place =>
          obtain ⟨dir', i'⟩ := place
          rw [hslot] at h
          cases h
          obtain ⟨table, hpick, hfollow, hslots, hwrite⟩ := ih hslot
          have hjoin := join_of_find? hfind
          refine ⟨table, hpick, ?_, fun j => ?_, fun o => ?_⟩
          · exact (follow_step hfind).trans hfollow
          · exact (slot?_step hjoin dir' j).trans (hslots j)
          · have hself := join_set_self (o := some (e, .directory b (write dir' i' o below)))
              (lt_of_join hjoin)
            exact (congrArg (slot? _ _) (write_step hjoin dir' i' o)).trans
              ((slot?_step hself dir' i').trans (hwrite o))

/-- The first unused slot of the directory has nothing in it, and those before it have. What is
put into it is found there. -/
theorem slot?_of_unused (h : slotFor name path (unused path) r slots = .ok (dir, i)) :
    slot? dir i slots = none ∧ (∀ j < i, slot? dir j slots ≠ none) ∧
      ∀ o, slot? dir i (write dir i o slots) = o := by
  obtain ⟨table, hpick, -, hslots, hwrite⟩ := exists_table h
  rw [unused] at hpick
  cases hidx : table.findIdx? Option.isNone with
  | none =>
    rw [hidx] at hpick
    cases hpick
  | some a =>
    rw [hidx] at hpick
    cases hpick
    obtain ⟨hlt, hfree, hbefore⟩ := List.findIdx?_eq_some_iff_getElem.mp hidx
    refine ⟨?_, fun j hj hnone => ?_, fun o => (hwrite o).trans (join_set_self hlt)⟩
    · rw [hslots, List.getElem?_eq_getElem hlt, Option.isNone_iff_eq_none.mp hfree]
      rfl
    · rw [hslots, List.getElem?_eq_getElem (Nat.lt_trans hj hlt)] at hnone
      exact hbefore j hj (Option.isNone_iff_eq_none.mpr hnone)

/-- What is found at the end of a route is in the slot that an erasure takes out of use. -/
theorem slot?_of_follow {p : ε × Tree α β ε} (h : follow name path r slots = .ok p) :
    ∃ dir i, slotFor name path (named name path) r slots = .ok (dir, i) ∧
      slot? dir i slots = some p ∧ slot? dir i (write dir i none slots) = none := by
  obtain ⟨slots', herase⟩ := change_erase_ok h
  rw [change_erase_eq] at herase
  cases hslot : slotFor name path (named name path) r slots with
  | error x =>
    rw [hslot] at herase
    cases herase
  | ok place =>
    obtain ⟨dir, i⟩ := place
    obtain ⟨table, hpick, hfollow, hslots, hwrite⟩ := exists_table hslot
    rw [h, follow] at hfollow
    rw [named] at hpick
    cases hfind : find? name table (lastName r) with
    | none =>
      rw [hfind] at hpick
      cases hpick
    | some q =>
      rw [hfind] at hpick hfollow
      cases hpick
      cases hfollow
      have hjoin := join_of_find? hfind
      exact ⟨dir, q.1, rfl, (hslots _).trans hjoin,
        (hwrite none).trans (join_set_self (lt_of_join hjoin))⟩

end Slots

end SectorChain
