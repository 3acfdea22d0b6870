import SectorChain.Proofs.Addresses
import SectorChain.Proofs.Namespace

/-!
# What making and removing come to

Making and removing go through checks in a fixed order: of the path, of what is there already, of
the room that is left or the ids that are open, and of the tables on the way. The first check that
refuses decides the error. `Inventory.makeOutcome` and `Inventory.removeOutcome` write this order
down; when nothing refuses, they give the place of the slot that is taken into use or out of it.

The search for an open id goes through a tree in the order of `Tree.walk`: each directory before
what is in it, and that in the order of the slots.

Results:
* `firstOpen_eq_find?`: a release stops at the first of this walk that is open.
* `make_concludes`, `remove_concludes`: on a consistent volume, both come to their outcome.
* `reached_make_outcome`: in every state of a run making comes to its outcome, in the lowest free
  sectors and the lowest unused slot.
* `reached_remove_outcome`: so does removing, which gives back just the sectors of the tree.
-/

namespace SectorChain

/-! ## The order of a walk -/

namespace Tree

/-- The path and the header sector of each file and directory of a tree that is at `path`: each
directory before what is in it, and that in the order of the slots. -/
def walk : Tree Stored Place Entry → (path : String) → List (String × Nat) :=
  fold (fun f path => [(path, f.place.sector)]) fun p below path =>
    (path, p.sector) :: below.reduceOption.flatMap fun q => q.2 (Path.join path q.1.name)

theorem walk_directory (p : Place) (slots : NodeSlots) (path : String) :
    (directory p slots).walk path = (path, p.sector) ::
      (Slots.children slots).flatMap fun q => q.2.walk (Path.join path q.1.name) := by
  unfold walk
  rw [fold, foldSlots_eq, List.reduceOption_map, List.flatMap_map]
  rfl

/-- **The first open file** of a tree is the first one on the walk. -/
theorem firstOpen_eq_find? (isOpen : Nat → Bool) (t : Node) (path : String) :
    t.firstOpen isOpen path = ((t.walk path).find? fun q => isOpen q.2).map Prod.fst := by
  induction t using Tree.induction generalizing path with
  | file f =>
    show (if isOpen f.place.sector then some path else none) =
      ([(path, f.place.sector)].find? fun q => isOpen q.2).map Prod.fst
    cases h : isOpen f.place.sector <;> simp [h]
  | directory p slots ih =>
    rw [firstOpen_directory, walk_directory]
    cases h : isOpen p.sector with
    | true => simp [h]
    | false =>
      have hskip : ((path, p.sector) :: (Slots.children slots).flatMap fun q =>
            q.2.walk (Path.join path q.1.name)).find? (fun q => isOpen q.2) =
          ((Slots.children slots).flatMap fun q => q.2.walk (Path.join path q.1.name)).find?
            fun q => isOpen q.2 := List.find?_cons_of_neg (by simp [h])
      rw [hskip, if_neg Bool.false_ne_true, List.find?_flatMap, List.map_findSome?,
        ← List.head?_filterMap, ← List.head?_filterMap]
      refine congrArg List.head? (List.filterMap_congr fun q hq => ?_)
      exact ih q.1 q.2 (Slots.mem_children.mp hq) _

end Tree

/-! ## The order of the checks -/

theorem Path.validate_error {path : String} {e : VolumeError} (h : validate path = .error e) :
    e = .invalidPath path := by
  unfold validate at h
  split at h
  · cases h
  · split at h <;> cases h
    rfl

theorem Path.fault?_of_validate {path : String} (h : validate path = .ok ()) (hroot : path ≠ "/") :
    (Route.ofPath path).fault? = none := by
  unfold validate at h
  rw [if_neg hroot] at h
  cases hfault : (Route.ofPath path).fault? with
  | none => rfl
  | some rest =>
    rw [hfault] at h
    cases h

/-- On a route without a fault, nothing is found for want of a name, or of a directory. -/
theorem Slots.follow_error {α β ε : Type} {name : ε → String} {path : String} {r : Route}
    {slots : Slots α β ε} {x : VolumeError} (hr : r.fault? = none)
    (h : follow name path r slots = .error x) : x = .notFound path ∨ x = .notADirectory path := by
  induction r generalizing slots with
  | invalid rest => cases hr
  | last n =>
    unfold follow at h
    split at h
    · cases h
      exact .inl rfl
    · cases h
  | step n rest ih =>
    unfold follow at h
    split at h
    · cases h
      exact .inl rfl
    · cases h
      exact .inr rfl
    · exact ih hr h

namespace Inventory

/-- **What making comes to**, with `numFree` free sectors and blocks for `data` bytes: the error of
the first check that refuses, or the place of the new entry. -/
def makeOutcome (inv : Inventory) (numFree data : Nat) (path : String) (size : Nat) :
    Except VolumeError (List Nat × Nat) :=
  if (Path.validate path).isOk = false then .error (.invalidPath path)
  else if path = "/" ∨ (inv.find path).isOk = true then .error (.alreadyExists path)
  else if 0x80000000 ≤ size ∨ numFree < 1 + Layout.blocksFor size data then .error .outOfSpace
  else Slots.slotFor Entry.name path (Slots.unused path) (.ofPath path) inv.slots

/-- **What removing comes to** while the headers in some sectors are open: the error of the first
check that refuses, or the place of the old entry. -/
def removeOutcome (inv : Inventory) (isOpen : Nat → Bool) (path : String) (recursive : Bool) :
    Except VolumeError (List Nat × Nat) :=
  if (Path.validate path).isOk = false ∨ path = "/" then .error (.invalidPath path)
  else match inv.find path with
    | .error e => .error e
    | .ok (_, t) =>
      if t.occupied = true ∧ recursive = false then .error (.directoryNotEmpty path)
      else match (t.walk path).find? fun q => isOpen q.2 with
        | some q => .error (.stillOpen q.1)
        | none =>
          Slots.slotFor Entry.name path (Slots.named Entry.name path) (.ofPath path) inv.slots

/-- A node with a new name goes to the first unused slot of its directory. -/
theorem insert_eq {inv : Inventory} {path : String} {x : VolumeError}
    (hfind : inv.find path = .error x) (t : Node) :
    inv.insert path t =
      (Slots.slotFor Entry.name path (Slots.unused path) (.ofPath path) inv.slots).map fun a =>
        Slots.write a.1 a.2
          (some (.ofFile (Slots.lastName (.ofPath path)) t.kind t.place.sector, t)) inv.slots :=
  Slots.change_insert_eq hfind t

/-- The node that is erased is the first of its name in its directory. -/
theorem erase_eq (inv : Inventory) (path : String) :
    inv.erase path =
      (Slots.slotFor Entry.name path (Slots.named Entry.name path) (.ofPath path) inv.slots).map
        fun a => Slots.write a.1 a.2 none inv.slots :=
  Slots.change_erase_eq _ _

/-- At the end of a valid path nothing is found for want of a name, or of a directory. -/
theorem find_error {inv : Inventory} {path : String} {x : VolumeError}
    (hpath : Path.validate path = .ok ()) (hroot : path ≠ "/") (hfind : inv.find path = .error x) :
    x = .notFound path ∨ x = .notADirectory path :=
  Slots.follow_error (Path.fault?_of_validate hpath hroot) hfind

/-- **What was made**: a file or directory at the place `p`, with its entry in slot `i` of the
directory at `dir`, where blocks hold `data` bytes; the inventory and the free map before and
after. -/
structure Made (path : String) (kind : Kind) (size data : Nat) (dir : List Nat) (i : Nat)
    (p : Place) (inv : Inventory) (m : FreeMap) (inv' : Inventory) (m' : FreeMap) : Prop where
  length : p.header.length = size
  blocks : p.chain.length = Layout.blocksFor size data
  /-- The header is in the lowest free sector, and the chain in those that follow. -/
  lowest : p.sectors = m.free.take (1 + Layout.blocksFor size data)
  unused : Slots.slot? dir i inv.slots = none
  /-- No slot before it was unused. -/
  first : ∀ j < i, Slots.slot? dir j inv.slots ≠ none
  entry : Slots.slot? dir i inv'.slots =
    some (.ofFile (Slots.lastName (.ofPath path)) kind p.sector, Node.blank kind p size)
  slots : inv'.slots = Slots.write dir i (Slots.slot? dir i inv'.slots) inv.slots
  used : ∀ s, m'.isUsed s = true ↔ m.isUsed s = true ∨ s ∈ p.sectors
  numFree : m'.numFree + (1 + Layout.blocksFor size data) = m.numFree

/-- **What was removed**: the entry `e` from slot `i` of the directory at `dir`, and the tree `t`
that it led to; the inventory and the free map before and after. -/
structure Removed (dir : List Nat) (i : Nat) (e : Entry) (t : Node) (inv : Inventory)
    (m : FreeMap) (inv' : Inventory) (m' : FreeMap) : Prop where
  entry : Slots.slot? dir i inv.slots = some (e, t)
  unused : Slots.slot? dir i inv'.slots = none
  slots : inv'.slots = Slots.write dir i none inv.slots
  /-- The entries that are not in this slot or below it stay in their slots. -/
  others : ∀ dir' j, ¬(dir ++ [i]) <+: (dir' ++ [j]) →
    Slots.label? dir' j inv'.slots = Slots.label? dir' j inv.slots
  held : ∀ s ∈ t.sectors, m.isUsed s = true
  used : ∀ s, m'.isUsed s = true ↔ m.isUsed s = true ∧ s ∉ t.sectors
  numFree : m'.numFree = m.numFree + t.sectors.length

end Inventory

namespace Volume

/-! ## On a consistent volume -/

/-- The operation answers or fails as `r` says, and if it answers, then `P` holds of the place and
of the disk that is left. -/
def Concludes (x : DriveM Unit) (k : Disk) (r : Except VolumeError (List Nat × Nat))
    (P : List Nat → Nat → Disk → Prop) : Prop :=
  ∃ k', Yields x k (r.map fun _ => ()) k' ∧ ∀ dir i, r = .ok (dir, i) → P dir i k'

/-- The volume is consistent with what was made at this place. -/
def HasMade (v : Volume) (k : Disk) (inv : Inventory) (path : String) (kind : Kind) (size : Nat)
    (dir : List Nat) (i : Nat) (k' : Disk) : Prop :=
  ∃ p inv', k.SameSize k' ∧ v.Consistent k' inv' ∧
    Inventory.Made path kind size k.dataSize dir i p inv (inv.freeMap k.sectors) inv'
      (inv'.freeMap k'.sectors)

/-- The volume is consistent without what was removed from this place. What is found at the path,
if anything, is something else. -/
def HasRemoved (v : Volume) (k : Disk) (inv : Inventory) (path : String) (dir : List Nat) (i : Nat)
    (k' : Disk) : Prop :=
  ∃ e t inv', inv.find path = .ok (e, t) ∧ k.SameSize k' ∧ v.Consistent k' inv' ∧
    Inventory.Removed dir i e t inv (inv.freeMap k.sectors) inv' (inv'.freeMap k'.sectors) ∧
    ∀ e' t', inv'.find path = .ok (e', t') → e'.sector? ≠ e.sector?

section

variable {x : DriveM Unit} {k k' : Disk} {r : Except VolumeError (List Nat × Nat)}
  {P : List Nat → Nat → Disk → Prop}

theorem Concludes.error {e : VolumeError} (h : Yields x k (.error e) k') (hr : r = .error e) :
    Concludes x k r P := by
  subst hr
  refine ⟨k', h, fun dir i heq => ?_⟩
  cases heq

theorem Concludes.ok {dir : List Nat} {i : Nat} (h : Yields x k (.ok ()) k')
    (hr : r = .ok (dir, i)) (hP : P dir i k') : Concludes x k r P := by
  subst hr
  refine ⟨k', h, fun dir' i' heq => ?_⟩
  cases heq
  exact hP

end

namespace Consistent

variable {v : Volume} {k : Disk} {inv : Inventory} {path : String} {kind : Kind} {size : Nat}
  {recursive : Bool}

/-- With room for it, a new node is made in the lowest free sectors, the header first, unless the
slots refuse it. -/
theorem make_lowest (h : v.Consistent k inv) (hpath : Path.validate path = .ok ())
    (hroot : path ≠ "/") {x : VolumeError} (hfind : inv.find path = .error x)
    (hsize : size < 0x80000000)
    (hroom : 1 + Layout.blocksFor size k.dataSize ≤ (inv.freeMap k.sectors).numFree)
    (hdir : kind = .directory → size = Layout.directorySize) :
    ∃ p : Place, p.header.length = size ∧ p.chain.length = Layout.blocksFor size k.dataSize ∧
      p.sectors = (inv.freeMap k.sectors).free.take (1 + Layout.blocksFor size k.dataSize) ∧
      match inv.insert path (Node.blank kind p size) with
      | .error e => ∃ k', Yields (v.make path kind size) k (.error e) k' ∧
          k.Keeps k' (· ∈ inv.sectors)
      | .ok slots => ∃ k' content, Yields (v.make path kind size) k (.ok ()) k' ∧
          k.SameSize k' ∧ v.Consistent k' ⟨⟨inv.mapFile.place, content⟩, inv.root, slots⟩ := by
  have hblocks := Layout.blocksFor_le size h.dataSize_pos
  rw [FreeMap.numFree_eq] at hroom
  cases hfree : (inv.freeMap k.sectors).free with
  | nil =>
    rw [hfree, List.length_nil] at hroom
    omega
  | cons s rest =>
    rw [hfree, List.length_cons] at hroom
    have hrest : Layout.blocksFor size k.dataSize ≤ rest.length := by omega
    have hfits : Disk.Fits k ((inv.freeMap k.sectors).mark s) size := by
      refine ⟨hsize, Nat.lt_of_le_of_lt hblocks hsize, ?_⟩
      rw [FreeMap.free_mark_head hfree]
      exact hrest
    obtain ⟨header, hheader, hmake⟩ := h.make_yields hpath hroot hfind hfree hfits hdir
    refine ⟨_, hheader, List.length_take_of_le hrest, ?_, hmake⟩
    rw [Nat.add_comm 1, List.take_succ_cons]
    rfl

/-- The free maps of two volumes of one size, of which one has the sectors of `l` more in use. -/
theorem free_perm {inv' : Inventory} {k' : Disk} {l : List Nat} (h : v.Consistent k inv)
    (h' : v.Consistent k' inv') (hsize : k'.sectors = k.sectors)
    (hperm : inv'.sectors.Perm (inv.sectors ++ l)) :
    (∀ s, (inv'.freeMap k'.sectors).isUsed s = true ↔
      (inv.freeMap k.sectors).isUsed s = true ∨ s ∈ l) ∧
    (∀ s ∈ l, (inv.freeMap k.sectors).isUsed s ≠ true) ∧
    (inv'.freeMap k'.sectors).numFree + l.length = (inv.freeMap k.sectors).numFree := by
  obtain ⟨-, -, hapart⟩ := List.nodup_append.mp (hperm.nodup_iff.mp h'.nodup)
  refine ⟨fun s => ?_, fun s hs hused => ?_, ?_⟩
  · rw [h'.used, h.used, hperm.mem_iff, List.mem_append]
  · exact hapart s ((h.used s).mp hused) s hs rfl
  · have hfree := h.numFree_add
    have hfree' := h'.numFree_add
    rw [hperm.length_eq, List.length_append] at hfree'
    omega

/-- Without room for a header and the blocks, nothing is made. -/
theorem make_roomless (h : v.Consistent k inv) (hpath : Path.validate path = .ok ())
    (hroot : path ≠ "/") {x : VolumeError} (hfind : inv.find path = .error x)
    (hroom : 0x80000000 ≤ size ∨
      (inv.freeMap k.sectors).numFree < 1 + Layout.blocksFor size k.dataSize) :
    Yields (v.make path kind size) k (.error .outOfSpace) k := by
  refine h.make_full hpath hroot hfind ?_
  intro s rest hfree hfits
  have hrest := hfits.free
  rw [FreeMap.free_mark_head hfree] at hrest
  rw [FreeMap.numFree_eq, hfree, List.length_cons] at hroom
  have hlt := hfits.size_lt
  omega

/-- With room for it, only the slots can refuse a new name. -/
theorem make_admitted (h : v.Consistent k inv) (hpath : Path.validate path = .ok ())
    (hroot : path ≠ "/") {x : VolumeError} (hfind : inv.find path = .error x)
    (hsize : size < 0x80000000)
    (hroom : 1 + Layout.blocksFor size k.dataSize ≤ (inv.freeMap k.sectors).numFree)
    (hdir : kind = .directory → size = Layout.directorySize) :
    Concludes (v.make path kind size) k
      (Slots.slotFor Entry.name path (Slots.unused path) (.ofPath path) inv.slots)
      (v.HasMade k inv path kind size) := by
  obtain ⟨p, hlength, hblocks, hlowest, hmake⟩ :=
    h.make_lowest hpath hroot hfind hsize hroom hdir
  have hinsert := Inventory.insert_eq hfind (Node.blank kind p size)
  rw [Node.kind_blank, Node.place_blank] at hinsert
  cases hslot : Slots.slotFor Entry.name path (Slots.unused path) (.ofPath path) inv.slots with
  | error e =>
    rw [hinsert, hslot] at hmake
    obtain ⟨k', hy, -⟩ := hmake
    exact .error hy rfl
  | ok a =>
    obtain ⟨dir, i⟩ := a
    rw [hslot] at hinsert
    rw [hinsert] at hmake
    obtain ⟨k', content, hy, hsame, hv⟩ := hmake
    obtain ⟨hunused, hfirst, hentry⟩ := Slots.slot?_of_unused hslot
    have hperm := Inventory.insert_sectors hinsert content
    rw [Node.sectors_blank] at hperm
    obtain ⟨hused, -, hcount⟩ := h.free_perm hv hsame.sectors hperm
    rw [Place.sectors, List.length_cons, hblocks, Nat.add_comm _ 1] at hcount
    refine .ok hy rfl ⟨p, _, hsame, hv, ?_⟩
    exact {
      length := hlength
      blocks := hblocks
      lowest := hlowest
      unused := hunused
      first := hfirst
      entry := hentry _
      slots := by rw [hentry]
      used := hused
      numFree := hcount }

/-- **Making comes to its outcome.** -/
theorem make_concludes (h : v.Consistent k inv) (path : String) (kind : Kind) (size : Nat)
    (hdir : kind = .directory → size = Layout.directorySize) :
    Concludes (v.make path kind size) k
      (inv.makeOutcome (inv.freeMap k.sectors).numFree k.dataSize path size)
      (v.HasMade k inv path kind size) := by
  unfold Inventory.makeOutcome
  cases hpath : Path.validate path with
  | error e =>
    rw [Path.validate_error hpath] at hpath
    exact .error (make_refused k (.inl hpath)) (if_pos rfl)
  | ok _ =>
    rw [if_neg (by simp [Except.isOk, Except.toBool])]
    by_cases hroot : path = "/"
    · exact .error (make_refused k (.inr ⟨hroot, rfl⟩)) (if_pos (.inl hroot))
    cases hfind : inv.find path with
    | ok q => exact .error (h.make_exists hpath hroot hfind) (if_pos (.inr rfl))
    | error x =>
      rw [if_neg (by simp [hroot, Except.isOk, Except.toBool])]
      by_cases hroom : 0x80000000 ≤ size ∨
          (inv.freeMap k.sectors).numFree < 1 + Layout.blocksFor size k.dataSize
      · exact .error (h.make_roomless hpath hroot hfind hroom) (if_pos hroom)
      · rw [if_neg hroom]
        obtain ⟨hsize, hfree⟩ := not_or.mp hroom
        exact h.make_admitted hpath hroot hfind (Nat.not_le.mp hsize) (Nat.not_lt.mp hfree) hdir

/-- A tree that nothing protects is removed. -/
theorem remove_admitted (h : v.Consistent k inv) (hpath : Path.validate path = .ok ())
    (hroot : path ≠ "/") {e : Entry} {t : Node} (hfind : inv.find path = .ok (e, t))
    (hempty : t.occupied = true → recursive = true)
    (hclosed : t.firstOpen v.openFiles.holds path = none) :
    Concludes (v.remove path recursive) k
      (Slots.slotFor Entry.name path (Slots.named Entry.name path) (.ofPath path) inv.slots)
      (v.HasRemoved k inv path) := by
  obtain ⟨slots, k', content, herase, hy, hsame, hv⟩ :=
    h.remove_yields hpath hroot hfind hempty hclosed
  obtain ⟨dir, i, hslot, hentry, hunused⟩ := Slots.slot?_of_follow hfind
  have hslots := Inventory.erase_eq inv path
  rw [hslot, herase] at hslots
  cases hslots
  have hperm := Inventory.erase_sectors herase hfind content
  obtain ⟨hused, hcleared, hcount⟩ := hv.free_perm h hsame.sectors.symm hperm
  refine .ok hy hslot ⟨e, t, _, hfind, hsame, hv, ?_, fun e' t' hfind' hsector => ?_⟩
  · exact {
      entry := hentry
      unused := hunused
      slots := rfl
      others := fun dir' j hout => Slots.label?_write none hout
      held := fun s hs => (hused s).mpr (.inr hs)
      used := fun s => ⟨fun hs => ⟨(hused s).mpr (.inl hs), fun hmem => hcleared s hmem hs⟩,
        fun hs => ((hused s).mp hs.1).resolve_right hs.2⟩
      numFree := hcount.symm }
  -- both entries lead to headers, which are in different sectors
  · obtain ⟨x, hx, hxp⟩ := Node.exists_root t'
    obtain ⟨y, hy, hyp⟩ := Node.exists_root t
    rw [(hv.found hfind').2.2.1, (h.found hfind).2.2.1, ← hxp, ← hyp] at hsector
    exact Inventory.erase_apart herase hfind h.nodup (Inventory.find_nodes hfind' hx) hy
      (Option.some.inj hsector)

/-- **Removing comes to its outcome.** -/
theorem remove_concludes (h : v.Consistent k inv) (path : String) (recursive : Bool) :
    Concludes (v.remove path recursive) k
      (inv.removeOutcome v.openFiles.holds path recursive) (v.HasRemoved k inv path) := by
  unfold Inventory.removeOutcome
  cases hpath : Path.validate path with
  | error e =>
    rw [Path.validate_error hpath] at hpath
    exact .error (remove_refused k (.inl hpath)) (if_pos (.inl rfl))
  | ok _ =>
    by_cases hroot : path = "/"
    · exact .error (remove_refused k (.inr ⟨hroot, rfl⟩)) (if_pos (.inr hroot))
    rw [if_neg (by simp [hroot, Except.isOk, Except.toBool])]
    cases hfind : inv.find path with
    | error x => exact .error (h.remove_missing hpath hroot hfind) rfl
    | ok q =>
      obtain ⟨e, t⟩ := q
      dsimp only
      by_cases hfull : t.occupied = true ∧ recursive = false
      · rw [if_pos hfull]
        obtain ⟨hoccupied, rfl⟩ := hfull
        exact .error (h.remove_occupied hpath hroot hfind hoccupied) rfl
      · rw [if_neg hfull]
        have hempty : t.occupied = true → recursive = true := by
          intro hoccupied
          by_contra hrecursive
          exact hfull ⟨hoccupied, Bool.eq_false_iff.mpr hrecursive⟩
        have hfirst := t.firstOpen_eq_find? v.openFiles.holds path
        cases hopen : (t.walk path).find? fun q => v.openFiles.holds q.2 with
        | some q =>
          rw [hopen] at hfirst
          exact .error (h.remove_open hpath hroot hfind hempty hfirst) rfl
        | none =>
          rw [hopen] at hfirst
          exact h.remove_admitted hpath hroot hfind hempty hfirst

end Consistent

end Volume

/-! ## In a run -/

namespace Request

variable {q : Request} {path : String} {kind : Kind} {size : Nat}

/-- All new directories have one size. -/
theorem size_of_makes (hq : q.makes = some (path, kind, size)) :
    kind = .directory → size = Layout.directorySize := by
  rintro rfl
  cases q with
  | makeDirectory path =>
    cases hq
    rfl
  | _ => cases hq

theorem perform_of_makes (hq : q.makes = some (path, kind, size)) (v : Volume) :
    q.perform v = do v.make path kind size; return (.done, v) := by
  cases q with
  | create path size =>
    cases hq
    rfl
  | makeDirectory path =>
    cases hq
    rfl
  | _ => cases hq

end Request

namespace Usage

variable {blank : Drive} {u : Usage}

/-- A call that is nothing but an operation on the volume ends as the operation does. -/
theorem call_concludes {q : Request} {x : DriveM Unit} {r : Except VolumeError (List Nat × Nat)}
    {P : List Nat → Nat → Disk → Prop} (hd : u.drive.FaultFree)
    (hperform : q.perform u.volume = do x; return (.done, u.volume))
    (h : Volume.Concludes x u.drive.disk r P) :
    (u.call q).1 = r.map (fun _ => .done) ∧ (u.call q).2.volume = u.volume ∧
      (u.call q).2.drive.FaultFree ∧
      ∀ dir i, r = .ok (dir, i) → P dir i (u.call q).2.drive.disk := by
  obtain ⟨k', hy, hP⟩ := h
  cases r with
  | error e =>
    have hrun : Yields (q.perform u.volume) u.drive.disk (.error e) k' := by
      rw [hperform]
      exact Yields.bind_error hy
    obtain ⟨d, hd', rfl, hcall⟩ := call_error hd hrun
    rw [hcall]
    exact ⟨rfl, rfl, hd', hP⟩
  | ok a =>
    have hrun : Yields (q.perform u.volume) u.drive.disk (.ok (.done, u.volume)) k' := by
      rw [hperform]
      exact Yields.bind hy (Yields.pure _ k')
    obtain ⟨d, hd', rfl, hcall⟩ := call_ok hd hrun
    rw [hcall]
    exact ⟨rfl, rfl, hd', hP⟩

/-- A call makes what it comes to. -/
theorem Sound.call_makes {inv : Inventory} (h : u.Sound inv) {q : Request} {path : String}
    {kind : Kind} {size : Nat} (hq : q.makes = some (path, kind, size)) {dir : List Nat} {i : Nat}
    (houtcome : inv.makeOutcome (inv.freeMap u.drive.disk.sectors).numFree u.drive.disk.dataSize
      path size = .ok (dir, i)) :
    ∃ u' p inv', u.call q = (.ok .done, u') ∧ u'.Sound inv' ∧
      u.drive.disk.SameSize u'.drive.disk ∧
      Inventory.Made path kind size u.drive.disk.dataSize dir i p inv
        (inv.freeMap u.drive.disk.sectors) inv' (inv'.freeMap u'.drive.disk.sectors) := by
  have hpermitted : q.Permitted u := by
    cases q with
    | writeId => cases hq
    | _ => trivial
  have hmake := h.consistent.make_concludes path kind size (Request.size_of_makes hq)
  obtain ⟨hanswer, hvolume, hd, hmade⟩ :=
    call_concludes h.fault_free (Request.perform_of_makes hq u.volume) hmake
  obtain ⟨p, inv', hsame, hv', hmade⟩ := hmade dir i houtcome
  obtain ⟨inv'', -, hu', -⟩ := h.call hpermitted
  rw [← hvolume] at hv'
  obtain rfl := hu'.consistent.unique hd hv'
  rw [houtcome] at hanswer
  exact ⟨_, p, inv'', Prod.ext hanswer rfl, hu', hsame, hmade⟩

/-- **What making comes to.** In every state of a run, a call that makes a file or a directory
answers or fails as the outcome says, by what is found on the device before. If it answers, the new
node lies in the lowest free sectors, its entry is in the lowest unused slot of its directory, and
nothing else is new. -/
theorem reached_make_outcome (hblank : blank.FaultFree)
    (hlimit : blank.device.sectors ≤ Link.limit) (h : Reached blank u) {q : Request}
    {path : String} {kind : Kind} {size : Nat} (hq : q.makes = some (path, kind, size)) :
    let data := Layout.dataSize blank.device.sectorSize
    let u' := (u.call q).2
    ∃ inv m, u.ask Volume.survey = .ok inv ∧ u.ask u.volume.freeMap = .ok m ∧
      u.ask (u.volume.findEntry path) = (inv.find path).map Prod.fst ∧
      (u.call q).1 = (inv.makeOutcome m.numFree data path size).map (fun _ => .done) ∧
      ∀ dir i, inv.makeOutcome m.numFree data path size = .ok (dir, i) →
        ∃ p inv' m', u'.ask Volume.survey = .ok inv' ∧ u'.ask u'.volume.freeMap = .ok m' ∧
          Inventory.Made path kind size data dir i p inv m inv' m' := by
  intro data u'
  obtain ⟨inv, hu, hsize⟩ := h.sound hblank hlimit
  have hv := hu.consistent
  have hdata : u.drive.disk.dataSize = data := hsize.dataSize
  have hmake := hv.make_concludes path kind size (Request.size_of_makes hq)
  rw [hdata] at hmake
  obtain ⟨hanswer, hvolume, hd, hmade⟩ :=
    call_concludes hu.fault_free (Request.perform_of_makes hq u.volume) hmake
  refine ⟨inv, _, ask_eq hu.fault_free hv.survey_yields, ask_eq hu.fault_free hv.freeMap_yields,
    ask_eq hu.fault_free (hv.findEntry_yields path), hanswer, fun dir i hok => ?_⟩
  obtain ⟨p, inv', -, hv', hmade⟩ := hmade dir i hok
  rw [← hvolume] at hv'
  rw [hdata] at hmade
  exact ⟨p, inv', _, ask_eq hd hv'.survey_yields, ask_eq hd hv'.freeMap_yields, hmade⟩

/-- The first file of a small volume goes to the first slot of the root. -/
theorem reached_make_outcome_created : ∃ (u : Usage) (p : Place) (inv inv' : Inventory)
    (m m' : FreeMap), Reached { device := .blank 64 128 } u ∧
      (u.call (.create "/a" 5)).1 = .ok .done ∧
      Inventory.Made "/a" .file 5 120 [] 0 p inv m inv' m' := by
  obtain ⟨v, d, inv₀, hformat, hu, hdata, hsectors, hslots, hcount, -⟩ := exists_formatted
  have hreached : Reached { device := .blank 64 128 } { drive := d, volume := v } :=
    .format hformat
  obtain ⟨inv, m, hinv, hm, -, hanswer, hmade⟩ := reached_make_outcome
    (Drive.faultFree_blank 64 128) (by decide) hreached (q := .create "/a" 5) rfl
  obtain rfl : inv₀ = inv :=
    Except.ok.inj ((ask_eq hu.fault_free hu.consistent.survey_yields).symm.trans hinv)
  have hfree : m.numFree = 50 := by
    have hnum := hu.consistent.numFree_add
    rw [hcount, hsectors] at hnum
    rw [← Except.ok.inj ((ask_eq hu.fault_free hu.consistent.freeMap_yields).symm.trans hm)]
    show (inv₀.freeMap d.disk.sectors).numFree = 50
    rw [hsectors]
    omega
  have houtcome : inv₀.makeOutcome m.numFree 120 "/a" 5 = .ok ([], 0) := by
    have hroute : Route.ofPath "/a" = .last "a" := by decide
    have hfind : inv₀.find "/a" = .error (.notFound "/a") := by
      unfold Inventory.find
      rw [hroute, hslots, Slots.follow, Slots.find?_replicate_none]
    unfold Inventory.makeOutcome
    rw [if_neg (by decide), hfind, if_neg (by decide), hfree, if_neg (by decide), hroute, hslots]
    rfl
  obtain ⟨p, inv', m', -, -, hmade⟩ := hmade [] 0 houtcome
  refine ⟨_, p, inv₀, inv', m, m', hreached, ?_, hmade⟩
  rw [hanswer]
  exact congrArg (Except.map fun _ => Answer.done) houtcome

/-- **What removing comes to.** In every state of a run, a call that removes answers or fails as
the outcome says, by what is found on the device and what is open before. If it answers, just the
sectors of the tree are given back, its slot is unused, all other entries are in their slots, and
the path does not lead to what was removed. -/
theorem reached_remove_outcome (hblank : blank.FaultFree)
    (hlimit : blank.device.sectors ≤ Link.limit) (h : Reached blank u) (path : String)
    (recursive : Bool) :
    let outcome := fun inv : Inventory =>
      inv.removeOutcome u.volume.openFiles.holds path recursive
    let u' := (u.call (.remove path recursive)).2
    ∃ inv m, u.ask Volume.survey = .ok inv ∧ u.ask u.volume.freeMap = .ok m ∧
      u.ask (u.volume.findEntry path) = (inv.find path).map Prod.fst ∧
      (∀ x, Path.validate path = .ok () → path ≠ "/" → inv.find path = .error x →
        x = .notFound path ∨ x = .notADirectory path) ∧
      (u.call (.remove path recursive)).1 = (outcome inv).map (fun _ => .done) ∧
      ∀ dir i, outcome inv = .ok (dir, i) →
        ∃ e t inv' m', inv.find path = .ok (e, t) ∧ u'.ask Volume.survey = .ok inv' ∧
          u'.ask u'.volume.freeMap = .ok m' ∧ Inventory.Removed dir i e t inv m inv' m' ∧
          ∀ e', u'.ask (u'.volume.findEntry path) = .ok e' → e'.sector? ≠ e.sector? := by
  intro outcome u'
  obtain ⟨inv, hu, -⟩ := h.sound hblank hlimit
  have hv := hu.consistent
  obtain ⟨hanswer, hvolume, hd, hremoved⟩ := call_concludes hu.fault_free
    (q := .remove path recursive) rfl (hv.remove_concludes path recursive)
  refine ⟨inv, _, ask_eq hu.fault_free hv.survey_yields, ask_eq hu.fault_free hv.freeMap_yields,
    ask_eq hu.fault_free (hv.findEntry_yields path),
    fun x hpath hroot hfind => Inventory.find_error hpath hroot hfind, hanswer,
    fun dir i hok => ?_⟩
  obtain ⟨e, t, inv', hfind, -, hv', hremoved, hgone⟩ := hremoved dir i hok
  rw [← hvolume] at hv'
  refine ⟨e, t, inv', _, hfind, ask_eq hd hv'.survey_yields, ask_eq hd hv'.freeMap_yields,
    hremoved, fun e' he' => ?_⟩
  rw [ask_eq hd (hv'.findEntry_yields path)] at he'
  cases hfind' : inv'.find path with
  | error x =>
    rw [hfind'] at he'
    cases he'
  | ok r =>
    rw [hfind'] at he'
    cases he'
    exact hgone r.1 r.2 hfind'

/-- A file that is not open is removed. -/
theorem reached_remove_outcome_created : ∃ (u : Usage) (dir : List Nat) (i : Nat) (e : Entry)
    (t : Node) (inv inv' : Inventory) (m m' : FreeMap), Reached { device := .blank 64 128 } u ∧
      (u.call (.remove "/a" false)).1 = .ok .done ∧
      Inventory.Removed dir i e t inv m inv' m' := by
  obtain ⟨v, d, u, inv₁, inv₀, hformat, hcall, heffect, hu, hopen⟩ := exists_created
  have hreached := Reached.call (.create "/a" 5) (.format hformat) trivial
  rw [hcall] at hreached
  obtain ⟨inv, m, hinv, -, -, -, hanswer, hremoved⟩ := reached_remove_outcome
    (Drive.faultFree_blank 64 128) (by decide) hreached "/a" false
  obtain rfl : inv₀ = inv :=
    Except.ok.inj ((ask_eq hu.fault_free hu.consistent.survey_yields).symm.trans hinv)
  obtain ⟨-, e, p, hfind⟩ := heffect.find_created (by decide)
  obtain ⟨dir, i, hslot, -, -⟩ := Slots.slot?_of_follow hfind
  have houtcome : inv₀.removeOutcome u.volume.openFiles.holds "/a" false = .ok (dir, i) := by
    have hclosed : u.volume.openFiles.holds p.sector = false := by
      rw [hopen]
      rfl
    have hwalk : ((Tree.file ⟨p, Bytes.zeros 5⟩ : Node).walk "/a").find?
        (fun q => u.volume.openFiles.holds q.2) = none := by
      show [("/a", p.sector)].find? (fun q => u.volume.openFiles.holds q.2) = none
      simp [hclosed]
    unfold Inventory.removeOutcome
    rw [if_neg (by decide), hfind]
    dsimp only
    rw [if_neg (by simp [Tree.occupied]), hwalk]
    exact hslot
  obtain ⟨e, t, inv', m', -, -, -, hremoved, -⟩ := hremoved dir i houtcome
  refine ⟨u, dir, i, e, t, inv₀, inv', m, m', hreached, ?_, hremoved⟩
  rw [hanswer]
  exact congrArg (Except.map fun _ => Answer.done) houtcome

end Usage

end SectorChain
