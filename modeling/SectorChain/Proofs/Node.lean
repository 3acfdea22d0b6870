import SectorChain.Proofs.Stored
import SectorChain.Proofs.Tree

/-!
# Trees on a disk

A `Node` is a tree of files with all that the disk has of them: the place and the bytes of each
file, the place of each directory, and the entries that are the labels of its slots. `Disk.Holds`
says that a disk has all of it; a directory has a table on the disk that shows its slots. A
directory is a file, and nothing makes its length that of a table: `Disk.Carries` is what
`Disk.Holds` is, for directories of any length. `Disk.Bears` is what can be said of any disk: the
node is what is found from its header on, in chains of any length.

`Node.survey` reads a node from the disk, from the header of its root on.

Results:
* `Holds.keeps`: a node stays on the disk while the sectors of its files stay as they are.
* `Holds.replace`: it stays with new bytes in some of its files when these are on the disk.
* `survey_yields`: reading what is held gives just that.
-/

namespace SectorChain

/-- A regular file: where it lies, and its bytes. -/
structure Stored where
  place : Place
  content : Bytes
  deriving DecidableEq

/-- A file or directory with everything below it, as it is on a disk. -/
abbrev Node := Tree Stored Place Entry

/-- The slots of a directory as they are on a disk. -/
abbrev NodeSlots := Slots Stored Place Entry

/-- Where a file or a directory lies. -/
def placeOf (x : Stored ⊕ Place) : Place := x.elim Stored.place id

/-- Whether it is a file or a directory. -/
def kindOf (x : Stored ⊕ Place) : Kind := x.elim (fun _ => .file) fun _ => .directory

/-- The sectors of the files and directories. -/
def sectorsOf (l : List (Stored ⊕ Place)) : List Nat := l.flatMap fun x => (placeOf x).sectors

theorem sectorsOf_append (l l' : List (Stored ⊕ Place)) :
    sectorsOf (l ++ l') = sectorsOf l ++ sectorsOf l' := List.flatMap_append

theorem sectorsOf_perm {l l' : List (Stored ⊕ Place)} (h : l.Perm l') :
    (sectorsOf l).Perm (sectorsOf l') := h.flatMap_right _

theorem mem_sectorsOf {l : List (Stored ⊕ Place)} {s : Nat} :
    s ∈ sectorsOf l ↔ ∃ x ∈ l, s ∈ (placeOf x).sectors := List.mem_flatMap

namespace Tree

/-- Where the root of the tree lies. -/
def place : Tree Stored Place Entry → Place
  | .file f => f.place
  | .directory p _ => p

/-- The sectors of the tree. -/
def sectors (t : Tree Stored Place Entry) : List Nat := sectorsOf t.nodes

@[simp] theorem sectors_file (f : Stored) : (file f : Node).sectors = f.place.sectors := by
  unfold sectors
  rw [nodes_file]
  exact List.append_nil _

end Tree

/-- The root of a tree is one of its files and directories. -/
theorem Node.exists_root (t : Node) : ∃ x ∈ t.nodes, placeOf x = t.place := by
  cases t with
  | file f => exact ⟨.inl f, by rw [Tree.nodes_file]; exact .head _, rfl⟩
  | directory p slots => exact ⟨.inr p, by rw [Tree.nodes_directory]; exact .head _, rfl⟩

theorem Node.sector_mem_sectors (t : Node) : t.place.sector ∈ t.sectors := by
  obtain ⟨x, hx, hplace⟩ := exists_root t
  exact mem_sectorsOf.mpr ⟨x, hx, hplace ▸ List.mem_cons_self⟩

namespace Slots

/-- The sectors of the trees in the slots. -/
def sectors (slots : Slots Stored Place Entry) : List Nat := sectorsOf (nodes slots)

theorem sectors_eq (slots : NodeSlots) :
    sectors slots = (children slots).flatMap fun p => p.2.sectors := List.flatMap_assoc

theorem mem_sectors {slots : NodeSlots} {s : Nat} :
    s ∈ sectors slots ↔ ∃ e t, some (e, t) ∈ slots ∧ s ∈ t.sectors := by
  unfold sectors nodes
  rw [mem_sectorsOf]
  constructor
  · rintro ⟨x, hx, hs⟩
    obtain ⟨⟨e, t⟩, ht, hx⟩ := List.mem_flatMap.mp hx
    exact ⟨e, t, mem_children.mp ht, mem_sectorsOf.mpr ⟨x, hx, hs⟩⟩
  · rintro ⟨e, t, ht, hs⟩
    obtain ⟨x, hx, hs⟩ := mem_sectorsOf.mp hs
    exact ⟨x, List.mem_flatMap.mpr ⟨(e, t), mem_children.mpr ht, hx⟩, hs⟩

end Slots

@[simp] theorem Tree.sectors_directory (p : Place) (slots : NodeSlots) :
    (Tree.directory p slots).sectors = p.sectors ++ Slots.sectors slots := by
  unfold Tree.sectors
  rw [Tree.nodes_directory]
  rfl

/-! ## Tables and slots -/

/-- The entry, if it is in use. -/
def Entry.used? (e : Entry) : Option Entry := if e.inUse then some e else none

theorem Entry.used?_eq_some {e e' : Entry} (h : e.used? = some e') : e = e' ∧ e.inUse = true := by
  unfold Entry.used? at h
  split at h
  · rename_i hused
    exact ⟨Option.some.inj h, hused⟩
  · cases h

namespace Directory

/-- The entries in use, each in its slot. -/
def labels (dir : Directory) : List (Option Entry) := dir.slots.map Entry.used?

/-- The table has an entry for each tree in the slots, with its kind and the sector of its header,
and no other entry in use. -/
structure Shows (dir : Directory) (slots : NodeSlots) : Prop where
  labels : dir.labels = Slots.labels slots
  leads : ∀ e t, some (e, t) ∈ slots → e.kind = t.kind ∧ e.sector? = some t.place.sector

theorem entries_eq (dir : Directory) : dir.entries = dir.labels.reduceOption := by
  unfold entries labels List.reduceOption
  rw [List.filterMap_map]
  induction dir.slots with
  | nil => rfl
  | cons e rest ih =>
    cases he : e.inUse with
    | true => rw [List.filter_cons_of_pos he, ih, List.filterMap_cons]; simp [Entry.used?, he]
    | false =>
      rw [List.filter_cons_of_neg (by simp [he]), ih, List.filterMap_cons]
      simp [Entry.used?, he]

namespace Shows

variable {dir : Directory} {slots : NodeSlots}

theorem entries (h : dir.Shows slots) : dir.entries = (Slots.children slots).map Prod.fst := by
  rw [entries_eq, h.labels, Slots.reduceOption_labels]

theorem length_eq (h : dir.Shows slots) : dir.slots.length = slots.length := by
  have := congrArg List.length h.labels
  unfold Directory.labels Slots.labels at this
  rwa [List.length_map, List.length_map] at this

/-- The entry of a tree is in the slot of the tree. -/
theorem getElem? (h : dir.Shows slots) {i : Nat} {e : Entry} {t : Node}
    (hi : slots[i]? = some (some (e, t))) : dir.slots[i]? = some e ∧ e.inUse = true := by
  have hlabel := congrArg (fun l => l[i]?) h.labels
  unfold Directory.labels Slots.labels at hlabel
  simp only [List.getElem?_map, hi, Option.map_some] at hlabel
  obtain ⟨e', he', hused⟩ := Option.map_eq_some_iff.mp hlabel
  obtain ⟨rfl, hin⟩ := Entry.used?_eq_some hused
  exact ⟨he', hin⟩

/-- An entry in use is that of a tree. -/
theorem exists_tree (h : dir.Shows slots) {i : Nat} {e : Entry} (hi : dir.slots[i]? = some e)
    (hused : e.inUse = true) : ∃ t, some (e, t) ∈ slots := by
  have hlabel := congrArg (fun l => l[i]?) h.labels
  unfold Directory.labels Slots.labels at hlabel
  simp only [List.getElem?_map, hi, Option.map_some, Entry.used?, hused, if_true] at hlabel
  obtain ⟨slot, hslot, heq⟩ := Option.map_eq_some_iff.mp hlabel.symm
  obtain ⟨⟨e', t⟩, rfl, rfl⟩ := Option.map_eq_some_iff.mp heq
  exact ⟨t, List.mem_of_getElem? hslot⟩

end Shows

end Directory

/-! ## What a disk holds -/

/-- All of the node is on the disk. -/
inductive Disk.Holds (k : Disk) : Tree Stored Place Entry → Prop
  | file {f : Stored} : k.HasFile f.place f.content → Holds k (.file f)
  | directory {p : Place} {slots : NodeSlots} (table : Directory) : k.HasTable p table →
      table.Shows slots → (∀ e t, some (e, t) ∈ slots → Holds k t) → Holds k (.directory p slots)

/-- All of the nodes in the slots are on the disk. -/
def Disk.HoldsAll (k : Disk) (slots : NodeSlots) : Prop :=
  ∀ e t, some (e, t) ∈ slots → k.Holds t

/-- All of the node is on the disk, its tables in files of any length. -/
inductive Disk.Carries (k : Disk) : Tree Stored Place Entry → Prop
  | file {f : Stored} : k.HasFile f.place f.content → Carries k (.file f)
  | directory {p : Place} {slots : NodeSlots} (table : Directory) {content : Bytes} :
      k.HasFile p content → table.IsIn content → table.Shows slots →
      (∀ e t, some (e, t) ∈ slots → Carries k t) → Carries k (.directory p slots)

/-- **The node is what is found on the disk** from its header on: the bytes of files as far as their
chains go, and a directory for each entry that leads to one. Its files may share sectors. -/
inductive Disk.Bears (k : Disk) : Tree Stored Place Entry → Prop
  | file {f : Stored} : k.Lies f.place → k.content f.place.header f.place.chain = f.content →
      Bears k (.file f)
  | directory {p : Place} {slots : NodeSlots} (table : Directory) : k.Lies p →
      min Layout.directorySize p.header.length ≤ p.chain.length * k.dataSize →
      table.IsIn (k.content p.header p.chain) → table.Shows slots →
      (∀ e t, some (e, t) ∈ slots → Bears k t) → Bears k (.directory p slots)

/-- All of the nodes in the slots are on the disk, their tables in files of any length. -/
def Disk.CarriesAll (k : Disk) (slots : NodeSlots) : Prop :=
  ∀ e t, some (e, t) ∈ slots → k.Carries t

namespace Disk

variable {k k' : Disk} {q : Nat → Prop} {t : Node}

/-- What is held is carried. -/
theorem Holds.carries (h : k.Holds t) : k.Carries t := by
  induction h with
  | file hfile => exact .file hfile
  | directory table htable hshows _ ih => exact .directory table htable.file htable.isIn hshows ih

/-- What is carried is found. -/
theorem Carries.bears {t : Node} (h : k.Carries t) : k.Bears t := by
  induction h with
  | file hfile => exact .file hfile.lies hfile.content
  | directory table hfile hin hshows _ ih =>
    refine .directory table hfile.lies ?_ (hfile.content ▸ hin) hshows ih
    exact Nat.le_trans (Nat.min_le_right _ _) (hfile.length_le hfile.header.dataSize_pos)

theorem HoldsAll.carries {slots : NodeSlots} (h : k.HoldsAll slots) : k.CarriesAll slots :=
  fun e t ht => (h e t ht).carries

/-- The root of a node is a file on the disk. -/
theorem Holds.hasFile (h : k.Holds t) : ∃ content, k.HasFile t.place content := by
  cases h with
  | file hfile => exact ⟨_, hfile⟩
  | directory table htable _ _ => exact ⟨_, htable.file⟩

/-- Every file and directory of a node is a file on the disk, a regular one with its bytes. -/
theorem Holds.nodes (h : k.Holds t) :
    ∀ x ∈ t.nodes, (∃ content, k.HasFile (placeOf x) content) ∧
      ∀ f, x = .inl f → k.HasFile f.place f.content := by
  induction h with
  | @file f hfile =>
    intro x hx
    rw [Tree.nodes_file, List.mem_singleton] at hx
    subst hx
    refine ⟨⟨_, hfile⟩, ?_⟩
    rintro g ⟨⟩
    exact hfile
  | @directory p slots table htable _ _ ih =>
    intro x hx
    rw [Tree.nodes_directory] at hx
    rcases List.mem_cons.mp hx with rfl | hx
    · refine ⟨⟨_, htable.file⟩, ?_⟩
      rintro g ⟨⟩
    · obtain ⟨⟨e, t⟩, ht, hx⟩ := List.mem_flatMap.mp hx
      exact ih e t (Slots.mem_children.mp ht) x hx

/-- Every directory of a node has a table that shows its slots. What holds of a node, and of all
that is in the slots of a directory when it holds of that, holds of each directory. -/
theorem Holds.table_induction {P : Node → Prop}
    (below : ∀ p slots, P (.directory p slots) → ∀ e t, some (e, t) ∈ slots → P t)
    (h : k.Holds t) (ht : P t) {p : Place} (hp : .inr p ∈ t.nodes) :
    ∃ table slots, k.HasTable p table ∧ table.Shows slots ∧ P (.directory p slots) := by
  induction h with
  | @file f _ =>
    rw [Tree.nodes_file] at hp
    cases List.mem_singleton.mp hp
  | @directory p' slots table htable hshows _ ih =>
    rw [Tree.nodes_directory] at hp
    rcases List.mem_cons.mp hp with heq | hp
    · cases heq
      exact ⟨table, slots, htable, hshows, ht⟩
    · obtain ⟨⟨e, t⟩, hslot, hp⟩ := List.mem_flatMap.mp hp
      have hslot := Slots.mem_children.mp hslot
      exact ih e t hslot (below p' slots ht e t hslot) hp

theorem Holds.exists_table (h : k.Holds t) {p : Place} (hp : .inr p ∈ t.nodes) :
    ∃ table, k.HasTable p table := by
  obtain ⟨table, -, htable, -⟩ :=
    h.table_induction (P := fun _ => True) (fun _ _ _ _ _ _ => trivial) trivial hp
  exact ⟨table, htable⟩

theorem Holds.lt_sectors (h : k.Holds t) {s : Nat} (hs : s ∈ t.sectors) : s < k.sectors := by
  obtain ⟨x, hx, hs⟩ := mem_sectorsOf.mp hs
  obtain ⟨content, hfile⟩ := (h.nodes x hx).1
  exact hfile.lt_sectors hs

/-- **A node stays on the disk** while its sectors stay as they are. -/
theorem Holds.keeps (h : k.Holds t) (hk : Keeps k k' q) (hq : ∀ s ∈ t.sectors, q s) :
    k'.Holds t := by
  induction h with
  | file hfile =>
    rw [Tree.sectors_file] at hq
    exact .file (hfile.keeps hk hq)
  | directory table htable hshows _ ih =>
    rw [Tree.sectors_directory] at hq
    refine .directory table (htable.keeps hk fun s hs => hq s (List.mem_append_left _ hs)) hshows
      fun e t ht => ih e t ht fun s hs => ?_
    exact hq s (List.mem_append_right _ (Slots.mem_sectors.mpr ⟨e, t, ht, hs⟩))

theorem HoldsAll.keeps {slots : NodeSlots} (h : k.HoldsAll slots) (hk : Keeps k k' q)
    (hq : ∀ s ∈ Slots.sectors slots, q s) : k'.HoldsAll slots := fun e t ht =>
  (h e t ht).keeps hk fun s hs => hq s (Slots.mem_sectors.mpr ⟨e, t, ht, hs⟩)

end Disk

/-! ## New bytes in files -/

namespace Tree

variable {t : Node}

/-- The tree with its files as `f` says. -/
def replace (f : Stored → Stored) (t : Tree Stored Place Entry) : Tree Stored Place Entry :=
  t.map f id id

theorem kind_replace (f : Stored → Stored) (t : Node) : (t.replace f).kind = t.kind :=
  kind_map f id id t

theorem place_replace {f : Stored → Stored} (hf : ∀ x, (f x).place = x.place) (t : Node) :
    (t.replace f).place = t.place := by
  cases t with
  | file a => exact hf a
  | directory p slots => unfold replace; rw [map_directory]; rfl

end Tree

namespace Disk

variable {k k' : Disk} {q : Nat → Prop} {t : Node}

/-- A node stays on the disk with new bytes in its files, when these are on the disk and the
directories stay as they are. -/
theorem Holds.replace (h : k.Holds t) (hk : Keeps k k' q) {f : Stored → Stored}
    (hplace : ∀ x, (f x).place = x.place)
    (hfiles : ∀ x, .inl x ∈ t.nodes → k'.HasFile x.place (f x).content)
    (hdirs : ∀ p, .inr p ∈ t.nodes → ∀ s ∈ p.sectors, q s) : k'.Holds (t.replace f) := by
  induction h with
  | @file a hfile =>
    refine .file ?_
    rw [hplace]
    exact hfiles a (by rw [Tree.nodes_file]; exact List.mem_singleton_self _)
  | @directory p slots table htable hshows _ ih =>
    rw [Tree.nodes_directory] at hfiles hdirs
    unfold Tree.replace
    rw [Tree.map_directory]
    have hmem : ∀ e t, some (e, t) ∈ slots → ∀ x ∈ t.nodes, x ∈ Sum.inr p :: Slots.nodes slots :=
      fun e t ht x hx => List.mem_cons_of_mem _ (Slots.nodes_subset ht hx)
    refine .directory table (htable.keeps hk (hdirs p List.mem_cons_self)) ⟨?_, ?_⟩ ?_
    · rw [hshows.labels, Slots.labels_map, Option.map_id, List.map_id]
    · intro e t ht
      obtain ⟨e', t', ht', rfl, rfl⟩ := Slots.mem_map ht
      show e'.kind = (t'.replace f).kind ∧ e'.sector? = some (t'.replace f).place.sector
      rw [Tree.kind_replace, Tree.place_replace hplace]
      exact hshows.leads e' t' ht'
    · intro e t ht
      obtain ⟨e', t', ht', rfl, rfl⟩ := Slots.mem_map ht
      exact ih e' t' ht' (fun x hx => hfiles x (hmem e' t' ht' _ hx))
        fun p' hp' => hdirs p' (hmem e' t' ht' _ hp')

end Disk

/-! ## Reading a node -/

namespace Node

/-- The slot with this label, the node in it read by `below`. -/
def surveySlot (below : Kind → (sector : Nat) → DriveM Node) :
    Option Entry → DriveM (Option (Entry × Node))
  | none => return none
  | some e => return some (e, ← below e.kind (← e.header e.name))

/-- The slots that a table shows. -/
def surveySlots (below : Kind → (sector : Nat) → DriveM Node) (dir : Directory) :
    DriveM NodeSlots := dir.labels.mapM (surveySlot below)

/-- The node with its root header in `sector`, read from the disk. Directories inside one another
`depth` deep and more are refused. -/
def survey : (depth : Nat) → Kind → (sector : Nat) → DriveM Node
  | 0, _, _ => Drive.corrupt (.endlessNesting "/")
  | _ + 1, .file, sector => do
    let place ← Place.fetch sector
    return .file { place, content := ← place.handle.readAt place.header.length 0 }
  | depth + 1, .directory, sector => do
    let place ← Place.fetch sector
    let dir ← Directory.fetch place.handle
    return .directory place (← surveySlots (survey depth) dir)

end Node

namespace Yields

variable {α β γ : Type} {k : Disk}

/-- A list of operations that leave the disk as it is. -/
theorem mapM {f : α → DriveM β} {l : List γ} (a : γ → α) (b : γ → β)
    (h : ∀ c ∈ l, Yields (f (a c)) k (.ok (b c)) k) :
    Yields ((l.map a).mapM f) k (.ok (l.map b)) k := by
  induction l with
  | nil => exact pure _ k
  | cons c rest ih =>
    rw [List.map_cons, List.mapM_cons]
    exact (h c List.mem_cons_self).bind
      ((ih fun d hd => h d (List.mem_cons_of_mem _ hd)).bind (pure _ k))

end Yields

namespace Disk

variable {k : Disk} {t : Node}

theorem header_yields {e : Entry} {s : Nat} (h : e.sector? = some s) (path : String) (k : Disk) :
    Yields (e.header path) k (.ok s) k := by
  unfold Entry.header
  rw [h]
  exact Yields.pure s k

/-- An entry without a link to a header leads nowhere. -/
theorem header_fails {e : Entry} (h : e.sector? = none) (path : String) (k : Disk) :
    Yields (e.header path) k (.error (.corrupt (.noHeader path))) k := by
  unfold Entry.header
  rw [h]
  exact Yields.corrupt _ k

theorem surveySlots_yields {below : Kind → Nat → DriveM Node} {dir : Directory} {slots : NodeSlots}
    (h : dir.Shows slots)
    (hbelow : ∀ e t, some (e, t) ∈ slots → Yields (below t.kind t.place.sector) k (.ok t) k) :
    Yields (Node.surveySlots below dir) k (.ok slots) k := by
  unfold Node.surveySlots
  rw [h.labels]
  unfold Slots.labels
  have hslots : ∀ slot ∈ slots, Yields (Node.surveySlot below (slot.map Prod.fst)) k
      (.ok slot) k := by
    rintro (- | ⟨e, t⟩) hslot
    · exact Yields.pure _ k
    · obtain ⟨hkind, hsector⟩ := h.leads e t hslot
      have hnode := hbelow e t hslot
      rw [← hkind] at hnode
      exact (header_yields hsector _ k).bind (hnode.bind (Yields.pure _ k))
  have := Yields.mapM _ id hslots
  rwa [List.map_id] at this

/-- **Reading what is held** gives just that. -/
theorem Holds.survey_yields (h : k.Holds t) (hk : 0 < k.dataSize) {depth : Nat}
    (hdepth : t.nodes.length ≤ depth) :
    Yields (Node.survey depth t.kind t.place.sector) k (.ok t) k := by
  induction h generalizing depth with
  | @file f hfile =>
    obtain ⟨depth, rfl⟩ : ∃ d, depth = d + 1 := ⟨depth - 1, by simp at hdepth; omega⟩
    have hread := hfile.read_yields hk (f := f.place.handle) rfl f.place.header.length 0
    rw [List.drop_zero, List.take_of_length_le (Nat.le_of_eq (hfile.length_content hk))] at hread
    exact hfile.place_yields.bind (hread.bind (Yields.pure _ k))
  | @directory p slots table htable hshows _ ih =>
    rw [Tree.nodes_directory, List.length_cons] at hdepth
    obtain ⟨depth, rfl⟩ : ∃ d, depth = d + 1 := ⟨depth - 1, by omega⟩
    refine htable.file.place_yields.bind ((htable.fetch_yields hk rfl).bind ?_)
    refine (surveySlots_yields hshows fun e t ht => ih e t ht ?_).bind (Yields.pure _ k)
    have := Slots.length_nodes_le ht
    omega

end Disk

end SectorChain
