import SectorChain.Proofs.Removing

/-!
# Reports on a volume

A volume reports on itself in three ways that none of the other calls use: any directory can be
listed, the root table can be read, and everything can be printed. Each report is read off the
files that are on the disk, and the disk stays as it is.

Results:
* `contentLines_yields`: a line for each block, cut from the bytes of the file.
* `HasFile.describe_yields`: the report on one file.
* `Legible.print_yields`: the report on the whole volume.
* `Consistent.listAt_yields`: the listing of what is at a path.
-/

namespace SectorChain

/-- The bytes in `count` pieces of `size` bytes; the last ones may be shorter. -/
def Bytes.pieces (size : Nat) : (count : Nat) → Bytes → List Bytes
  | 0, _ => []
  | count + 1, bytes => bytes.take size :: pieces size count (bytes.drop size)

namespace Disk

variable {k : Disk} {p : Place} {content : Bytes} {dir : Directory} {slots : NodeSlots}

/-! ## One file -/

/-- The report on the file at a place: its length, its chain, and a line for each block. -/
def report (k : Disk) (p : Place) : String :=
  let content := (Bytes.pieces k.dataSize p.chain.length (k.content p.header p.chain)).map
    (Bytes.escaped Bytes.isPlain)
  let lines := [s!"FileHeader contents.  File size: {p.header.length}.  File blocks:",
    " ".intercalate (p.chain.map toString), "File contents:"] ++ content
  String.join (lines.map (· ++ "\n"))

/-- **A line for each block**, cut from the data of the chain as far as the file reaches. -/
theorem contentLines_yields {l : List Nat} (h : k.Linked l) (left : Nat) :
    Yields (Header.contentLines left l) k (.ok ((Bytes.pieces k.dataSize l.length
      ((k.chainData l).take left)).map (Bytes.escaped Bytes.isPlain))) k := by
  induction l generalizing left with
  | nil => exact Yields.pure _ k
  | cons s rest ih =>
    have hlen : (k.dataAt s).length = k.dataSize := length_dataAt k s
    have hdata : k.chainData (s :: rest) = k.dataAt s ++ k.chainData rest := List.flatMap_cons
    have hfirst : ((k.chainData (s :: rest)).take left).take k.dataSize =
        (k.dataAt s).take left := by
      rw [hdata, List.take_take, Nat.min_comm, ← List.take_take, List.take_left' hlen]
    have hrest : ((k.chainData (s :: rest)).take left).drop k.dataSize =
        (k.chainData rest).take (left - k.dataSize) := by
      rw [hdata, List.drop_take, List.drop_left' hlen]
    refine h.1.fetch_yields.bind ?_
    rw [List.length_cons, Bytes.pieces, hfirst, hrest, List.map_cons]
    dsimp only
    rw [hlen]
    exact (ih h.2 (left - k.dataSize)).bind (Yields.pure _ k)

/-- **The report on a file** is read from its blocks. -/
theorem HasFile.describe_yields (h : k.HasFile p content) :
    Yields p.header.describe k (.ok (k.report p)) k :=
  h.chained.chain_yields.bind
    ((contentLines_yields h.chained.linked p.header.length).bind (Yields.pure _ k))

/-! ## One directory -/

/-- The report on a directory: one on each of the files that its entries lead to. -/
def reportAll (k : Disk) (slots : NodeSlots) : String :=
  "Directory contents:\n" ++ String.join ((Slots.children slots).map fun c =>
    s!"Name: {c.1.name}, Sector: {c.2.place.sector}\n" ++ k.report c.2.place) ++ "\n"

theorem printTable_yields (h : dir.Shows slots) (hall : k.HoldsAll slots) :
    Yields dir.print k (.ok (k.reportAll slots)) k := by
  unfold Directory.print
  rw [h.entries]
  refine (Yields.mapM Prod.fst (fun c : Entry × Node =>
    s!"Name: {c.1.name}, Sector: {c.2.place.sector}\n" ++ k.report c.2.place) ?_).bind
    (Yields.pure _ k)
  rintro ⟨e, t⟩ hc
  have ht := Slots.mem_children.mp hc
  obtain ⟨content, hfile⟩ := (hall e t ht).hasFile
  exact (header_yields (h.leads e t ht).2 e.name k).bind (hfile.header.fetch_yields.bind
    (hfile.describe_yields.bind (Yields.pure _ k)))

end Disk

namespace Volume

variable {v : Volume} {k : Disk} {inv : Inventory}

/-! ## The whole volume -/

/-- **Everything is printed**: the two files of the volume itself, the sectors in use, and the
files in the root directory. -/
theorem Legible.print_yields (h : v.Legible k inv) :
    Yields v.print k (.ok ("Bit map file header:\n" ++ k.report inv.mapFile.place ++
      "Directory file header:\n" ++ k.report inv.root ++ "Bitmap set:\n" ++
      ", ".intercalate ((inv.freeMap k.sectors).used.map toString) ++ "\n" ++
      k.reportAll inv.slots)) k := by
  obtain ⟨table, htable, hshows, hall⟩ := h.exists_table
  have hmap := h.map_file.describe_yields
  have hroot := htable.file.describe_yields
  rw [← h.map_header] at hmap
  rw [← h.root_header] at hroot
  exact h.freeMap_yields.bind (hmap.bind (hroot.bind ((h.root_yields htable).bind
    ((Disk.printTable_yields hshows hall).bind (Yields.pure _ k)))))

end Volume

/-! ## Listings -/

/-- The slots of the directory at a path. -/
def Inventory.slotsAt (inv : Inventory) (path : String) : Except VolumeError NodeSlots :=
  if path = "/" then .ok inv.slots
  else match inv.find path with
    | .error e => .error e
    | .ok (_, .file _) => .error (.notADirectory path)
    | .ok (_, .directory _ slots) => .ok slots

/-- **What is at a path is listed** by its labels, if it is a directory. -/
theorem Volume.Consistent.listAt_yields {v : Volume} {k : Disk} {inv : Inventory}
    (h : v.Consistent k inv) (path : String) (recursive : Bool) :
    Yields (v.list path recursive) k ((inv.slotsAt path).map fun slots =>
      if recursive then Slots.lines slots 0
      else (Slots.children slots).map fun c => c.1.name) k := by
  unfold Inventory.slotsAt
  by_cases hroot : path = "/"
  · subst hroot
    rw [if_pos rfl]
    exact h.list_yields h.length_nodes_lt recursive
  rw [if_neg hroot]
  obtain ⟨table, htable, hshows, hall⟩ := h.exists_table
  have hentry := h.findEntry_table hshows hall path
  unfold Volume.list
  refine (h.root_yields htable).bind ?_
  rw [if_neg hroot]
  cases hfind : inv.find path with
  | error e =>
    rw [hfind] at hentry
    exact hentry.bind_error
  | ok p =>
    obtain ⟨e, t⟩ := p
    obtain ⟨ht, hkind, hsector, -⟩ := h.found hfind
    obtain ⟨hdepth, -, -⟩ := h.found_facts hfind
    rw [hfind] at hentry
    refine hentry.bind ?_
    cases ht with
    | file hfile => exact (Disk.enter_file hkind path).bind_error
    | @directory p slots table htable hshows hall =>
      rw [Tree.nodes_directory, List.length_cons] at hdepth
      exact (Disk.enter_yields hkind hsector h.dataSize_pos htable.file htable.isIn path).bind
        (Disk.list_yields h.dataSize_pos hshows hall hdepth recursive)

end SectorChain
