import SectorChain.Proofs.Runs
import SectorChain.Proofs.Names

/-!
# The tree of names

To its users a volume is a tree: directories are tables of `Layout.directorySlots` slots, a slot
has a name and what is below it, and a file has a length. `Volume.view` reads this `Namespace` from
the device, with the number of free sectors. `Namespace.Step` says what a call may do to it.

* A new file or directory takes the first unused slot of its parent, and nothing else changes.
* A removal leaves the slot unused, and nothing else changes.
* All other calls, and those that fail, change nothing.

Results:
* `follow_view`, `insert_view`, `erase_view`: the view is followed and changed as the slots are.
* `Holds.length_sectors`: the sectors of a node are counted by its lengths.
* `reached_namespace`: in every state of a run every call is such a step, and paths are found just
  where the tree has them.
-/

namespace SectorChain

/-- A file with its length, or a directory with the names in it. -/
abbrev NameTree := Tree Nat Unit String

/-- The slots of a directory, with names. -/
abbrev NameSlots := Slots Nat Unit String

namespace Tree

/-- The length of a file; that of all directories is the same. -/
def length : Tree Nat Unit String → Nat
  | .file n => n
  | .directory _ _ => Layout.directorySize

/-- The sectors that a tree takes when a block holds `data` bytes of data: a header and the blocks
of each file and directory. -/
def footprint (data : Nat) (t : Tree Nat Unit String) : Nat :=
  t.nodes.foldr (fun x n =>
    1 + Layout.blocksFor (x.elim id fun _ => Layout.directorySize) data + n) 0

/-- Every directory of the tree has `n` slots. -/
inductive Sized {α β ε : Type} (n : Nat) : Tree α β ε → Prop
  | file (a : α) : Sized n (.file a)
  | directory (b : β) {slots : Slots α β ε} : slots.length = n →
      (∀ e t, some (e, t) ∈ slots → Sized n t) → Sized n (.directory b slots)

/-- What users see of a node. -/
def view (t : Tree Stored Place Entry) : Tree Nat Unit String :=
  t.map (fun f => f.content.length) (fun _ => ()) Entry.name

end Tree

/-- What users see of the nodes in slots. -/
def Slots.view (slots : Slots Stored Place Entry) : Slots Nat Unit String :=
  map (fun f => f.content.length) (fun _ => ()) Entry.name slots

/-- The tree below the root, and the number of free sectors. -/
structure Namespace where
  slots : NameSlots
  free : Nat

/-- **The abstraction**: the tree of names on the device. -/
def Volume.view (v : Volume) : DriveM Namespace := do
  let inv ← survey
  return { slots := Slots.view inv.slots, free := ← v.numFree }

namespace Namespace

/-- What is at the end of a path. The path of the root leads nowhere. -/
def find (ns : Namespace) (path : String) : Except VolumeError NameTree :=
  (Slots.follow id path (.ofPath path) ns.slots).map Prod.snd

/-- The kind and the length of what is at a path. -/
def stat (ns : Namespace) (path : String) : Except VolumeError (Kind × Nat) :=
  if path = "/" then .ok (.directory, Layout.directorySize)
  else (ns.find path).map fun t => (t.kind, t.length)

/-- A new file or directory. -/
def leaf (kind : Kind) (size : Nat) : NameTree :=
  match kind with
  | .file => .file size
  | .directory => .directory () (List.replicate Layout.directorySlots none)

/-- **What a call may do to the tree**, when a block holds `data` bytes of data. -/
inductive Step (data : Nat) (ns : Namespace) :
    Request → Except VolumeError Answer → Namespace → Prop
  | failed (q : Request) (e : VolumeError) : Step data ns q (.error e) ns
  | made {q : Request} {path : String} {kind : Kind} {size free : Nat} {slots : NameSlots}
      (hq : q.makes = some (path, kind, size))
      (hslots : Slots.change id path (Slots.insert id path id (leaf kind size)) (.ofPath path)
        ns.slots = .ok slots)
      (hfree : free + (1 + Layout.blocksFor size data) = ns.free) :
      Step data ns q (.ok .done) ⟨slots, free⟩
  | removed {path : String} {recursive : Bool} {t : NameTree} {free : Nat} {slots : NameSlots}
      (hfind : ns.find path = .ok t)
      (hslots : Slots.change id path (Slots.erase id path) (.ofPath path) ns.slots = .ok slots)
      (hfree : free = ns.free + t.footprint data) :
      Step data ns (.remove path recursive) (.ok .done) ⟨slots, free⟩
  | other {q : Request} (a : Answer) (hq : q.makes = none)
      (hremove : ∀ path recursive, q ≠ .remove path recursive) : Step data ns q (.ok a) ns

end Namespace

/-! ## The view of slots -/

namespace Slots

variable {path : String} {slots slots' : NodeSlots} {t : Node}

theorem id_name (e : Entry) : id (Entry.name e) = Entry.name e := rfl

theorem follow_view (path : String) (r : Route) (slots : NodeSlots) :
    (follow id path r (view slots)).map Prod.snd =
      (follow Entry.name path r slots).map fun p => p.2.view := by
  unfold view
  rw [follow_map id_name]
  cases follow Entry.name path r slots <;> rfl

theorem insert_view (hnul : '\x00' ∉ path.toList) {kind : Kind} {sector : Nat}
    (h : change Entry.name path (insert Entry.name path (fun n => .ofFile n kind sector) t)
      (.ofPath path) slots = .ok slots') :
    change id path (insert id path id t.view) (.ofPath path) (view slots) = .ok (view slots') := by
  have hlabel : ∀ n, n = lastName (.ofPath path) → id n = (Entry.ofFile n kind sector).name := by
    rintro n rfl
    exact (Route.name_ofFile_lastName (fault?_of_change h) hnul kind sector).symm
  have hchange := change_insert_map (f := fun f : Stored => f.content.length)
    (g := fun _ : Place => ()) path id_name (fun n => .ofFile n kind sector) id t slots
    (hlabel _ rfl)
  rw [h] at hchange
  exact hchange

theorem erase_view (h : change Entry.name path (erase Entry.name path) (.ofPath path) slots =
    .ok slots') :
    change id path (erase id path) (.ofPath path) (view slots) = .ok (view slots') := by
  have hchange := change_erase_map (f := fun f : Stored => f.content.length)
    (g := fun _ : Place => ()) path id_name slots (.ofPath path)
  rw [h] at hchange
  exact hchange

end Slots

theorem Node.view_blank (kind : Kind) (p : Place) (size : Nat) :
    (Node.blank kind p size).view = Namespace.leaf kind size := by
  cases kind with
  | file => exact (Tree.map_file _ _ _ _).trans (congrArg Tree.file (Bytes.length_zeros size))
  | directory =>
    refine (Tree.map_directory _ _ _ _ _).trans (congrArg (Tree.directory ()) ?_)
    unfold Slots.map
    rw [List.map_replicate]
    rfl

namespace Disk

variable {k : Disk} {t : Node}

/-- All directories have tables of one length. -/
theorem Holds.length_directory (h : k.Holds t) (hk : 0 < k.dataSize) {p : Place}
    (hp : .inr p ∈ t.nodes) : p.header.length = Layout.directorySize := by
  obtain ⟨table, htable⟩ := h.exists_table hp
  rw [← htable.file.length_content hk, htable.length_encode]

/-- **The sectors of a node** are counted by its lengths. -/
theorem Holds.length_sectors (h : k.Holds t) (hk : 0 < k.dataSize) :
    t.sectors.length = t.view.footprint k.dataSize := by
  unfold Tree.footprint Tree.view Tree.sectors sectorsOf
  rw [Tree.nodes_map, List.length_flatMap, List.sum_eq_foldr, List.foldr_map, List.foldr_map]
  refine List.foldr_ext _ _ _ fun x hx n => congrArg (· + n) ?_
  obtain ⟨⟨content, hfile⟩, hstored⟩ := h.nodes x hx
  have hlength : (placeOf x).sectors.length =
      1 + Layout.blocksFor (placeOf x).header.length k.dataSize := by
    rw [← hfile.blocks]
    exact Nat.add_comm _ _
  rw [hlength]
  cases x with
  | inl f =>
    have hcontent := (hstored f rfl).length_content hk
    show 1 + Layout.blocksFor f.place.header.length _ = 1 + Layout.blocksFor f.content.length _
    rw [hcontent]
  | inr p =>
    show 1 + Layout.blocksFor p.header.length _ = 1 + Layout.blocksFor Layout.directorySize _
    rw [h.length_directory hk hx]

theorem Holds.length_view (h : k.Holds t) (hk : 0 < k.dataSize) :
    t.view.length = t.place.header.length := by
  cases h with
  | @file f hfile =>
    unfold Tree.view
    rw [Tree.map_file]
    exact hfile.length_content hk
  | @directory p slots table htable _ _ =>
    unfold Tree.view
    rw [Tree.map_directory]
    show Layout.directorySize = p.header.length
    rw [← htable.file.length_content hk, htable.length_encode]

theorem Holds.sized_view (h : k.Holds t) : t.view.Sized Layout.directorySlots := by
  induction h with
  | @file f _ =>
    unfold Tree.view
    rw [Tree.map_file]
    exact .file _
  | @directory p slots table htable hshows _ ih =>
    unfold Tree.view
    rw [Tree.map_directory]
    refine .directory _ ?_ fun n t ht => ?_
    · unfold Slots.map
      rw [List.length_map, ← hshows.length_eq, htable.length_slots]
    · obtain ⟨e, t', ht', rfl, rfl⟩ := Slots.mem_map ht
      exact ih e t' ht'

end Disk

/-! ## The view of a volume -/

namespace Volume.Consistent

variable {v : Volume} {k : Disk} {inv : Inventory}

/-- The view of an inventory. -/
theorem view_yields (h : v.Consistent k inv) :
    Yields v.view k (.ok ⟨Slots.view inv.slots, (inv.freeMap k.sectors).numFree⟩) k :=
  h.survey_yields.bind (h.numFree_yields.bind (Yields.pure _ k))

/-- The tree has at a path what the inventory has there. -/
theorem find_view (inv : Inventory) (path : String) (free : Nat) :
    (⟨Slots.view inv.slots, free⟩ : Namespace).find path =
      (inv.find path).map fun p => p.2.view :=
  Slots.follow_view path (.ofPath path) inv.slots

/-- **Paths are found** just where the tree has them, with the same kind. -/
theorem findEntry_view (h : v.Consistent k inv) (path : String) (free : Nat) :
    ∃ r, Yields (v.findEntry path) k r k ∧
      r.map Entry.kind = ((⟨Slots.view inv.slots, free⟩ : Namespace).find path).map Tree.kind := by
  refine ⟨_, h.findEntry_yields path, ?_⟩
  rw [find_view]
  cases hfind : inv.find path with
  | error x => rfl
  | ok p =>
    obtain ⟨e, t⟩ := p
    obtain ⟨-, hkind, -⟩ := h.found hfind
    refine congrArg Except.ok (hkind.trans ?_)
    exact (Tree.kind_map _ _ _ t).symm

/-- **What is known of a path** is the kind and the length that the tree has there. -/
theorem stat_view (h : v.Consistent k inv) (path : String) (free : Nat) :
    ∃ r, Yields (v.stat path) k r k ∧ (r.map fun s => (s.kind, s.length)) =
      (⟨Slots.view inv.slots, free⟩ : Namespace).stat path := by
  refine ⟨_, h.stat_yields path, ?_⟩
  unfold Namespace.stat Inventory.locate
  rw [find_view]
  split
  · have hroot : .inr inv.root ∈ inv.tree.nodes := by
      rw [Inventory.tree_nodes]
      exact List.mem_cons_self
    show Except.ok (Kind.directory, inv.root.header.length) = _
    rw [h.held.length_directory h.dataSize_pos hroot]
  · cases hfind : inv.find path with
    | error x => rfl
    | ok p =>
      obtain ⟨e, t⟩ := p
      obtain ⟨ht, -⟩ := h.found hfind
      have hkind : t.view.kind = t.kind := Tree.kind_map _ _ _ t
      show Except.ok (t.kind, t.place.header.length) = Except.ok (t.view.kind, t.view.length)
      rw [ht.length_view h.dataSize_pos, hkind]

end Volume.Consistent

/-! ## Calls -/

theorem Slots.view_map {g : Stored → Stored} {slots : NodeSlots}
    (h : ∀ e t, some (e, t) ∈ slots → (t.replace g).view = t.view) :
    view (map g id id slots) = view slots := by
  unfold view
  show List.map _ (List.map _ slots) = _
  rw [List.map_map]
  refine List.map_congr_left fun slot hslot => ?_
  cases slot with
  | none => rfl
  | some p =>
    show some (p.1.name, (p.2.replace g).view) = some (p.1.name, p.2.view)
    rw [h p.1 p.2 hslot]

/-- **New bytes are not seen**, as long as they are as many as before. -/
theorem Tree.view_replace {g : Stored → Stored} {t : Node}
    (hg : ∀ f, .inl f ∈ t.nodes → (g f).content.length = f.content.length) :
    (t.replace g).view = t.view := by
  induction t using Tree.induction with
  | file a =>
    have hlength := hg a (by rw [Tree.nodes_file]; exact List.mem_singleton_self _)
    unfold Tree.view Tree.replace
    rw [Tree.map_file, Tree.map_file, Tree.map_file, hlength]
  | directory p below ih =>
    rw [Tree.nodes_directory] at hg
    have hbelow := Slots.view_map fun e t ht => ih e t ht fun f hf =>
      hg f (List.mem_cons_of_mem _ (Slots.nodes_subset ht hf))
    unfold Tree.view Tree.replace
    rw [Tree.map_directory, Tree.map_directory, Tree.map_directory]
    exact congrArg (Tree.directory ()) hbelow

/-- What was made is found where it was made. -/
theorem Inventory.find_insert {inv : Inventory} {path : String} {t : Node} {slots : NodeSlots}
    (hnul : '\x00' ∉ path.toList) (h : inv.insert path t = .ok slots) (f : Stored) :
    path ≠ "/" ∧ (⟨f, inv.root, slots⟩ : Inventory).find path =
      .ok (.ofFile (Slots.lastName (.ofPath path)) t.kind t.place.sector, t) := by
  have hchange : Slots.change Entry.name path (Slots.insert Entry.name path
      (fun n => Entry.ofFile n t.kind t.place.sector) t) (.ofPath path) inv.slots = .ok slots := h
  have hfault := Slots.fault?_of_change hchange
  have hname := Route.name_ofFile_lastName hfault hnul t.kind t.place.sector
  exact ⟨Route.ne_root_of_fault? hfault, Slots.follow_change_insert _ hchange hname⟩

/-- **What a call has made is found** at its path. Its sectors come in addition to the others. -/
theorem Effect.find_made {v v' : Volume} {inv inv' : Inventory} {q : Request} {path : String}
    {kind : Kind} {size : Nat} {a : Answer} (h : Effect v inv q (.ok a) v' inv')
    (hq : q.makes = some (path, kind, size)) (hnul : '\x00' ∉ path.toList) :
    path ≠ "/" ∧ ∃ p, inv'.find path =
        .ok (.ofFile (Slots.lastName (.ofPath path)) kind p.sector, .blank kind p size) ∧
      p.header.length = size ∧ inv'.sectors.Perm (inv.sectors ++ p.sectors) := by
  cases h with
  | looked _ hlooks =>
    cases q <;> first | exact hlooks.elim | cases hq
  | @made _ _ _ _ p slots content hmakes hlength hslots =>
    cases hmakes.symm.trans hq
    obtain ⟨hroot, hfind⟩ := Inventory.find_insert hnul hslots ⟨inv.mapFile.place, content⟩
    have hsectors := Inventory.insert_sectors hslots content
    rw [Node.kind_blank, Node.place_blank] at hfind
    rw [Node.sectors_blank] at hsectors
    exact ⟨hroot, p, hfind, hlength, hsectors⟩
  | removed | opened | closed | sought | read | written | mounted => cases hq

/-- A file just made is found at its path, and all its bytes are zero. -/
theorem Effect.find_created {v v' : Volume} {inv inv' : Inventory} {path : String} {size : Nat}
    {a : Answer} (h : Effect v inv (.create path size) (.ok a) v' inv')
    (hnul : '\x00' ∉ path.toList) :
    path ≠ "/" ∧ ∃ e p, inv'.find path = .ok (e, .file ⟨p, Bytes.zeros size⟩) := by
  obtain ⟨hroot, p, hfind, -⟩ := h.find_made rfl hnul
  exact ⟨hroot, _, p, hfind⟩

/-- What was made takes a header and the blocks for its bytes. -/
theorem Volume.Consistent.length_sectors_insert {v : Volume} {k : Disk} {inv : Inventory}
    {path : String} {kind : Kind} {size : Nat} {p : Place} {slots : NodeSlots} {content : Bytes}
    (h : v.Consistent k ⟨⟨inv.mapFile.place, content⟩, inv.root, slots⟩)
    (hlength : p.header.length = size)
    (hslots : inv.insert path (Node.blank kind p size) = .ok slots) :
    (⟨⟨inv.mapFile.place, content⟩, inv.root, slots⟩ : Inventory).sectors.length =
      inv.sectors.length + (1 + Layout.blocksFor size k.dataSize) := by
  have hcount := (Inventory.insert_sectors hslots content).length_eq
  rw [List.length_append, Node.sectors_blank] at hcount
  obtain ⟨y, hy, rfl, -⟩ := Node.nodes_blank kind p size
  have hmem := (Inventory.insert_nodes hslots ⟨inv.mapFile.place, content⟩).mem_iff.mpr
    (List.mem_append_right _ (hy ▸ List.mem_cons_self))
  obtain ⟨bytes, hfile⟩ := h.hasFile (List.mem_cons_of_mem _ hmem)
  rw [hcount, ← hlength, ← hfile.blocks, Nat.add_comm 1]
  rfl

/-- **The effect of a call** is a step of the tree. -/
theorem Effect.step {v v' : Volume} {k k' : Disk} {inv inv' : Inventory} {q : Request}
    {r : Except VolumeError Answer} (h : Effect v inv q r v' inv') (hv : v.Consistent k inv)
    (hv' : v'.Consistent k' inv') (hsame : k.SameSize k')
    (hnul : ∀ path kind size, q.makes = some (path, kind, size) → '\x00' ∉ path.toList) :
    Namespace.Step k.dataSize ⟨Slots.view inv.slots, (inv.freeMap k.sectors).numFree⟩ q r
      ⟨Slots.view inv'.slots, (inv'.freeMap k'.sectors).numFree⟩ := by
  have hfree := hv.numFree_add
  have hfree' := hv'.numFree_add
  rw [hsame.sectors] at hfree' ⊢
  cases h with
  | failed e => exact .failed q e
  | looked a hq =>
    refine .other a ?_ ?_
    · cases q <;> first | rfl | exact hq.elim
    · rintro path recursive rfl
      exact hq
  | opened _ _ => exact .other _ rfl (by rintro _ _ ⟨⟩)
  | closed _ => exact .other _ rfl (by rintro _ _ ⟨⟩)
  | sought _ _ => exact .other _ rfl (by rintro _ _ ⟨⟩)
  | read _ _ _ => exact .other _ rfl (by rintro _ _ ⟨⟩)
  | mounted => exact .other _ rfl (by rintro _ _ ⟨⟩)
  | @made q path kind size p slots content hq hlength hslots =>
    have hview := Slots.insert_view (hnul _ _ _ hq) hslots
    rw [Node.view_blank] at hview
    have hcount := hv'.length_sectors_insert hlength hslots
    rw [hsame.dataSize] at hcount
    refine .made hq hview ?_
    dsimp only
    omega
  | @removed path recursive e t slots content hfind hslots =>
    have hcount := (Inventory.erase_sectors hslots hfind content).length_eq
    rw [List.length_append, (hv.found hfind).1.length_sectors hv.dataSize_pos] at hcount
    have hfollow : Slots.follow Entry.name path (.ofPath path) inv.slots = .ok (e, t) := hfind
    refine .removed (t := t.view) ?_ (Slots.erase_view hslots) ?_
    · unfold Namespace.find
      rw [Slots.follow_view, hfollow]
      rfl
    · dsimp only
      omega
  | @written id f s bytes new hf hs hsector hnew =>
    have hview : Slots.view (inv.replace
        (Volume.rewrite f.sector (Bytes.splice s.content f.position new))).slots =
          Slots.view inv.slots := by
      refine Slots.view_map fun e t ht => Tree.view_replace fun g hg => ?_
      unfold Volume.rewrite
      split
      · rename_i hrewritten
        have hmem : .inl g ∈ inv.tree.nodes := by
          rw [Inventory.tree_nodes]
          exact List.mem_cons_of_mem _ (Slots.nodes_subset ht hg)
        cases hv.eq_of_sector hmem hs (hrewritten.trans hsector.symm)
        rw [hnew, Volume.length_splice_take]
      · rfl
    rw [hview]
    exact .other _ rfl (by rintro _ _ ⟨⟩)

namespace Usage

variable {blank : Drive} {u : Usage}

/-- **The names of a volume are a tree.** In every state of a run the tree can be read from the
device; a call takes one step on it, a new file has only zeros, and a path is found just if the tree
has something there, with its kind and its length. -/
theorem reached_namespace (hblank : blank.FaultFree) (hlimit : blank.device.sectors ≤ Link.limit)
    (h : Reached blank u) {q : Request} (hq : q.Permitted u)
    (hnul : ∀ path kind size, q.makes = some (path, kind, size) → '\x00' ∉ path.toList) :
    ∃ ns ns', u.ask u.volume.view = .ok ns ∧
      (u.call q).2.ask (u.call q).2.volume.view = .ok ns' ∧
      ns.Step (Layout.dataSize blank.device.sectorSize) q (u.call q).1 ns' ∧
      (∀ path size a, q = .create path size → (u.call q).1 = .ok a →
        (u.call q).2.ask ((u.call q).2.volume.contentAt path) = .ok (Bytes.zeros size)) ∧
      (Tree.directory () ns.slots).Sized Layout.directorySlots ∧
      ∀ path, (u.ask (u.volume.findEntry path)).map Entry.kind = (ns.find path).map Tree.kind ∧
        ((u.ask (u.volume.stat path)).map fun s => (s.kind, s.length)) = ns.stat path := by
  obtain ⟨inv, hu, hsize⟩ := h.sound hblank hlimit
  obtain ⟨inv', heffect, hu', hsame⟩ := hu.call hq
  have hv := hu.consistent
  have hstep := heffect.step hv hu'.consistent hsame hnul
  rw [hsize.dataSize] at hstep
  refine ⟨_, _, ask_eq hu.fault_free hv.view_yields,
    ask_eq hu'.fault_free hu'.consistent.view_yields, hstep, ?_, ?_, fun path => ⟨?_, ?_⟩⟩
  · rintro path size a rfl ha
    rw [ha] at heffect
    obtain ⟨hroot, e, p, hfind⟩ := heffect.find_created (hnul _ _ _ rfl)
    exact ask_eq hu'.fault_free (hu'.consistent.contentAt_yields hroot hfind)
  · have hsized := hv.held.sized_view
    unfold Tree.view Inventory.tree at hsized
    rwa [Tree.map_directory] at hsized
  · obtain ⟨r, hy, hr⟩ := hv.findEntry_view path (inv.freeMap u.drive.disk.sectors).numFree
    rw [ask_eq hu.fault_free hy]
    exact hr
  · obtain ⟨r, hy, hr⟩ := hv.stat_view path (inv.freeMap u.drive.disk.sectors).numFree
    rw [ask_eq hu.fault_free hy]
    exact hr

theorem reached_namespace_blank : ∃ u : Usage, ∃ ns ns', u.ask u.volume.view = .ok ns ∧
    ns.Step 120 (.create "/a" 5) (u.call (.create "/a" 5)).1 ns' ∧
    ∀ path, (u.ask (u.volume.findEntry path)).map Entry.kind = (ns.find path).map Tree.kind := by
  have hblank := Drive.faultFree_blank 64 128
  obtain ⟨v, d, hformat⟩ := (Volume.format_ok_iff hblank (by decide)).mpr (by decide)
  obtain ⟨ns, ns', hns, -, hstep, -, -, hfind⟩ :=
    reached_namespace hblank (by decide) (.format hformat) (q := .create "/a" 5) trivial
      (by rintro _ _ _ ⟨⟩; decide)
  exact ⟨_, ns, ns', hns, hstep, fun path => (hfind path).1⟩

/-! ## A file in use -/

/-- A file with a new name is made in the root, when there is an unused slot and room for it. -/
theorem Sound.create_in_root {inv : Inventory} (h : u.Sound inv) {path n : String} {size i : Nat}
    (hroute : Route.ofPath path = .last n) (hnew : Slots.find? Entry.name inv.slots n = none)
    (hslot : inv.slots.findIdx? Option.isNone = some i) (hsize : size < 0x80000000)
    (hroom : inv.sectors.length + (1 + Layout.blocksFor size u.drive.disk.dataSize) ≤
      u.drive.disk.sectors) :
    ∃ u' inv' p, u.call (.create path size) = (.ok .done, u') ∧ u'.volume = u.volume ∧
      Effect u.volume inv (.create path size) (.ok .done) u'.volume inv' ∧
      u'.Sound inv' ∧ u.drive.disk.SameSize u'.drive.disk ∧
      inv'.slots = inv.slots.set i
        (some (Entry.ofFile n .file (Place.sector p), Node.blank .file p size)) ∧
      inv'.sectors.length =
        inv.sectors.length + (1 + Layout.blocksFor size u.drive.disk.dataSize) := by
  obtain ⟨k', hy⟩ := h.consistent.make_in_root hroute hnew hslot hsize hroom
    fun hkind : Kind.file = .directory => by cases hkind
  have hperform : Yields ((Request.create path size).perform u.volume) u.drive.disk
      (.ok (.done, u.volume)) k' := hy.bind (Yields.pure _ k')
  obtain ⟨d, -, -, hcall⟩ := call_ok h.fault_free hperform
  obtain ⟨inv', heffect, hu', hsame⟩ := h.call (q := .create path size) trivial
  rw [hcall] at heffect hu' hsame
  dsimp only at heffect hu' hsame
  generalize u.next (.create path size) .done d u.volume = u' at hcall heffect hu' hsame
  have heffect' := heffect
  generalize hvolume : u'.volume = v' at heffect'
  cases heffect' with
  | looked _ hq => exact hq.elim
  | @made _ _ _ _ p slots content hmakes hlength hslots =>
    cases hmakes
    have hcount := hu'.consistent.length_sectors_insert hlength hslots
    rw [hsame.dataSize] at hcount
    refine ⟨u', _, p, hcall, hvolume, heffect, hu', hsame, ?_, hcount⟩
    unfold Inventory.insert at hslots
    rw [hroute] at hslots
    obtain ⟨-, j, hj, -, rfl⟩ := Slots.insert_eq_ok hslots
    cases hslot.symm.trans hj
    rfl

/-- There is room for a file on a small volume. -/
theorem exists_created : ∃ v d u inv inv',
    Volume.format { device := .blank 64 128 } = .ok v d ∧
    ({ drive := d, volume := v } : Usage).call (.create "/a" 5) = (.ok .done, u) ∧
    Effect v inv (.create "/a" 5) (.ok .done) u.volume inv' ∧ u.Sound inv' ∧
    u.volume.openFiles = .empty Layout.maxOpen := by
  obtain ⟨v, d, inv, hformat, hu, hdata, hsectors, hslots, hcount, hopen⟩ := exists_formatted
  have hroute : Route.ofPath "/a" = .last "a" := by decide
  have hnew : Slots.find? Entry.name inv.slots "a" = none := by
    rw [hslots]
    exact Slots.find?_replicate_none _ _
  have hslot : inv.slots.findIdx? Option.isNone = some 0 := by
    rw [hslots]
    rfl
  have hroom : inv.sectors.length + (1 + Layout.blocksFor 5 d.disk.dataSize) ≤ d.disk.sectors := by
    rw [hcount, hdata, hsectors]
    decide
  obtain ⟨u, inv', -, hcall, hvolume, heffect, hu', -⟩ :=
    hu.create_in_root hroute hnew hslot (by decide) hroom
  exact ⟨v, d, u, inv, inv', hformat, hcall, heffect, hu', hvolume ▸ hopen⟩

/-- The file can be opened. -/
theorem Reached.exists_opening : ∃ u u' f, Reached { device := .blank 64 128 } u ∧
    u.call (.openId "/a") = (.ok (.id 0), u') ∧ u'.volume.openFiles.get? 0 = some f ∧
    u'.opened 0 = some .file := by
  obtain ⟨v, d, u, inv, inv', hformat, hcall, heffect, hu, hopen⟩ := exists_created
  have hreached := Reached.call (.create "/a" 5) (.format hformat) trivial
  rw [hcall] at hreached
  obtain ⟨hroot, e, p, hfind⟩ := heffect.find_created (by decide)
  have hlocate : inv'.locate "/a" = .ok (.file, p) := by
    unfold Inventory.locate
    rw [if_neg hroot, hfind]
    rfl
  have hinsert : u.volume.openFiles.insert p.handle =
      .ok (0, (HandleTable.empty Layout.maxOpen).set 0 (some p.handle)) := by
    rw [hopen]
    rfl
  obtain ⟨u', hopened, -, -, hvolume, hkinds, -⟩ :=
    call_openId hu.fault_free hu.consistent.toLegible hlocate hinsert
  refine ⟨u, u', p.handle, hreached, hopened, ?_, ?_⟩
  · rw [hvolume]
    rfl
  · rw [hkinds]
    exact Function.update_self _ _ _

theorem Reached.exists_open : ∃ u f, Reached { device := .blank 64 128 } u ∧
    u.volume.openFiles.get? 0 = some f ∧ u.opened 0 = some .file := by
  obtain ⟨u, u', f, hu, hopened, hf, hkind⟩ := exists_opening
  have hreached := hu.call (.openId "/a") trivial
  rw [hopened] at hreached
  exact ⟨u', f, hreached, hf, hkind⟩

end Usage

end SectorChain
