import SectorChain.Proofs.Namespace

/-!
# What is open stays

An id stands for a handle with a header that was read when the id was opened, and is never read
again. This is safe because the file or directory that is open stays where it is. Its `address` is
the number of a slot in each table on the way to it from the root: until the id is closed, the tree
has at this address what was opened, with the header sector, the header and the chain of then.

An address is used and not a path, since a path leads to the first entry of its name, and names
with a NUL in them may come to share one.

Results:
* `change_insert_node?`, `change_erase_node?`: a change of the tree leaves all else at its address.
* `node?_unique`: when no sector belongs to two files, a sector is that of one address.
* `Sound.remove_pinned`: nothing is removed that has an open file in it.
* `Sound.pins_call`: a call that does not close the id leaves what it is open on.
* `reached_pinned`: so it is in every state of a run.
-/

namespace SectorChain

variable {α β ε α' β' ε' : Type}

/-! ## Addresses -/

namespace Tree

/-- What is kept of the file or directory at an address: the numbers of the slots on the way. -/
def node? : (address : List Nat) → Tree α β ε → Option (α ⊕ β)
  | [], .file a => some (.inl a)
  | [], .directory b _ => some (.inr b)
  | _ :: _, .file _ => none
  | i :: rest, .directory _ slots => slots[i]?.join.bind fun p => node? rest p.2

theorem node?_cons {i : Nat} {rest : List Nat} {b : β} {slots : Slots α β ε} {x : α ⊕ β} :
    node? (i :: rest) (.directory b slots) = some x ↔
      ∃ e t, slots[i]? = some (some (e, t)) ∧ t.node? rest = some x := by
  rw [node?, Option.bind_eq_some_iff]
  constructor
  · rintro ⟨⟨e, t⟩, hi, hx⟩
    exact ⟨e, t, Option.join_eq_some_iff.mp hi, hx⟩
  · rintro ⟨e, t, hi, hx⟩
    exact ⟨(e, t), Option.join_eq_some_iff.mpr hi, hx⟩

theorem mem_of_node? {address : List Nat} {t : Tree α β ε} {x : α ⊕ β}
    (h : t.node? address = some x) : x ∈ t.nodes := by
  induction address generalizing t with
  | nil =>
    cases t with
    | file a =>
      cases h
      simp
    | directory b slots =>
      cases h
      simp
  | cons i rest ih =>
    cases t with
    | file a => cases h
    | directory b slots =>
      obtain ⟨e, t, hi, hx⟩ := node?_cons.mp h
      rw [nodes_directory]
      exact List.mem_cons_of_mem _ (Slots.nodes_subset (List.mem_of_getElem? hi) (ih hx))

/-- Everything in a tree has an address. -/
theorem exists_node? {t : Tree α β ε} {x : α ⊕ β} (h : x ∈ t.nodes) :
    ∃ address, t.node? address = some x := by
  induction t using Tree.induction with
  | file a =>
    rw [nodes_file, List.mem_singleton] at h
    subst h
    exact ⟨[], rfl⟩
  | directory b slots ih =>
    rw [nodes_directory] at h
    rcases List.mem_cons.mp h with rfl | h
    · exact ⟨[], rfl⟩
    · obtain ⟨⟨e, t⟩, ht, hx⟩ := List.mem_flatMap.mp h
      have ht := Slots.mem_children.mp ht
      obtain ⟨i, hi⟩ := List.mem_iff_getElem?.mp ht
      obtain ⟨rest, hrest⟩ := ih e t ht hx
      exact ⟨i :: rest, node?_cons.mpr ⟨e, t, hi, hrest⟩⟩

/-- A view of a tree has the views of its files and directories at their addresses. -/
theorem node?_map (f : α → α') (g : β → β') (h : ε → ε') (address : List Nat)
    (t : Tree α β ε) : (t.map f g h).node? address = (t.node? address).map (Sum.map f g) := by
  induction address generalizing t with
  | nil => cases t <;> simp [node?]
  | cons i rest ih =>
    cases t with
    | file a => rfl
    | directory b slots =>
      rw [map_directory, node?, node?]
      unfold Slots.map
      rw [List.getElem?_map]
      cases slots[i]? with
      | none => rfl
      | some slot =>
        cases slot with
        | none => rfl
        | some p => exact ih p.2

end Tree

namespace Slots

variable {name : ε → String} {path : String} {r : Route} {slots slots' s s' : Slots α β ε}
  {x : α ⊕ β}

/-- What is not in a slot keeps its address when the slot is changed. -/
theorem node?_set {i : Nat} (hx : ∀ e t, slots[i]? = some (some (e, t)) → x ∉ t.nodes)
    (o : Option (ε × Tree α β ε)) (b : β) {address : List Nat}
    (h : (Tree.directory b slots).node? address = some x) :
    (Tree.directory b (slots.set i o)).node? address = some x := by
  cases address with
  | nil => exact h
  | cons j rest =>
    obtain ⟨e, t, hj, hrest⟩ := Tree.node?_cons.mp h
    by_cases hij : i = j
    · subst hij
      exact absurd (Tree.mem_of_node? hrest) (hx e t hj)
    · refine Tree.node?_cons.mpr ⟨e, t, ?_, hrest⟩
      rw [List.getElem?_set_ne hij, hj]

/-- What keeps its address in the table that is changed keeps it in the whole tree. -/
theorem Spliced.node? (h : Spliced s s' slots slots')
    (hs : ∀ b address, (Tree.directory b s).node? address = some x →
      (Tree.directory b s').node? address = some x) (b : β) {address : List Nat}
    (hx : (Tree.directory b slots).node? address = some x) :
    (Tree.directory b slots').node? address = some x := by
  induction h generalizing b address with
  | here => exact hs b address hx
  | @inside slots inner inner' i e b' hi _ ih =>
    cases address with
    | nil => exact hx
    | cons j rest =>
      obtain ⟨e', t, hj, hrest⟩ := Tree.node?_cons.mp hx
      by_cases hij : i = j
      · subst hij
        cases hi.symm.trans hj
        obtain ⟨hlt, -⟩ := List.getElem?_eq_some_iff.mp hi
        exact Tree.node?_cons.mpr ⟨e, _, List.getElem?_set_self hlt, ih b' hrest⟩
      · refine Tree.node?_cons.mpr ⟨e', t, ?_, hrest⟩
        rw [List.getElem?_set_ne hij, hj]

/-- **An insertion** leaves everything at its address. -/
theorem change_insert_node? {label : String → ε} {t : Tree α β ε}
    (h : change name path (insert name path label t) r slots = .ok slots') (b : β)
    {address : List Nat} (hx : (Tree.directory b slots).node? address = some x) :
    (Tree.directory b slots').node? address = some x := by
  obtain ⟨s, s', hs, hedit, -⟩ := change_spliced h
  obtain ⟨-, i, -, hfree, rfl⟩ := insert_eq_ok hedit
  refine hs.node? ?_ b hx
  intro b address hx
  refine node?_set ?_ _ b hx
  intro e t hi
  cases hi.symm.trans hfree

/-- **An erasure** leaves everything at its address that is not erased. -/
theorem change_erase_node? {e : ε} {t : Tree α β ε}
    (h : change name path (erase name path) r slots = .ok slots')
    (hfollow : follow name path r slots = .ok (e, t)) (hout : x ∉ t.nodes) (b : β)
    {address : List Nat} (hx : (Tree.directory b slots).node? address = some x) :
    (Tree.directory b slots').node? address = some x := by
  obtain ⟨s, s', hs, hedit, heq⟩ := change_spliced h
  obtain ⟨i, e', t', hfind, rfl⟩ := erase_eq_ok hedit
  rw [hfollow, follow, hfind] at heq
  cases heq
  refine hs.node? ?_ b hx
  intro b address hx
  refine node?_set ?_ _ b hx
  intro e' t' hi
  cases hi.symm.trans (find?_eq_some hfind).1
  exact hout

end Slots

/-- A directory has no sector of what is below it, if none is in the tree twice. -/
theorem Tree.not_mem_below {t : Node} (hnodup : t.sectors.Nodup) {i : Nat} {rest : List Nat}
    {x y : Stored ⊕ Place} {s : Nat} (hx : t.node? [] = some x)
    (hy : t.node? (i :: rest) = some y) (hsx : s ∈ (placeOf x).sectors) :
    s ∉ (placeOf y).sectors := by
  intro hsy
  cases t with
  | file f => cases hy
  | directory p slots =>
    cases hx
    obtain ⟨e, t, hi, hy⟩ := Tree.node?_cons.mp hy
    have hbelow : y ∈ Slots.nodes slots :=
      Slots.nodes_subset (List.mem_of_getElem? hi) (Tree.mem_of_node? hy)
    rw [sectors_directory] at hnodup
    exact (List.nodup_append.mp hnodup).2.2 s hsx s (mem_sectorsOf.mpr ⟨y, hbelow, hsy⟩) rfl

/-- **A sector is that of one address**, if none is in the tree twice: nothing at another address
has it. -/
theorem Tree.node?_unique {t : Node} (hnodup : t.sectors.Nodup) {address address' : List Nat}
    {x y : Stored ⊕ Place} {s : Nat} (hx : t.node? address = some x)
    (hy : t.node? address' = some y) (hsx : s ∈ (placeOf x).sectors)
    (hsy : s ∈ (placeOf y).sectors) : address = address' := by
  induction address generalizing t address' with
  | nil =>
    cases address' with
    | nil => rfl
    | cons j rest' => exact absurd hsy (not_mem_below hnodup hx hy hsx)
  | cons i rest ih =>
    cases address' with
    | nil => exact absurd hsx (not_mem_below hnodup hy hx hsy)
    | cons j rest' =>
      cases t with
      | file f => cases hx
      | directory p slots =>
        obtain ⟨e, t, hi, hx⟩ := Tree.node?_cons.mp hx
        obtain ⟨e', t', hj, hy⟩ := Tree.node?_cons.mp hy
        rw [sectors_directory] at hnodup
        -- what is in slot `i` is apart from what is in the others
        have hparts := (sectorsOf_perm (Slots.nodes_perm hi)).nodup_iff.mp
          (List.nodup_append.mp hnodup).2.1
        rw [sectorsOf_append] at hparts
        obtain ⟨ht, -, hapart⟩ := List.nodup_append.mp hparts
        by_cases hij : i = j
        · subst hij
          cases hi.symm.trans hj
          rw [ih ht hx hy]
        · have hothers : y ∈ Slots.nodes (slots.set i none) := by
            refine Slots.nodes_subset (e := e') (List.mem_of_getElem? (i := j) ?_)
              (Tree.mem_of_node? hy)
            rw [List.getElem?_set_ne hij, hj]
          exact absurd rfl (hapart s (mem_sectorsOf.mpr ⟨x, Tree.mem_of_node? hx, hsx⟩) s
            (mem_sectorsOf.mpr ⟨y, hothers, hsy⟩))

/-! ## Open ids -/

namespace Volume

variable {v : Volume} {id i : Nat} {f : Handle}

/-- A new position leaves every id open on what it is open on. -/
theorem get?_setOpen_seek {g : Handle} (hg : v.openFiles.get? i = some g) (position : Nat)
    (hf : v.openFiles.get? id = some f) :
    ∃ f', (v.setOpen i (g.seek position)).openFiles.get? id = some f' ∧ f'.sector = f.sector ∧
      f'.header = f.header := by
  unfold setOpen
  rw [HandleTable.get?_set]
  by_cases hid : i = id
  · subst hid
    cases hg.symm.trans hf
    rw [if_pos ⟨rfl, HandleTable.lt_length_of_get? hf⟩]
    exact ⟨_, rfl, rfl, rfl⟩
  · rw [if_neg (fun h => hid h.1)]
    exact ⟨f, hf, rfl, rfl⟩

end Volume

namespace Effect

variable {v v' : Volume} {inv inv' : Inventory} {q : Request} {r : Except VolumeError Answer}

/-- **An id stays open** on what it is open on, until it is closed. -/
theorem get?_open (h : Effect v inv q r v' inv') {id : Nat} {f : Handle}
    (hclose : q ≠ .closeId id) (hmount : q ≠ .mount) (hf : v.openFiles.get? id = some f) :
    ∃ f', v'.openFiles.get? id = some f' ∧ f'.sector = f.sector ∧ f'.header = f.header := by
  cases h with
  | failed | looked | made | removed => exact ⟨f, hf, rfl, rfl⟩
  | @opened _ _ p i t _ hinsert =>
    obtain ⟨rfl, -, hfree⟩ := HandleTable.insert_eq_ok hinsert
    have hid : i ≠ id := by
      rintro rfl
      cases hf.symm.trans hfree
    refine ⟨f, ?_, rfl, rfl⟩
    rw [HandleTable.get?_set, if_neg (fun h => hid h.1)]
    exact hf
  | @closed i _ _ =>
    have hid : i ≠ id := by
      rintro rfl
      exact hclose rfl
    refine ⟨f, ?_, rfl, rfl⟩
    rw [HandleTable.get?_set, if_neg (fun h => hid h.1)]
    exact hf
  | sought position hg => exact Volume.get?_setOpen_seek hg _ hf
  | read count hg _ => exact Volume.get?_setOpen_seek hg _ hf
  | written hg _ _ _ => exact Volume.get?_setOpen_seek hg _ hf
  | mounted => exact absurd rfl hmount

/-- **What stays in the tree stays at its address**, with its place. -/
theorem node? (h : Effect v inv q r v' inv') (hnodup : inv.sectors.Nodup) {address : List Nat}
    {x : Stored ⊕ Place} (hx : inv.tree.node? address = some x)
    (hstays : ∃ y ∈ inv'.tree.nodes, (placeOf y).sector = (placeOf x).sector) :
    ∃ y, inv'.tree.node? address = some y ∧ placeOf y = placeOf x ∧ kindOf y = kindOf x := by
  cases h with
  | failed | looked | opened | closed | sought | read | mounted => exact ⟨x, hx, rfl, rfl⟩
  | made content hq hlength hslots =>
    exact ⟨x, Slots.change_insert_node? hslots inv.root hx, rfl, rfl⟩
  | removed content hfind hslots =>
    obtain ⟨y, hy, hsector⟩ := hstays
    have hout : x ∉ _ := fun hmem =>
      Inventory.erase_apart hslots hfind hnodup hy hmem hsector
    exact ⟨x, Slots.change_erase_node? hslots hfind hout inv.root hx, rfl, rfl⟩
  | @written i f s bytes new hf hs hsector hnew =>
    have hplace := Volume.place_rewrite f.sector (Bytes.splice s.content f.position new)
    refine ⟨x.map (Volume.rewrite f.sector (Bytes.splice s.content f.position new)) id, ?_,
      place_replace hplace x, kindOf_replace _ x⟩
    rw [Inventory.tree_replace, Tree.replace, Tree.node?_map, hx]
    rfl

end Effect

namespace Usage

variable {blank : Drive} {u : Usage} {inv : Inventory}

/-- **The id is open on what is at the address**, which is of this kind and lies at this place. -/
structure Pins (u : Usage) (inv : Inventory) (id : Nat) (address : List Nat) (kind : Kind)
    (p : Place) : Prop where
  node : ∃ x, inv.tree.node? address = some x ∧ placeOf x = p ∧ kindOf x = kind
  handle : ∃ f, u.volume.openFiles.get? id = some f ∧ f.sector = p.sector ∧ f.header = p.header

namespace Sound

theorem remove_fails (h : u.Sound inv) {path : String} {recursive : Bool} {error : VolumeError}
    {k' : Disk} (hy : Yields (u.volume.remove path recursive) u.drive.disk (.error error) k') :
    (u.call (.remove path recursive)).1 = .error error := by
  have hperform : Yields ((Request.remove path recursive).perform u.volume) u.drive.disk
      (.error error) k' := hy.bind_error
  obtain ⟨d, -, -, hcall⟩ := call_error h.fault_free hperform
  exact congrArg Prod.fst hcall

/-- **Nothing is removed that has an open file in it.** -/
theorem remove_pinned (h : u.Sound inv) {id : Nat} {f : Handle}
    (hf : u.volume.openFiles.get? id = some f) {path : String} {e : Entry} {t : Node}
    (hfind : inv.find path = .ok (e, t)) {x : Stored ⊕ Place} (hx : x ∈ t.nodes)
    (hsector : (placeOf x).sector = f.sector) (recursive : Bool) :
    ∃ error, (u.call (.remove path recursive)).1 = .error error ∧
      (error = .directoryNotEmpty path ∧ recursive = false ∨ ∃ q, error = .stillOpen q) := by
  obtain ⟨slots, herase⟩ := Inventory.erase_ok hfind
  have hfault := Slots.fault?_of_change herase
  have hpath := Path.validate_of_fault? hfault
  have hroot := Route.ne_root_of_fault? hfault
  have hv := h.consistent
  by_cases hempty : t.occupied = true → recursive = true
  · cases hopen : t.firstOpen u.volume.openFiles.holds path with
    | some q =>
      exact ⟨_, h.remove_fails (hv.remove_open hpath hroot hfind hempty hopen), .inr ⟨q, rfl⟩⟩
    | none =>
      have hholds := (Tree.firstOpen_eq_none path).mp hopen x hx
      rw [hsector, HandleTable.holds_of_get? hf] at hholds
      cases hholds
  · obtain ⟨hoccupied, hrecursive⟩ := Classical.not_imp.mp hempty
    rw [Bool.not_eq_true] at hrecursive
    subst hrecursive
    have hfails := h.remove_fails (hv.remove_occupied hpath hroot hfind hoccupied)
    exact ⟨_, hfails, .inl ⟨rfl, rfl⟩⟩

/-- **A call that does not close the id** leaves it open on what it is open on. -/
theorem pins_call (h : u.Sound inv) {id : Nat} {address : List Nat} {kind : Kind} {p : Place}
    (hp : u.Pins inv id address kind p) {q : Request} (hq : q.Permitted u)
    (hclose : q ≠ .closeId id) (hmount : q ≠ .mount) :
    ∃ inv', (u.call q).2.Sound inv' ∧ (u.call q).2.Pins inv' id address kind p := by
  obtain ⟨⟨x, hx, rfl, rfl⟩, f, hf, hsector, hheader⟩ := hp
  obtain ⟨inv', heffect, hu', -⟩ := h.call hq
  obtain ⟨f', hf', hsector', hheader'⟩ := heffect.get?_open hclose hmount hf
  refine ⟨inv', hu', ?_, f', hf', hsector'.trans hsector, hheader'.trans hheader⟩
  -- the handle that is open then leads to something in the tree
  obtain ⟨y, hy, hopen, -⟩ := hu'.consistent.open_files id f' hf'
  refine heffect.node? h.consistent.nodup hx ⟨y, hy, ?_⟩
  rw [hopen, hsector', hsector]

/-- An id that was opened is open on what its path leads to. -/
theorem pins_openId (h : u.Sound inv) {path : String} {id : Nat} {u' : Usage}
    (hopen : u.call (.openId path) = (.ok (.id id), u')) :
    ∃ address kind p, inv.locate path = .ok (kind, p) ∧ u'.Sound inv ∧
      u'.Pins inv id address kind p := by
  obtain ⟨inv', heffect, hu', -⟩ := h.call (q := .openId path) trivial
  rw [hopen] at heffect hu'
  dsimp only at heffect hu'
  generalize hv' : u'.volume = v' at heffect
  cases heffect with
  | looked _ hq => exact hq.elim
  | opened hlocate hinsert =>
    obtain ⟨x, hx, rfl, rfl⟩ := Inventory.locate_mem hlocate
    obtain ⟨address, haddress⟩ := Tree.exists_node? hx
    obtain ⟨rfl, hlt, -⟩ := HandleTable.insert_eq_ok hinsert
    refine ⟨address, _, _, hlocate, hu', ⟨x, haddress, rfl, rfl⟩, (placeOf x).handle, ?_, rfl, rfl⟩
    rw [hv', HandleTable.get?_set, if_pos ⟨rfl, hlt⟩]

end Sound

/-- **As long as an id is not closed**, what it was opened on is in the tree at the same address,
with the header that the id has. -/
theorem Onward.pinned {u₀ : Usage} {inv₀ : Inventory} {id : Nat} {address : List Nat} {kind : Kind}
    {p : Place} (h : Onward (fun q => q ≠ .closeId id ∧ q ≠ .mount) u₀ u) (h₀ : u₀.Sound inv₀)
    (hp : u₀.Pins inv₀ id address kind p) :
    ∃ inv, u.Sound inv ∧ u.Pins inv id address kind p := by
  induction h with
  | start => exact ⟨inv₀, h₀, hp⟩
  | call q _ hq hallowed ih =>
    obtain ⟨inv, hu, hpins⟩ := ih
    exact hu.pins_call hpins hq hallowed.1 hallowed.2

/-- **Open ids pin their files.** From the opening of an id on, whatever is called but its closing,
the tree has at one and the same address what the path of the opening led to, with the same header
sector and chain. No sector is in use twice; and so these belong to nothing else, neither to the
free map nor to anything at another address. The header on the device is the one that the id has.
Nothing is removed that has it in it. -/
theorem reached_pinned (hblank : blank.FaultFree) (hlimit : blank.device.sectors ≤ Link.limit)
    {u₀ u₁ : Usage} (h₀ : Reached blank u₀) {path : String} {id : Nat}
    (hopen : u₀.call (.openId path) = (.ok (.id id), u₁))
    (h : Onward (fun q => q ≠ .closeId id ∧ q ≠ .mount) u₁ u) :
    ∃ inv₀ inv address x p f,
      u₀.ask Volume.survey = .ok inv₀ ∧ u.ask Volume.survey = .ok inv ∧
      inv₀.locate path = .ok (kindOf x, p) ∧
      (inv₀.tree.node? address).map placeOf = some p ∧
      inv.tree.node? address = some x ∧ placeOf x = p ∧
      u.volume.openFiles.get? id = some f ∧ f.sector = p.sector ∧
      u.ask (Header.fetch f.sector) = .ok f.header ∧ u.ask f.header.chain = .ok p.chain ∧
      inv.sectors.Nodup ∧
      (∀ s ∈ p.sectors, s ∉ inv.mapFile.place.sectors ∧
        ∀ address' y, inv.tree.node? address' = some y → s ∈ (placeOf y).sectors →
          address' = address) ∧
      (∀ recursive, (u.call (.remove "/" recursive)).1 = .error (.invalidPath "/")) ∧
      ∀ path recursive e t, inv.find path = .ok (e, t) → x ∈ t.nodes →
        ∃ error, (u.call (.remove path recursive)).1 = .error error ∧
          (error = .directoryNotEmpty path ∧ recursive = false ∨ ∃ q, error = .stillOpen q) := by
  obtain ⟨inv₀, hu₀, -⟩ := h₀.sound hblank hlimit
  obtain ⟨address, kind, p, hlocate, hu₁, hpins₁⟩ := hu₀.pins_openId hopen
  obtain ⟨inv, hu, ⟨x, hx, rfl, rfl⟩, f, hf, hsector, hheader⟩ := h.pinned hu₁ hpins₁
  obtain ⟨x₀, hx₀, hplace₀, -⟩ := hpins₁.node
  have hmem : x ∈ inv.nodes := List.mem_cons_of_mem _ (Tree.mem_of_node? hx)
  obtain ⟨content, hfile⟩ := hu.consistent.hasFile hmem
  obtain ⟨-, htree, hapart⟩ := Inventory.nodup_split hu.consistent.nodup
  refine ⟨inv₀, inv, address, x, placeOf x, f, ask_eq hu₀.fault_free hu₀.consistent.survey_yields,
    ask_eq hu.fault_free hu.consistent.survey_yields, hlocate, ?_, hx, rfl, hf, hsector, ?_, ?_,
    hu.consistent.nodup, fun s hs => ⟨fun hmap => ?_, fun address' y hy hsy => ?_⟩, ?_, ?_⟩
  · rw [hx₀, Option.map_some, hplace₀]
  · rw [hsector, hheader]
    exact ask_eq hu.fault_free hfile.header.fetch_yields
  · rw [hheader]
    exact ask_eq hu.fault_free hfile.chained.chain_yields
  · exact hapart s hmap (mem_sectorsOf.mpr ⟨x, Tree.mem_of_node? hx, hs⟩)
  · exact Tree.node?_unique htree hy hx hsy hs
  · intro recursive
    exact hu.remove_fails (Volume.remove_refused _ (.inr ⟨rfl, rfl⟩))
  · intro path recursive e t hfind hin
    exact hu.remove_pinned hf hfind hin hsector.symm recursive

/-- A file stays open on its place while its removal is tried, and is at one address. -/
theorem reached_pinned_remove : ∃ u₀ u₁ : Usage, ∃ inv : Inventory, ∃ x address, ∃ f : Handle,
    u₀.call (.openId "/a") = (.ok (.id 0), u₁) ∧
      (u₁.call (.remove "/a" true)).2.ask Volume.survey = .ok inv ∧
      inv.tree.node? address = some x ∧ (placeOf x).sector = f.sector ∧
      (u₁.call (.remove "/a" true)).2.ask (Header.fetch f.sector) = .ok f.header ∧
      ∀ address', inv.tree.node? address' = some x → address' = address := by
  obtain ⟨u₀, u₁, -, hu₀, hopen, -, -⟩ := Reached.exists_opening
  have hrun : Onward (fun q => q ≠ .closeId 0 ∧ q ≠ .mount) u₁
      (u₁.call (.remove "/a" true)).2 :=
    .call _ .start trivial ⟨by rintro ⟨⟩, by rintro ⟨⟩⟩
  obtain
    ⟨inv₀, inv, address, x, p, f, -, hinv, -, -, hx, rfl, -, hsector, hheader, -, -, hown, -⟩ :=
    reached_pinned (Drive.faultFree_blank 64 128) (by decide) hu₀ hopen hrun
  exact ⟨u₀, u₁, inv, x, address, f, hopen, hinv, hx, hsector.symm, hheader, fun address' hx' =>
    (hown _ List.mem_cons_self).2 address' x hx' List.mem_cons_self⟩

end Usage

end SectorChain
