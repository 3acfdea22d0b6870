import SectorChain.Volume
import SectorChain.Proofs.Change

/-!
# Giving back the space of a tree

A tree is released from the inside out, in the free map alone: the trees in the slots of a
directory in their order, then the chain of its own file, then its header. The first file on the
way that is open by id stops the release.

Results:
* `release_open`: a tree with an open file in it is not released, and the error names the first.
* `release_yields`: otherwise just the sectors of the tree are free afterwards.
-/

namespace SectorChain

namespace Tree

/-- The path of the first file or directory of a tree whose header sector is `open`, each directory
before those in it, where the tree is at `path`. -/
def firstOpen (isOpen : Nat → Bool) : Tree Stored Place Entry → (path : String) → Option String :=
  fold (fun f path => if isOpen f.place.sector then some path else none) fun p below path =>
    if isOpen p.sector then some path
    else below.reduceOption.findSome? fun q => q.2 (Path.join path q.1.name)

theorem firstOpen_directory (isOpen : Nat → Bool) (p : Place) (slots : NodeSlots) (path : String) :
    (directory p slots).firstOpen isOpen path =
      if isOpen p.sector then some path
      else (Slots.children slots).findSome? fun q =>
        q.2.firstOpen isOpen (Path.join path q.1.name) := by
  unfold firstOpen
  rw [fold, foldSlots_eq, List.reduceOption_map, List.findSome?_map]
  rfl

/-- The sectors of a tree in the order in which they are given back. -/
def releaseOrder : Tree Stored Place Entry → List Nat :=
  fold (fun f => f.place.chain ++ [f.place.sector]) fun p below =>
    below.reduceOption.flatMap Prod.snd ++ (p.chain ++ [p.sector])

theorem releaseOrder_directory (p : Place) (slots : NodeSlots) :
    (directory p slots).releaseOrder =
      (Slots.children slots).flatMap (fun c => c.2.releaseOrder) ++ (p.chain ++ [p.sector]) := by
  unfold releaseOrder
  rw [fold, foldSlots_eq, List.reduceOption_map, List.flatMap_map]
  rfl

/-- Each sector of the tree is given back once. -/
theorem releaseOrder_perm (t : Node) : t.releaseOrder.Perm t.sectors := by
  induction t using Tree.induction with
  | file f =>
    rw [sectors_file]
    exact List.perm_append_comm
  | directory p slots ih =>
    rw [releaseOrder_directory, sectors_directory, Slots.sectors_eq]
    have hbelow : ((Slots.children slots).flatMap fun c => c.2.releaseOrder).Perm
        ((Slots.children slots).flatMap fun c => c.2.sectors) :=
      List.Perm.flatMap_left _ fun c hc => ih c.1 c.2 (Slots.mem_children.mp hc)
    exact (hbelow.append List.perm_append_comm).trans List.perm_append_comm

/-- There is no first open file just if none of the files is open. -/
theorem firstOpen_eq_none {isOpen : Nat → Bool} {t : Node} (path : String) :
    t.firstOpen isOpen path = none ↔ ∀ x ∈ t.nodes, isOpen (placeOf x).sector = false := by
  induction t using Tree.induction generalizing path with
  | file f =>
    rw [nodes_file]
    simp only [List.mem_singleton, forall_eq]
    show (if isOpen f.place.sector then some path else none) = none ↔ _
    cases h : isOpen f.place.sector <;> simp [placeOf, h]
  | directory p slots ih =>
    rw [firstOpen_directory, nodes_directory, List.forall_mem_cons]
    cases h : isOpen p.sector with
    | true => simp [placeOf, h]
    | false =>
      have hslots : (∀ x ∈ Slots.nodes slots, isOpen (placeOf x).sector = false) ↔
          ∀ q ∈ Slots.children slots, ∀ x ∈ q.2.nodes, isOpen (placeOf x).sector = false := by
        unfold Slots.nodes
        simp only [List.mem_flatMap]
        exact ⟨fun hall q hq x hx => hall x ⟨q, hq, hx⟩, fun hall x ⟨q, hq, hx⟩ => hall q hq x hx⟩
      rw [if_neg (by decide), List.findSome?_eq_none_iff, hslots]
      have hplace : isOpen (placeOf (.inr p)).sector = false := h
      simp only [hplace, true_and]
      refine forall_congr' fun q => forall_congr' fun hq => ?_
      exact ih q.1 q.2 (Slots.mem_children.mp hq) _

end Tree

namespace Disk

variable {k : Disk} {v : Volume} {m : FreeMap} {t : Node}

/-- What a release does with the file of a node: the chain is given back, and then the header. -/
def releaseFile (path : String) (s : Nat) (m : FreeMap) : DriveM FreeMap := do
  let m ← (← Header.fetch s).release m
  if m.isUsed s then return m.clear s else Drive.corrupt (.freeHeader s path)

/-- The sectors of one file are given back, the header last. -/
theorem Lies.release_yields {p : Place} (h : k.Lies p)
    (hp : p.sectors.Nodup) (hm : ∀ s ∈ p.sectors, m.isUsed s = true) (path : String) :
    Yields (releaseFile path p.sector m) k
      (.ok ((p.chain ++ [p.sector]).foldl FreeMap.clear m)) k := by
  have hout := (List.nodup_cons.mp hp).1
  refine h.header.fetch_yields.bind ((h.chained.release_yields fun s hs =>
    hm s (List.mem_cons_of_mem _ hs)).bind ?_)
  have hused : (p.chain.foldl FreeMap.clear m).isUsed p.sector = true :=
    (FreeMap.isUsed_foldl_clear m p.chain p.sector).mpr ⟨hm _ List.mem_cons_self, hout⟩
  rw [if_pos hused, List.foldl_append]
  exact Yields.pure _ k

/-- The trees in the slots, one after the other, for `releaseTree`. -/
def releaseAll (v : Volume) (depth : Nat) (path : String) (entries : List Entry) (m : FreeMap) :
    DriveM FreeMap :=
  entries.foldlM (fun m e => do
    let below := Path.join path e.name
    v.releaseTree depth below e.kind (← e.header below) m) m

theorem releaseTree_file (depth : Nat) (path : String) (s : Nat) (m : FreeMap)
    (h : v.openFiles.holds s = false) :
    v.releaseTree (depth + 1) path .file s m = releaseFile path s m := by
  unfold Volume.releaseTree
  rw [h]
  rfl

theorem releaseTree_directory (depth : Nat) (path : String) (s : Nat) (m : FreeMap)
    (h : v.openFiles.holds s = false) :
    v.releaseTree (depth + 1) path .directory s m = (do
      let dir ← Directory.fetch (← Handle.fetch s)
      releaseFile path s (← releaseAll v depth path dir.entries m)) := by
  unfold Volume.releaseTree
  rw [h]
  rfl

/-- A file that is open is not released. -/
theorem releaseTree_open (depth : Nat) (path : String) (kind : Kind) {s : Nat} (m : FreeMap)
    (h : v.openFiles.holds s = true) :
    Yields (v.releaseTree (depth + 1) path kind s m) k (.error (.stillOpen path)) k := by
  unfold Volume.releaseTree
  rw [if_pos h]
  exact (Yields.note _ k).bind (Yields.throw _ k).bind_error

/-- Trees without an open file in them are released one after the other. -/
theorem releaseAll_yields (depth : Nat) (path : String) {cs : List (Entry × Node)}
    (hlead : ∀ c ∈ cs, c.1.kind = c.2.kind ∧ c.1.sector? = some c.2.place.sector)
    (hrelease : ∀ c ∈ cs, ∀ m : FreeMap, (∀ s ∈ c.2.sectors, m.isUsed s = true) →
      Yields (v.releaseTree depth (Path.join path c.1.name) c.2.kind c.2.place.sector m) k
        (.ok (c.2.releaseOrder.foldl FreeMap.clear m)) k)
    (hnodup : (cs.flatMap fun c => c.2.sectors).Nodup)
    (hused : ∀ s ∈ cs.flatMap fun c => c.2.sectors, m.isUsed s = true) :
    Yields (releaseAll v depth path (cs.map Prod.fst) m) k
      (.ok ((cs.flatMap fun c => c.2.releaseOrder).foldl FreeMap.clear m)) k := by
  induction cs generalizing m with
  | nil => exact Yields.pure _ k
  | cons c rest ih =>
    rw [List.flatMap_cons] at hnodup hused ⊢
    obtain ⟨-, hrest, hdisjoint⟩ := List.nodup_append.mp hnodup
    obtain ⟨hkind, hsector⟩ := hlead c List.mem_cons_self
    have hy := hrelease c List.mem_cons_self m fun s hs => hused s (List.mem_append_left _ hs)
    have hy' := ih (m := c.2.releaseOrder.foldl FreeMap.clear m)
      (fun d hd => hlead d (List.mem_cons_of_mem _ hd))
      (fun d hd => hrelease d (List.mem_cons_of_mem _ hd)) hrest fun s hs => by
        rw [FreeMap.isUsed_foldl_clear]
        exact ⟨hused s (List.mem_append_right _ hs),
          fun hmem => hdisjoint s (c.2.releaseOrder_perm.mem_iff.mp hmem) s hs rfl⟩
    rw [List.map_cons, List.foldl_append]
    unfold releaseAll at hy' ⊢
    rw [List.foldlM_cons, hkind]
    exact ((header_yields hsector _ k).bind hy).bind hy'

theorem lt_depth {n depth : Nat} (h : n < depth) : ∃ d, depth = d + 1 ∧ n ≤ d :=
  ⟨depth - 1, by omega, by omega⟩

theorem holds_of_firstOpen {p : Place} {path : String} {isOpen : Nat → Bool} {slots : NodeSlots}
    (h : (Tree.directory p slots : Node).firstOpen isOpen path = none) :
    isOpen p.sector = false ∧ ∀ c ∈ Slots.children slots,
      c.2.firstOpen isOpen (Path.join path c.1.name) = none := by
  rw [Tree.firstOpen_directory] at h
  split at h
  · cases h
  · rename_i hclosed
    exact ⟨Bool.eq_false_iff.mpr hclosed, fun c hc => List.findSome?_eq_none_iff.mp h c hc⟩

/-- **Just the sectors of the tree are free** after it was released, when no file in it is open. -/
theorem Bears.release_yields (h : k.Bears t) {depth : Nat}
    (hdepth : t.nodes.length ≤ depth) (hnodup : t.sectors.Nodup)
    (hused : ∀ s ∈ t.sectors, m.isUsed s = true) {path : String}
    (hclosed : t.firstOpen v.openFiles.holds path = none) :
    Yields (v.releaseTree depth path t.kind t.place.sector m) k
      (.ok (t.releaseOrder.foldl FreeMap.clear m)) k := by
  induction h generalizing depth path m with
  | @file f hlies _ =>
    rw [Tree.sectors_file] at hnodup hused
    have hopen : v.openFiles.holds f.place.sector = false :=
      (Tree.firstOpen_eq_none path).mp hclosed (.inl f) (by rw [Tree.nodes_file]; exact .head _)
    obtain ⟨depth, rfl, -⟩ := lt_depth (by rw [Tree.nodes_file] at hdepth; exact hdepth)
    show Yields (v.releaseTree (depth + 1) path .file f.place.sector m) k _ k
    rw [releaseTree_file depth path _ m hopen]
    exact hlies.release_yields hnodup hused path
  | @directory p slots table hlies hlen hin hshows _ ih =>
    rw [Tree.nodes_directory, List.length_cons] at hdepth
    obtain ⟨depth, rfl, hle⟩ := lt_depth hdepth
    obtain ⟨hopen, hbelow⟩ := holds_of_firstOpen hclosed
    rw [Tree.sectors_directory, Slots.sectors_eq] at hnodup hused
    obtain ⟨hplace, hslots, hdisjoint⟩ := List.nodup_append.mp hnodup
    have hy := releaseAll_yields (v := v) (k := k) (m := m) depth path
      (fun c hc => hshows.leads _ _ (Slots.mem_children.mp hc))
      (fun c hc m hm => ih _ _ (Slots.mem_children.mp hc)
        (Nat.le_trans (Slots.length_nodes_le (Slots.mem_children.mp hc)) hle)
        ((List.nodup_flatMap.mp hslots).1 c hc) hm (hbelow c hc))
      hslots fun s hs => hused s (List.mem_append_right _ hs)
    have hgone : ∀ s ∈ (Slots.children slots).flatMap fun c => c.2.releaseOrder,
        s ∈ (Slots.children slots).flatMap fun c => c.2.sectors := fun s hs => by
      obtain ⟨c, hc, hs⟩ := List.mem_flatMap.mp hs
      exact List.mem_flatMap.mpr ⟨c, hc, c.2.releaseOrder_perm.mem_iff.mp hs⟩
    show Yields (v.releaseTree (depth + 1) path .directory p.sector m) k _ k
    rw [releaseTree_directory depth path _ m hopen, Tree.releaseOrder_directory, List.foldl_append]
    refine hlies.header.open_yields.bind ((Chained.fetch_yields (f := p.handle)
      hlies.header.dataSize_pos hlies.chained hlen hin).bind ?_)
    rw [hshows.entries]
    refine hy.bind (hlies.release_yields hplace (fun s hs => ?_) path)
    rw [FreeMap.isUsed_foldl_clear]
    exact ⟨hused s (List.mem_append_left _ hs), fun hmem => hdisjoint s hs s (hgone s hmem) rfl⟩

/-- **A tree with an open file in it** is not released; the error names the first one. -/
theorem Holds.release_open (h : k.Holds t) (hk : 0 < k.dataSize) {depth : Nat}
    (hdepth : t.nodes.length ≤ depth) (hnodup : t.sectors.Nodup)
    (hused : ∀ s ∈ t.sectors, m.isUsed s = true) {path q : String}
    (hopen : t.firstOpen v.openFiles.holds path = some q) :
    Yields (v.releaseTree depth path t.kind t.place.sector m) k (.error (.stillOpen q)) k := by
  induction h generalizing depth path m with
  | @file f hfile =>
    obtain ⟨depth, rfl, -⟩ := lt_depth (by rw [Tree.nodes_file] at hdepth; exact hdepth)
    have hfirst : (if v.openFiles.holds f.place.sector then some path else none) = some q := hopen
    split at hfirst
    · rename_i hholds
      cases hfirst
      exact releaseTree_open depth _ .file m hholds
    · cases hfirst
  | @directory p slots table htable hshows hall ih =>
    rw [Tree.nodes_directory, List.length_cons] at hdepth
    obtain ⟨depth, rfl, hle⟩ := lt_depth hdepth
    rw [Tree.firstOpen_directory] at hopen
    split at hopen
    · rename_i hholds
      cases hopen
      exact releaseTree_open depth _ .directory m hholds
    · rename_i hholds
      obtain ⟨pre, c, post, hsplit, hc, hpre⟩ := List.findSome?_eq_some_iff.mp hopen
      rw [Tree.sectors_directory, Slots.sectors_eq, hsplit, List.flatMap_append,
        List.flatMap_cons] at hnodup hused
      obtain ⟨-, hslots, -⟩ := List.nodup_append.mp hnodup
      obtain ⟨hbefore, hafter, hapart⟩ := List.nodup_append.mp hslots
      obtain ⟨hnode, -, -⟩ := List.nodup_append.mp hafter
      have hmem : ∀ d ∈ pre ++ c :: post, some d ∈ slots := fun d hd =>
        Slots.mem_children.mp (hsplit ▸ hd)
      have hmemPre : ∀ d ∈ pre, some d ∈ slots := fun d hd => hmem d (List.mem_append_left _ hd)
      have hmemC : some c ∈ slots := hmem c (List.mem_append_right _ List.mem_cons_self)
      have hy := releaseAll_yields (v := v) (k := k) (m := m) depth path
        (fun d hd => hshows.leads _ _ (hmemPre d hd))
        (fun d hd m hm => (hall _ _ (hmemPre d hd)).carries.bears.release_yields
          (Nat.le_trans (Slots.length_nodes_le (hmemPre d hd)) hle)
          ((List.nodup_flatMap.mp hbefore).1 d hd) hm (hpre d hd)) hbefore
        fun s hs => hused s (List.mem_append_right _ (List.mem_append_left _ hs))
      obtain ⟨hkind, hsector⟩ := hshows.leads _ _ hmemC
      have herror := ih _ _ hmemC
        (m := (pre.flatMap fun d => d.2.releaseOrder).foldl FreeMap.clear m)
        (Nat.le_trans (Slots.length_nodes_le hmemC) hle) hnode (fun s hs => ?_) hc
      · show Yields (v.releaseTree (depth + 1) path .directory p.sector m) k _ k
        rw [releaseTree_directory depth path _ m (Bool.eq_false_iff.mpr hholds)]
        refine htable.file.open_yields.bind ((htable.fetch_yields hk rfl).bind ?_)
        rw [hshows.entries, hsplit, List.map_append, List.map_cons]
        unfold releaseAll at hy ⊢
        rw [List.foldlM_append]
        refine (hy.bind ?_).bind_error
        rw [List.foldlM_cons, hkind]
        exact ((header_yields hsector _ k).bind herror).bind_error
      · rw [FreeMap.isUsed_foldl_clear]
        refine ⟨hused s (List.mem_append_right _
          (List.mem_append_right _ (List.mem_append_left _ hs))), fun hmem => ?_⟩
        obtain ⟨d, hd, hmem⟩ := List.mem_flatMap.mp hmem
        exact hapart s (List.mem_flatMap.mpr ⟨d, hd, d.2.releaseOrder_perm.mem_iff.mp hmem⟩) s
          (List.mem_append_left _ hs) rfl

end Disk

end SectorChain
