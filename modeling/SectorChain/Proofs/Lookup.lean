import SectorChain.Proofs.Node

/-!
# Looking things up

On a disk that holds the slots of a directory, a table that shows them is searched and listed as
the slots are, and the disk stays as it is.

Results:
* `route_yields`: a route leads to the entry that the slots have at its end, or fails as it does
  in the slots.
* `find_yields`: a path leads to the header of the node at its end.
* `follow_found`: what is found is on the disk, and its entry leads there.
* `treeLines_yields`: a tree is listed by its labels.
-/

namespace SectorChain

namespace Slots

variable {α β ε : Type} {name : ε → String}

theorem find?_fst (slots : Slots α β ε) (n : String) :
    (find? name slots n).map Prod.fst = slots.findIdx? (isFor name n) := by
  cases hfind : find? name slots n with
  | none =>
    symm
    rw [Option.map_none, List.findIdx?_eq_none_iff]
    rintro (- | ⟨e, t⟩) ht
    · rfl
    · simpa [isFor] using find?_eq_none hfind ht
  | some p =>
    unfold find? at hfind
    cases hi : slots.findIdx? (isFor name n) with
    | none =>
      rw [hi] at hfind
      cases hfind
    | some i =>
      rw [hi] at hfind
      simp only [Option.bind_eq_bind, Option.bind_some] at hfind
      obtain ⟨p', -, hp⟩ := Option.bind_eq_some_iff.mp hfind
      cases hp
      rfl

/-- A property of a table that holds of the tables below it holds of the one at the end of a
route. -/
theorem follow_induction {P : Slots α β ε → Prop} {path : String}
    (below : ∀ {slots e b inner}, P slots → some (e, .directory b inner) ∈ slots → P inner)
    {r : Route} {slots : Slots α β ε} {e : ε} {t : Tree α β ε} (hP : P slots)
    (h : follow name path r slots = .ok (e, t)) :
    ∃ s, P s ∧ some (e, t) ∈ s ∧ name e = lastName r := by
  induction r generalizing slots with
  | invalid rest => cases h
  | last n =>
    unfold follow at h
    split at h
    · cases h
    · rename_i hfind
      cases h
      obtain ⟨hi, hname⟩ := find?_eq_some hfind
      exact ⟨slots, hP, List.mem_of_getElem? hi, hname⟩
  | step n rest ih =>
    unfold follow at h
    split at h
    · cases h
    · cases h
    · rename_i hfind
      exact ih (below hP (List.mem_of_getElem? (find?_eq_some hfind).1)) h

/-- What is found is one of the trees below the slots. -/
theorem follow_nodes {path : String} {r : Route} {slots : Slots α β ε} {e : ε} {t : Tree α β ε}
    (h : follow name path r slots = .ok (e, t)) : t.nodes ⊆ nodes slots := by
  obtain ⟨s, hs, ht, -⟩ := follow_induction (P := fun s => nodes s ⊆ nodes slots)
    (fun hs ht x hx => hs (nodes_subset ht (by
      rw [Tree.nodes_directory]
      exact List.mem_cons_of_mem _ hx)))
    (fun x hx => hx) h
  exact fun x hx => hs (nodes_subset ht hx)

end Slots

/-- The lines for what is below the root of a tree: a line for each tree in a slot, with those
below a directory behind it and further in. -/
def Tree.lines : Tree Stored Place Entry → (level : Nat) → List String :=
  fold (fun _ _ => []) fun _ below level => below.reduceOption.flatMap fun p =>
    Directory.treeLine level p.1 :: p.2 (level + 1)

/-- The lines for the trees in the slots. -/
def Slots.lines (slots : Slots Stored Place Entry) (level : Nat) : List String :=
  (children slots).flatMap fun p => Directory.treeLine level p.1 :: p.2.lines (level + 1)

theorem Tree.lines_directory (p : Place) (slots : NodeSlots) (level : Nat) :
    (Tree.directory p slots).lines level = Slots.lines slots level := by
  unfold lines
  rw [fold, foldSlots_eq, List.reduceOption_map, List.flatMap_map]
  rfl

namespace Disk

variable {k : Disk} {dir : Directory} {slots : NodeSlots} {path : String}

/-! ## One table -/

theorem index?_eq (h : dir.Shows slots) (n : String) :
    dir.index? n = (Slots.find? Entry.name slots n).map Prod.fst := by
  have hfor : (Entry.isFor · n) = Option.any (·.name == n) ∘ Entry.used? := by
    funext e
    cases hused : e.inUse <;> simp [Entry.isFor, Entry.used?, hused]
  rw [Slots.find?_fst, Directory.index?, hfor, ← List.findIdx?_map]
  show dir.labels.findIdx? _ = _
  rw [h.labels, Slots.labels, List.findIdx?_map]
  congr 1
  funext slot
  cases slot <;> rfl

theorem entry?_eq (h : dir.Shows slots) (n : String) :
    dir.entry? n = (Slots.find? Entry.name slots n).map fun p => p.2.1 := by
  unfold Directory.entry?
  rw [List.find?_eq_bind_findIdx?_getElem?]
  show (dir.index? n).bind _ = _
  rw [index?_eq h]
  cases hfind : Slots.find? Entry.name slots n with
  | none => rfl
  | some p =>
    obtain ⟨i, e, t⟩ := p
    exact (h.getElem? (Slots.find?_eq_some hfind).1).1

theorem search_found {n : String} {e : Entry} (he : dir.entry? n = some e) :
    Yields (dir.search path n) k (.ok e) k := by
  unfold Directory.search
  rw [he]
  exact Yields.pure e k

theorem search_none {n : String} (he : dir.entry? n = none) :
    Yields (dir.search path n) k (.error (.notFound path)) k := by
  unfold Directory.search
  rw [he]
  exact Yields.throw _ k

theorem search_missing (h : dir.Shows slots) {n : String}
    (hfind : Slots.find? Entry.name slots n = none) :
    Yields (dir.search path n) k (.error (.notFound path)) k :=
  search_none (by rw [entry?_eq h, hfind]; rfl)

theorem search_yields (h : dir.Shows slots) {n : String} {i : Nat} {e : Entry} {t : Node}
    (hfind : Slots.find? Entry.name slots n = some (i, e, t)) :
    Yields (dir.search path n) k (.ok e) k :=
  search_found (by rw [entry?_eq h, hfind]; rfl)

theorem enter_file {e : Entry} (he : e.kind = .file) (path : String) :
    Yields (Directory.enter e path) k (.error (.notADirectory path)) k := by
  unfold Directory.enter
  rw [he]
  exact Yields.throw _ k

/-- A directory is entered from its entry. -/
theorem enter_yields {e : Entry} {p : Place} {content : Bytes} (he : e.kind = .directory)
    (hs : e.sector? = some p.sector) (hk : 0 < k.dataSize) (h : k.HasFile p content)
    (hin : dir.IsIn content) (path : String) :
    Yields (Directory.enter e path) k (.ok (p.handle, dir)) k := by
  unfold Directory.enter
  rw [he]
  exact (header_yields hs path k).bind
    (h.open_yields.bind ((h.fetch_yields hk rfl hin).bind (Yields.pure _ k)))

/-! ## Routes and paths -/

/-- **A route leads to the entry** that the slots have at its end, or fails as it does there. -/
theorem route_yields (hk : 0 < k.dataSize) (h : dir.Shows slots) (hall : k.CarriesAll slots)
    (path : String) (r : Route) :
    Yields (Directory.follow path r dir) k
      ((Slots.follow Entry.name path r slots).map Prod.fst) k := by
  induction r generalizing dir slots with
  | invalid rest => exact Yields.throw _ k
  | last n =>
    unfold Directory.follow Slots.follow
    cases hfind : Slots.find? Entry.name slots n with
    | none => exact search_missing h hfind
    | some p => exact search_yields h hfind
  | step n rest ih =>
    unfold Directory.follow Slots.follow
    cases hfind : Slots.find? Entry.name slots n with
    | none => exact (search_missing h hfind).bind_error
    | some p =>
      obtain ⟨i, e, t⟩ := p
      have ht : some (e, t) ∈ slots := List.mem_of_getElem? (Slots.find?_eq_some hfind).1
      obtain ⟨hkind, hsector⟩ := h.leads e t ht
      refine (search_yields h hfind).bind ?_
      cases t with
      | file f => exact (enter_file hkind path).bind_error
      | directory p below =>
        cases hall e _ ht with
        | directory table hfile hin hshows hbelow =>
          exact (enter_yields hkind hsector hk hfile hin path).bind (ih hshows hbelow)

theorem findEntry_yields (hk : 0 < k.dataSize) (h : dir.Shows slots) (hall : k.HoldsAll slots)
    (path : String) :
    Yields (dir.findEntry path) k
      ((Slots.follow Entry.name path (.ofPath path) slots).map Prod.fst) k :=
  route_yields hk h hall.carries path _

/-- What is found is on the disk, and its entry leads there. -/
theorem follow_found (h : dir.Shows slots) (hall : k.HoldsAll slots) {r : Route} {e : Entry}
    {t : Node} (hfound : Slots.follow Entry.name path r slots = .ok (e, t)) :
    k.Holds t ∧ e.kind = t.kind ∧ e.sector? = some t.place.sector ∧ e.name = Slots.lastName r := by
  obtain ⟨s, ⟨hs, dir', hdir⟩, ht, hname⟩ := Slots.follow_induction
    (P := fun s => k.HoldsAll s ∧ ∃ dir : Directory, dir.Shows s)
    (fun {slots e b inner} hs ht => by
      cases hs.1 e _ ht with
      | directory table _ hshows hbelow => exact ⟨hbelow, table, hshows⟩)
    ⟨hall, dir, h⟩ hfound
  exact ⟨hs e t ht, (hdir.leads e t ht).1, (hdir.leads e t ht).2, hname⟩

/-- **A path leads to a header**: that of the root, or of the node at its end. -/
theorem find_yields (hk : 0 < k.dataSize) (h : dir.Shows slots) (hall : k.HoldsAll slots)
    (path : String) :
    Yields (dir.find path) k
      (if path = "/" then .ok Layout.rootSector
        else (Slots.follow Entry.name path (.ofPath path) slots).map (·.2.place.sector)) k := by
  unfold Directory.find
  split
  · exact Yields.pure _ k
  · have hfind := findEntry_yields hk h hall path
    cases hfollow : Slots.follow Entry.name path (.ofPath path) slots with
    | error x =>
      rw [hfollow] at hfind
      exact hfind.bind_error
    | ok p =>
      obtain ⟨e, t⟩ := p
      rw [hfollow] at hfind
      exact hfind.bind (header_yields (follow_found h hall hfollow).2.2.1 path k)

/-! ## Listings -/

/-- **A tree is listed** by its labels, slot by slot. -/
theorem treeLines_yields (hk : 0 < k.dataSize) (h : dir.Shows slots) (hall : k.HoldsAll slots)
    {depth : Nat} (hdepth : (Slots.nodes slots).length < depth) (level : Nat) :
    Yields (Directory.treeLines depth level dir) k (.ok (Slots.lines slots level)) k := by
  induction depth generalizing dir slots level with
  | zero => exact absurd hdepth (Nat.not_lt_zero _)
  | succ depth ih =>
    unfold Directory.treeLines
    unfold Slots.lines
    rw [h.entries, List.flatMap_def]
    refine Yields.bind (Yields.mapM Prod.fst
      (fun p => Directory.treeLine level p.1 :: p.2.lines (level + 1)) ?_) (Yields.pure _ k)
    rintro ⟨e, t⟩ hc
    have ht := Slots.mem_children.mp hc
    obtain ⟨hkind, hsector⟩ := h.leads e t ht
    have hle := Slots.length_nodes_le ht
    dsimp only
    rw [hkind]
    cases t with
    | file f => exact Yields.pure _ k
    | directory p below =>
      rw [Tree.nodes_directory, List.length_cons] at hle
      cases hall e _ ht with
      | directory table htable hshows hbelow =>
        refine (enter_yields hkind hsector hk htable.file htable.isIn e.name).bind ?_
        rw [Tree.lines_directory]
        exact (ih hshows hbelow (by omega) (level + 1)).bind (Yields.pure _ k)

/-- A directory is listed by its names, or as a tree. -/
theorem list_yields (hk : 0 < k.dataSize) (h : dir.Shows slots) (hall : k.HoldsAll slots)
    (hdepth : (Slots.nodes slots).length < Directory.depthLimit) (recursive : Bool) :
    Yields (dir.list recursive) k
      (.ok (if recursive then Slots.lines slots 0
        else (Slots.children slots).map fun p => p.1.name)) k := by
  unfold Directory.list
  cases recursive with
  | true => exact treeLines_yields hk h hall hdepth 0
  | false =>
    rw [h.entries, List.map_map]
    exact Yields.pure _ k

end Disk

end SectorChain
