import SectorChain.Proofs.Lookup

/-!
# Changing a tree of directories

A change of the table at the end of a route fetches the tables on the way and writes them back from
the inside out. On a disk that holds the slots of the first table it does what `Slots.change` does:
the slots after it are held, and nothing was written but tables below the first one.

Results:
* `insert_implements`, `erase_implements`: the edits of a table are those of its slots.
* `change_fails`: a change that fails in the slots fails on the disk, which stays as it is.
* `change_yields`: any other change is made on the disk, apart from the first table.
* `storeRoot_yields`: with the first table stored, the whole directory is held.
-/

namespace SectorChain

namespace Slots

/-- The sectors of the tables below the slots. -/
def tables (slots : Slots Stored Place Entry) : List Nat :=
  (nodes slots).flatMap (Sum.elim (fun _ => []) Place.chain)

variable {slots : NodeSlots} {e : Entry} {p : Place} {inner : NodeSlots}

theorem tables_subset : tables slots ⊆ sectors slots := by
  intro s hs
  obtain ⟨x, hx, hs⟩ := List.mem_flatMap.mp hs
  refine mem_sectorsOf.mpr ⟨x, hx, ?_⟩
  cases x with
  | inl f => cases hs
  | inr p => exact List.mem_cons_of_mem _ hs

theorem chain_subset_tables (h : some (e, .directory p inner) ∈ slots) : p.chain ⊆ tables slots :=
  fun _ hs => List.mem_flatMap.mpr
    ⟨.inr p, nodes_subset h (by rw [Tree.nodes_directory]; exact List.mem_cons_self), hs⟩

theorem inner_tables_subset (h : some (e, .directory p inner) ∈ slots) :
    tables inner ⊆ tables slots := by
  intro s hs
  obtain ⟨x, hx, hs⟩ := List.mem_flatMap.mp hs
  have hx' : x ∈ (Tree.directory p inner : Node).nodes := by
    rw [Tree.nodes_directory]
    exact List.mem_cons_of_mem _ hx
  exact List.mem_flatMap.mpr ⟨x, nodes_subset h hx', hs⟩

/-- The sectors below the slots are those of the tree in slot `i` and those of the others. -/
theorem sectors_perm {i : Nat} {t : Node} (hi : slots[i]? = some (some (e, t))) :
    (sectors slots).Perm (t.sectors ++ sectors (slots.set i none)) := by
  have := sectorsOf_perm (nodes_perm hi)
  rwa [sectorsOf_append] at this

end Slots

/-! ## Edits of one table -/

/-- On a table, `editM` does what `edit` does on the slots that the table shows. -/
structure Implements (editM : Directory → String → DriveM Directory)
    (edit : NodeSlots → String → Except VolumeError NodeSlots) (n : String) : Prop where
  fails : ∀ {k : Disk} {dir : Directory} {slots : NodeSlots} {x : VolumeError}, dir.Shows slots →
    edit slots n = .error x → Yields (editM dir n) k (.error x) k
  edits : ∀ {dir : Directory} {slots slots' : NodeSlots}, dir.Shows slots →
    edit slots n = .ok slots' → ∃ dir', (∀ k, Yields (editM dir n) k (.ok dir') k) ∧
      dir'.Shows slots' ∧ dir'.slots.length = dir.slots.length

namespace Directory

variable {dir : Directory} {slots : NodeSlots}

theorem entry?_isSome (h : dir.Shows slots) (n : String) :
    (dir.entry? n).isSome = (Slots.find? Entry.name slots n).isSome := by
  rw [Disk.entry?_eq h, Option.isSome_map]

theorem free_eq (h : dir.Shows slots) :
    dir.slots.findIdx? (!·.inUse) = slots.findIdx? Option.isNone := by
  have hfree : (fun e : Entry => !e.inUse) = Option.isNone ∘ Entry.used? := by
    funext e
    cases hused : e.inUse <;> simp [Entry.used?, hused]
  rw [hfree, ← List.findIdx?_map]
  show dir.labels.findIdx? _ = _
  rw [h.labels, Slots.labels, List.findIdx?_map]
  congr 1
  funext slot
  cases slot <;> rfl

/-- A slot of the table and the slot that it shows change together. -/
theorem Shows.set (h : dir.Shows slots) (i : Nat) {e : Entry} {o : Option (Entry × Node)}
    (he : e.used? = o.map Prod.fst)
    (ho : ∀ e t, o = some (e, t) → e.kind = t.kind ∧ e.sector? = some t.place.sector) :
    (⟨dir.slots.set i e⟩ : Directory).Shows (slots.set i o) where
  labels := by
    have := h.labels
    unfold Directory.labels Slots.labels at this ⊢
    rw [List.map_set, List.map_set, this, he]
  leads := fun e t ht => by
    rcases Slots.mem_set ht with ht | ht
    · exact h.leads e t (Slots.mem_of_mem_set_none ht)
    · exact ho e t ht

/-- A table shows its slots also after a tree in them changed below its root. -/
theorem Shows.setTree (h : dir.Shows slots) {i : Nat} {e : Entry} {t t' : Node}
    (hi : slots[i]? = some (some (e, t))) (hkind : t'.kind = t.kind)
    (hsector : t'.place.sector = t.place.sector) : dir.Shows (slots.set i (some (e, t'))) := by
  obtain ⟨hget, hused⟩ := h.getElem? hi
  obtain ⟨hlt, heq⟩ := List.getElem?_eq_some_iff.mp hget
  obtain ⟨hlead, hlead'⟩ := h.leads e t (List.mem_of_getElem? hi)
  have := h.set i (e := e) (o := some (e, t')) (if_pos hused) (by
    rintro e t ⟨⟩
    exact ⟨hlead.trans hkind.symm, hlead'.trans (congrArg some hsector.symm)⟩)
  rw [← heq, List.set_getElem_self] at this
  rwa [← heq]

/-- **Insertion into a table** puts a tree into its slots, when the tree is of the kind and in the
sector that the entry gets. -/
theorem insert_implements (path : String) {kind : Kind} {sector : Nat} {t : Node}
    (hkind : kind = t.kind) (hsector : sector = t.place.sector) (hlt : sector < Link.limit)
    (n : String) :
    Implements (fun dir n => dir.insert path n kind sector)
      (Slots.insert Entry.name path (fun n => Entry.ofFile n kind sector) t) n where
  fails := fun {k dir slots x} h hx => by
    rw [Directory.insert_eq]
    unfold Slots.insert at hx
    rw [entry?_isSome h, free_eq h]
    split at hx
    · rename_i hsome
      cases hx
      rw [if_pos hsome]
      exact Yields.throw _ k
    · rename_i hnone
      rw [if_neg hnone]
      cases hi : slots.findIdx? Option.isNone with
      | none =>
        rw [hi] at hx
        cases hx
        exact Yields.throw _ k
      | some i =>
        rw [hi] at hx
        cases hx
  edits := fun {dir slots slots'} h hok => by
    obtain ⟨hnone, i, hi, -, rfl⟩ := Slots.insert_eq_ok hok
    rw [Directory.insert_eq]
    rw [entry?_isSome h, free_eq h, hnone, hi]
    refine ⟨_, fun k => (Yields.note _ k).bind (Yields.pure _ k), h.set i rfl ?_,
      List.length_set⟩
    rintro e t' ⟨⟩
    exact ⟨hkind, hsector ▸ Link.target_ofSector hlt⟩

/-- **Erasure from a table** makes a slot unused. -/
theorem erase_implements (path n : String) :
    Implements (fun dir n => dir.erase path n) (Slots.erase Entry.name path) n where
  fails := fun {k dir slots x} h hx => by
    rw [Directory.erase_eq]
    unfold Slots.erase at hx
    rw [Disk.index?_eq h]
    split at hx
    · rename_i hfind
      cases hx
      rw [hfind]
      exact Yields.throw _ k
    · cases hx
  edits := fun {dir slots slots'} h hok => by
    obtain ⟨i, e, t, hfind, rfl⟩ := Slots.erase_eq_ok hok
    rw [Directory.erase_eq]
    rw [Disk.index?_eq h, hfind]
    refine ⟨_, fun k => (Yields.note _ k).bind (Yields.pure _ k), ?_, List.length_modify ..⟩
    have hmodify : dir.slots.modify i (fun e => { e with inUse := false }) =
        dir.slots.set i { e with inUse := false } := by
      rw [List.modify_eq_set_getElem?, (h.getElem? (Slots.find?_eq_some hfind).1).1]
      rfl
    rw [hmodify]
    exact h.set i rfl (by rintro _ _ ⟨⟩)

end Directory

namespace Disk

variable {k : Disk} {dir : Directory} {slots : NodeSlots} {path : String}
  {editM : Directory → String → DriveM Directory}
  {edit : NodeSlots → String → Except VolumeError NodeSlots}

/-! ## Storing the first table -/

/-- **With its table stored**, a directory is held as soon as what is in its slots is. -/
theorem storeRoot_yields {p : Place} {table : Directory} {f : Handle} (h : k.HasTable p table)
    (hk : 0 < k.dataSize) (hf : f.header = p.header) (hp : p.sector ∉ p.chain)
    (hshows : dir.Shows slots) (hlen : dir.slots.length = Layout.directorySlots)
    (hall : k.HoldsAll slots) (hout : ∀ s ∈ p.chain, s ∉ Slots.sectors slots) :
    ∃ k', Yields (dir.store f) k (.ok ()) k' ∧ k.Keeps k' (· ∉ p.chain) ∧
      k'.Holds (.directory p slots) := by
  obtain ⟨k', hy, hkeep, htable⟩ := h.store_yields hk hf hp hlen
  exact ⟨k', hy, hkeep, .directory dir htable hshows
    (hall.keeps hkeep fun s hs hmem => hout s hmem hs)⟩

/-! ## Changes along a route -/

/-- **A change that fails** in the slots fails on the disk, which stays as it is. -/
theorem change_fails (hk : 0 < k.dataSize) {r : Route} {x : VolumeError}
    (hedit : Implements editM edit (Slots.lastName r)) (h : dir.Shows slots)
    (hall : k.HoldsAll slots) (hx : Slots.change Entry.name path edit r slots = .error x) :
    Yields (Directory.change path editM r dir) k (.error x) k := by
  induction r generalizing dir slots with
  | invalid rest =>
    cases hx
    exact Yields.throw _ k
  | last n => exact hedit.fails h hx
  | step n rest ih =>
    unfold Directory.change
    unfold Slots.change at hx
    split at hx
    · rename_i hfind
      cases hx
      exact (search_missing h hfind).bind_error
    · rename_i i e f hfind
      cases hx
      have hlead := h.leads e _ (List.mem_of_getElem? (Slots.find?_eq_some hfind).1)
      exact (search_yields h hfind).bind (enter_file hlead.1 path).bind_error
    · rename_i i e p below hfind
      have ht := List.mem_of_getElem? (Slots.find?_eq_some hfind).1
      have hlead := h.leads e _ ht
      cases hbelow : Slots.change Entry.name path edit rest below with
      | ok below' =>
        rw [hbelow] at hx
        cases hx
      | error y =>
        rw [hbelow] at hx
        cases hx
        cases hall e _ ht with
        | directory table htable hshows hinner =>
          refine (search_yields h hfind).bind
            ((enter_yields hlead.1 hlead.2 hk htable.file htable.isIn path).bind ?_)
          exact (ih hedit hshows hinner hbelow).bind_error

/-- **Any other change is made on the disk**, apart from the table that it starts from. The trees
that the edit adds lie in sectors that are `fresh`, and nothing is written but tables below. -/
theorem change_yields (fresh : Nat → Prop) (hk : 0 < k.dataSize) {r : Route}
    (hedit : Implements editM edit (Slots.lastName r))
    (hnew : ∀ {s s' e t}, edit s (Slots.lastName r) = .ok s' → some (e, t) ∈ s' →
      some (e, t) ∈ s ∨ k.Holds t ∧ ∀ x ∈ t.sectors, fresh x)
    {slots' : NodeSlots} (h : dir.Shows slots) (hall : k.HoldsAll slots)
    (hnodup : (Slots.sectors slots).Nodup) (hfresh : ∀ s ∈ Slots.sectors slots, ¬fresh s)
    (hok : Slots.change Entry.name path edit r slots = .ok slots') :
    ∃ dir' k', Yields (Directory.change path editM r dir) k (.ok dir') k' ∧
      k.Keeps k' (· ∉ Slots.tables slots) ∧ dir'.Shows slots' ∧
      dir'.slots.length = dir.slots.length ∧ k'.HoldsAll slots' ∧
      ∀ s ∈ Slots.sectors slots', s ∈ Slots.sectors slots ∨ fresh s := by
  induction r generalizing dir slots slots' with
  | invalid rest => cases hok
  | last n =>
    obtain ⟨dir', hy, hshows, hlen⟩ := hedit.edits h hok
    refine ⟨dir', k, hy k, Keeps.refl k _, hshows, hlen, fun e t ht => ?_, fun s hs => ?_⟩
    · rcases hnew hok ht with ht | ht
      · exact hall e t ht
      · exact ht.1
    · obtain ⟨e, t, ht, hs⟩ := Slots.mem_sectors.mp hs
      rcases hnew hok ht with ht | ht
      · exact .inl (Slots.mem_sectors.mpr ⟨e, t, ht, hs⟩)
      · exact .inr (ht.2 s hs)
  | step n rest ih =>
    unfold Slots.change at hok
    split at hok
    · cases hok
    · cases hok
    · rename_i i e p below hfind
      obtain ⟨hi, -⟩ := Slots.find?_eq_some hfind
      have ht := List.mem_of_getElem? hi
      obtain ⟨hkind, hsector⟩ := h.leads e _ ht
      cases hbelow : Slots.change Entry.name path edit rest below with
      | error x =>
        rw [hbelow] at hok
        cases hok
      | ok below' =>
        rw [hbelow] at hok
        cases hok
        -- the sectors of the directory that the route enters, and those of the other slots
        have hperm := Slots.sectors_perm hi
        obtain ⟨hin, -, hdisjoint⟩ := List.nodup_append.mp (hperm.nodup_iff.mp hnodup)
        have hsub : ∀ s ∈ (Tree.directory p below : Node).sectors, s ∈ Slots.sectors slots :=
          fun s hs => hperm.mem_iff.mpr (List.mem_append_left _ hs)
        rw [Tree.sectors_directory] at hin hdisjoint hsub
        obtain ⟨hplace, hinner, hapart⟩ := List.nodup_append.mp hin
        cases hall e _ ht with
        | directory table htable hshows hheld =>
          obtain ⟨dir₁, k₁, hy₁, hkeep₁, hshows₁, hlen₁, hheld₁, hsectors₁⟩ :=
            ih hedit hnew hshows hheld hinner
              (fun s hs => hfresh s (hsub s (List.mem_append_right _ hs))) hbelow
          have hk₁ : 0 < k₁.dataSize := hkeep₁.dataSize ▸ hk
          have htable₁ : k₁.HasTable p table :=
            htable.keeps hkeep₁ fun s hs hmem => hapart s hs s (Slots.tables_subset hmem) rfl
          have hout : ∀ s ∈ p.chain, s ∉ Slots.sectors below' := by
            intro s hs hmem
            have hs' : s ∈ p.sectors := List.mem_cons_of_mem _ hs
            rcases hsectors₁ s hmem with hmem | hmem
            · exact hapart s hs' s hmem rfl
            · exact hfresh s (hsub s (List.mem_append_left _ hs')) hmem
          obtain ⟨k₂, hy₂, hkeep₂, hheld₂⟩ := storeRoot_yields (f := p.handle) htable₁ hk₁ rfl
            (List.nodup_cons.mp hplace).1 hshows₁ (hlen₁.trans htable.length_slots) hheld₁ hout
          have hkeep : k.Keeps k₂ (· ∉ Slots.tables slots) :=
            (hkeep₁.mono fun s hs hmem => hs (Slots.inner_tables_subset ht hmem)).trans
              (hkeep₂.mono fun s hs hmem => hs (Slots.chain_subset_tables ht hmem))
          have hother : k.Keeps k₂ (· ∉ p.sectors ++ Slots.sectors below) :=
            (hkeep₁.mono fun s hs hmem => hs
              (List.mem_append_right _ (Slots.tables_subset hmem))).trans
            (hkeep₂.mono fun s hs hmem => hs
              (List.mem_append_left _ (List.mem_cons_of_mem _ hmem)))
          refine ⟨dir, k₂, ?_, hkeep, h.setTree hi rfl rfl, rfl, fun e' t' ht' => ?_,
            fun s hs => ?_⟩
          · refine (search_yields h hfind).bind
              ((enter_yields hkind hsector hk htable.file htable.isIn path).bind ?_)
            exact hy₁.bind (hy₂.bind (Yields.pure dir k₂))
          · rcases Slots.mem_set ht' with ht' | ht'
            · refine (hall e' t' (Slots.mem_of_mem_set_none ht')).keeps hother fun s hs hmem => ?_
              exact hdisjoint s hmem s (Slots.mem_sectors.mpr ⟨e', t', ht', hs⟩) rfl
            · cases ht'
              exact hheld₂
          · obtain ⟨e', t', ht', hs⟩ := Slots.mem_sectors.mp hs
            rcases Slots.mem_set ht' with ht' | ht'
            · exact .inl (Slots.mem_sectors.mpr ⟨e', t', Slots.mem_of_mem_set_none ht', hs⟩)
            · cases ht'
              rw [Tree.sectors_directory] at hs
              rcases List.mem_append.mp hs with hs | hs
              · exact .inl (hsub s (List.mem_append_left _ hs))
              · exact (hsectors₁ s hs).imp_left fun hs => hsub s (List.mem_append_right _ hs)

end Disk

end SectorChain
