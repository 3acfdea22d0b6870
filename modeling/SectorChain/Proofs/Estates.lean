import SectorChain.Proofs.CutChains
import SectorChain.Proofs.DamagedTrees
import Mathlib.Data.Set.Insert

/-!
# Estates

An estate has the files and directories on a disk, each with the sectors that it owns, and the table
of each directory. It is flat: nothing says which of them lie below others but the entries in the
tables. It has no bytes of files, and a chain in it may end before the blocks that its header
counts; so there is one also on devices with more sectors than links can name, where no inventory
is.

* `Estate.Ordered`: no sector has two owners, and each entry with a link leads to an owner of its
  own, which is never the root.
* `Disk.Supports k A`: what the estate has is on the disk.
* `Estate.Line A l`: directories each of which is in the next one, up to the root.

Results:
* `Ordered.bare`, `Ordered.enlist`, `Ordered.setSlot`, `Ordered.without`: an estate without files is
  ordered, and stays so when a file is new, when a slot of a table is set, and when files are gone
  that nothing leads to.
* `Line.nodup`, `Line.length_le`: no directory contains itself, and so there are not too many in one
  another.
* `Ordered.exists_way`: a path leads through the same directories on all disks that support the
  estate, and to the same entry.
* `Ordered.exists_lines`: so the listing of the whole volume is the same on all of them.
* `Supports.amend_cases`: a change of a directory sets one slot, or fails and changes nothing.
* `Supports.node_cases`, `Supports.owners_of_entered`: what a release finds are owners.
* `Supports.ordered_without`: the estate is ordered without a tree whose entry is out of use.
-/

namespace SectorChain

/-- A file or a directory, with the place where it lies. -/
structure Owner where
  kind : Kind
  place : Place

/-- The files and directories on a disk, and the table that each directory has at its place. -/
structure Estate where
  owners : Set Owner
  tableOf : Place → Directory

namespace Estate

/-- The entry in slot `i` of the directory at `p` is in use. -/
structure Entered (A : Estate) (p : Place) (i : Nat) (e : Entry) : Prop where
  owner : ⟨.directory, p⟩ ∈ A.owners
  slot : (A.tableOf p).slots[i]? = some e
  inUse : e.inUse = true

/-- **The sectors of an estate have one owner each**, and the entries in it one target each. -/
structure Ordered (A : Estate) : Prop where
  outside : ∀ x ∈ A.owners, x.place.sector ∉ x.place.chain
  apart : ∀ x ∈ A.owners, ∀ y ∈ A.owners, ∀ s ∈ x.place.sectors, s ∈ y.place.sectors → x = y
  leads : ∀ {p i e s}, A.Entered p i e → e.sector? = some s →
    Layout.rootSector < s ∧ ∃ q, q.sector = s ∧ ⟨e.kind, q⟩ ∈ A.owners
  linked : ∀ {p i e}, A.Entered p i e → e.kind = .directory → ∃ s, e.sector? = some s
  once : ∀ {p i e p' i' e' s}, A.Entered p i e → A.Entered p' i' e' → e.sector? = some s →
    e'.sector? = some s → p = p' ∧ i = i'

/-- The directory at a place of the estate. -/
def visit (A : Estate) (p : Place) : Visit := ⟨p, A.tableOf p⟩

/-- The estate that nobody owns anything of. -/
def bare : Estate := ⟨∅, fun _ => .empty Layout.directorySlots⟩

/-- The estate with one more file or directory, which has nothing in it. -/
def enlist (A : Estate) (x : Owner) : Estate where
  owners := insert x A.owners
  tableOf := Function.update A.tableOf x.place (.empty Layout.directorySlots)

/-- The estate with slot `i` of the directory at `p` set. -/
def setSlot (A : Estate) (p : Place) (i : Nat) (e : Entry) : Estate :=
  { A with tableOf := Function.update A.tableOf p ⟨(A.tableOf p).slots.set i e⟩ }

/-- The estate without some of its files and directories. -/
def without (A : Estate) (gone : Set Owner) : Estate := { A with owners := A.owners \ gone }

theorem enlist_self (A : Estate) (x : Owner) :
    (A.enlist x).tableOf x.place = .empty Layout.directorySlots := Function.update_self _ _ _

theorem enlist_of_ne {A : Estate} {x : Owner} {q : Place} (h : q ≠ x.place) :
    (A.enlist x).tableOf q = A.tableOf q := Function.update_of_ne h _ _

theorem setSlot_self (A : Estate) (p : Place) (i : Nat) (e : Entry) :
    (A.setSlot p i e).tableOf p = ⟨(A.tableOf p).slots.set i e⟩ := Function.update_self _ _ _

theorem setSlot_of_ne {A : Estate} {p q : Place} {i : Nat} {e : Entry} (h : q ≠ p) :
    (A.setSlot p i e).tableOf q = A.tableOf q := Function.update_of_ne h _ _

namespace Ordered

variable {A : Estate} {x y : Owner} {p : Place} {i : Nat} {e : Entry}

/-- An owner is known by the sector of its header. -/
theorem eq_of_sector (h : A.Ordered) (hx : x ∈ A.owners) (hy : y ∈ A.owners)
    (hsector : x.place.sector = y.place.sector) : x = y :=
  h.apart x hx y hy _ List.mem_cons_self (hsector ▸ List.mem_cons_self)

/-- The sectors of one owner are not in the chain of another. -/
theorem chain_apart (h : A.Ordered) (hx : x ∈ A.owners) (hy : y ∈ A.owners) (hne : x ≠ y) {s : Nat}
    (hs : s ∈ y.place.sectors) : s ∉ x.place.chain := fun hmem =>
  hne (h.apart x hx y hy s (List.mem_cons_of_mem _ hmem) hs)

theorem sector_notMem (h : A.Ordered) (hx : x ∈ A.owners) (hy : y ∈ A.owners) :
    y.place.sector ∉ x.place.chain := fun hmem => by
  obtain rfl := h.apart x hx y hy _ (List.mem_cons_of_mem _ hmem) List.mem_cons_self
  exact h.outside x hx hmem

/-! ### Changes of an estate -/

theorem bare : Estate.bare.Ordered where
  outside _ hx := hx.elim
  apart _ hx := hx.elim
  leads he := he.owner.elim
  linked he := he.owner.elim
  once he := he.owner.elim

/-- The place of a new owner is not that of another. -/
theorem place_ne (hfresh : ∀ y ∈ A.owners, ∀ s ∈ y.place.sectors, s ∉ x.place.sectors)
    (hy : y ∈ A.owners) : y.place ≠ x.place := fun heq =>
  hfresh y hy _ List.mem_cons_self (heq ▸ List.mem_cons_self)

/-- No entry is in the directory that is new. -/
theorem entered_of_enlist
    (hfresh : ∀ y ∈ A.owners, ∀ s ∈ y.place.sectors, s ∉ x.place.sectors)
    (h : (A.enlist x).Entered p i e) : A.Entered p i e := by
  obtain ⟨howner, hslot, hused⟩ := h
  rcases Set.mem_insert_iff.mp howner with rfl | howner
  · rw [enlist_self A ⟨.directory, p⟩] at hslot
    obtain rfl := List.eq_of_mem_replicate (List.mem_of_getElem? hslot)
    cases hused
  · rw [enlist_of_ne (place_ne hfresh howner)] at hslot
    exact ⟨howner, hslot, hused⟩

/-- **A file is new**, in sectors that had no owner. -/
theorem enlist (h : A.Ordered) (hout : x.place.sector ∉ x.place.chain)
    (hfresh : ∀ y ∈ A.owners, ∀ s ∈ y.place.sectors, s ∉ x.place.sectors) :
    (A.enlist x).Ordered where
  outside := Set.forall_mem_insert.mpr ⟨hout, h.outside⟩
  apart := by
    rintro y (rfl | hy) z (rfl | hz) s hs hs'
    · rfl
    · exact absurd hs (hfresh z hz s hs')
    · exact absurd hs' (hfresh y hy s hs)
    · exact h.apart y hy z hz s hs hs'
  leads he hs :=
    have ⟨hroot, q, hq, howner⟩ := h.leads (entered_of_enlist hfresh he) hs
    ⟨hroot, q, hq, Set.mem_insert_of_mem _ howner⟩
  linked he := h.linked (entered_of_enlist hfresh he)
  once he he' := h.once (entered_of_enlist hfresh he) (entered_of_enlist hfresh he')

/-- What is entered after a slot was set: the new entry, or one that was in another slot. -/
theorem entered_setSlot {p' : Place} {i' : Nat} {e' : Entry}
    (h : (A.setSlot p i e).Entered p' i' e') :
    p' = p ∧ i' = i ∧ e' = e ∨ A.Entered p' i' e' ∧ ¬(p' = p ∧ i' = i) := by
  obtain ⟨howner, hslot, hused⟩ := h
  by_cases hp : p' = p
  · subst hp
    rw [setSlot_self] at hslot
    by_cases hi : i = i'
    · subst hi
      obtain ⟨hlt, hget⟩ := List.getElem?_eq_some_iff.mp hslot
      rw [List.getElem_set_self] at hget
      exact .inl ⟨rfl, rfl, hget.symm⟩
    · rw [List.getElem?_set_ne hi] at hslot
      exact .inr ⟨⟨howner, hslot, hused⟩, fun heq => hi heq.2.symm⟩
  · rw [setSlot_of_ne hp] at hslot
    exact .inr ⟨⟨howner, hslot, hused⟩, fun heq => hp heq.1⟩

/-- **A slot is set** to an entry that is not in use, or that leads to an owner to which no other
entry does. -/
theorem setSlot (h : A.Ordered)
    (hleads : e.inUse = true → ∀ s, e.sector? = some s →
      Layout.rootSector < s ∧ ∃ q, q.sector = s ∧ ⟨e.kind, q⟩ ∈ A.owners)
    (hlinked : e.inUse = true → e.kind = .directory → ∃ s, e.sector? = some s)
    (honce : e.inUse = true → ∀ s, e.sector? = some s →
      ∀ p' i' e', A.Entered p' i' e' → e'.sector? ≠ some s) : (A.setSlot p i e).Ordered where
  outside := h.outside
  apart := h.apart
  leads he hs := by
    rcases entered_setSlot he with ⟨rfl, rfl, rfl⟩ | ⟨hold, -⟩
    · exact hleads he.inUse _ hs
    · exact h.leads hold hs
  linked he hkind := by
    rcases entered_setSlot he with ⟨rfl, rfl, rfl⟩ | ⟨hold, -⟩
    · exact hlinked he.inUse hkind
    · exact h.linked hold hkind
  once he he' hs hs' := by
    rcases entered_setSlot he with ⟨rfl, rfl, rfl⟩ | ⟨hold, -⟩ <;>
      rcases entered_setSlot he' with ⟨rfl, rfl, rfl⟩ | ⟨hold', -⟩
    · exact ⟨rfl, rfl⟩
    · exact absurd hs' (honce he.inUse _ hs _ _ _ hold')
    · exact absurd hs (honce he'.inUse _ hs' _ _ _ hold)
    · exact h.once hold hold' hs hs'

/-- **Some are gone** that no entry of the others leads to. -/
theorem without (h : A.Ordered) {gone : Set Owner}
    (hclosed : ∀ {p i e q}, A.Entered p i e → ⟨.directory, p⟩ ∉ gone → e.sector? = some q.sector →
      ⟨e.kind, q⟩ ∉ gone) : (A.without gone).Ordered where
  outside x hx := h.outside x hx.1
  apart x hx y hy := h.apart x hx.1 y hy.1
  leads he hs := by
    obtain ⟨⟨howner, hstays⟩, hslot, hused⟩ := he
    obtain ⟨hroot, q, rfl, hq⟩ := h.leads ⟨howner, hslot, hused⟩ hs
    exact ⟨hroot, q, rfl, hq, hclosed ⟨howner, hslot, hused⟩ hstays hs⟩
  linked he := h.linked ⟨he.owner.1, he.slot, he.inUse⟩
  once he he' :=
    h.once ⟨he.owner.1, he.slot, he.inUse⟩ ⟨he'.owner.1, he'.slot, he'.inUse⟩

end Ordered

/-! ## Directories in one another -/

/-- **Directories each of which is in the next one**, up to the root. -/
inductive Line (A : Estate) : List Place → Prop
  | root {p : Place} (hp : ⟨.directory, p⟩ ∈ A.owners) (hroot : p.sector = Layout.rootSector) :
      Line A [p]
  | child {p q : Place} {l : List Place} {i : Nat} {e : Entry} (h : Line A (p :: l))
      (he : A.Entered p i e) (hsector : e.sector? = some q.sector)
      (hq : ⟨.directory, q⟩ ∈ A.owners) : Line A (q :: p :: l)

namespace Line

variable {A : Estate} {l : List Place}

theorem owners (h : A.Line l) : ∀ p ∈ l, ⟨.directory, p⟩ ∈ A.owners := by
  induction h with
  | root hp => exact List.forall_mem_cons.mpr ⟨hp, nofun⟩
  | child _ _ _ hq ih => exact List.forall_mem_cons.mpr ⟨hq, ih⟩

/-- The directory at the end of a way is an owner. -/
theorem owner_of_getLast? {p w : Place} {ps : List Place} (h : A.Line (ps.reverse ++ [p]))
    (hw : (p :: ps).getLast? = some w) : ⟨.directory, w⟩ ∈ A.owners := by
  have hmem := List.mem_of_getLast? hw
  rw [← List.mem_reverse, List.reverse_cons] at hmem
  exact h.owners w hmem

/-- A directory on the line has its parent right behind it. -/
theorem parent (h : A.Line l) (hA : A.Ordered) {q p : Place} (hq : q ∈ l) {i : Nat} {e : Entry}
    (he : A.Entered p i e) (hsector : e.sector? = some q.sector) :
    ∃ rest, q :: p :: rest <:+ l := by
  induction h with
  | @root r hp hroot =>
    obtain rfl := List.mem_singleton.mp hq
    exact absurd (hA.leads he hsector).1 (hroot ▸ Nat.lt_irrefl _)
  | @child p' q' l i' e' h' he' hsector' hq' ih =>
    rcases List.mem_cons.mp hq with rfl | hmem
    · obtain ⟨rfl, -⟩ := hA.once he he' hsector hsector'
      exact ⟨l, List.suffix_refl _⟩
    · obtain ⟨rest, hsuffix⟩ := ih hmem
      exact ⟨rest, hsuffix.trans (List.suffix_cons _ _)⟩

/-- **No directory contains itself.** -/
theorem nodup (h : A.Line l) (hA : A.Ordered) : l.Nodup := by
  induction h with
  | root => exact List.nodup_singleton _
  | @child p q l i e h' he hsector hq ih =>
    refine List.nodup_cons.mpr ⟨fun hmem => ?_, ih⟩
    -- if it did, its parent would stand on the line twice
    obtain ⟨rest, hsuffix⟩ := h'.parent hA hmem he hsector
    refine (List.nodup_cons.mp ih).1 ?_
    rcases List.suffix_cons_iff.mp hsuffix with heq | hsuffix
    · rw [← (List.cons.inj heq).2]
      exact List.mem_cons_self
    · exact hsuffix.subset (List.mem_cons_of_mem _ List.mem_cons_self)

/-- The header of a directory on a line has a link. -/
theorem lt_limit (h : A.Line l) : ∀ p ∈ l, p.sector < Link.limit := by
  induction h with
  | root _ hroot => exact List.forall_mem_cons.mpr ⟨hroot ▸ by decide, nofun⟩
  | child _ _ hsector _ ih => exact List.forall_mem_cons.mpr ⟨Disk.target_lt hsector, ih⟩

/-- There are no more directories in one another than links can name. -/
theorem length_le (h : A.Line l) (hA : A.Ordered) : l.length ≤ Link.limit := by
  have hsectors : (l.map Place.sector).Nodup :=
    (h.nodup hA).map_on fun p hp q hq heq =>
      congrArg Owner.place (hA.eq_of_sector (h.owners p hp) (h.owners q hq) heq)
  have hle := Volume.length_le_of_nodup hsectors fun s hs => by
    obtain ⟨p, hp, rfl⟩ := List.mem_map.mp hs
    exact h.lt_limit p hp
  rwa [List.length_map] at hle

/-- The directories on a line are apart. -/
theorem apart {ps : List Place} (h : A.Line l) (hA : A.Ordered) (hps : ps.Nodup) (hsub : ps ⊆ l) :
    Visit.Apart (ps.map A.visit) where
  chains := by
    rw [List.pairwise_map]
    refine hps.imp_of_mem fun {p q} hp hq hne s hs hs' => ?_
    exact hA.chain_apart (h.owners p (hsub hp)) (h.owners q (hsub hq))
      (fun heq => hne (congrArg Owner.place heq)) (List.mem_cons_of_mem _ hs') hs
  headers := by
    intro v hv w hw
    obtain ⟨p, hp, rfl⟩ := List.mem_map.mp hv
    obtain ⟨q, hq, rfl⟩ := List.mem_map.mp hw
    exact hA.sector_notMem (h.owners q (hsub hq)) (h.owners p (hsub hp))

end Line

end Estate

/-! ## On a disk -/

/-- **What the estate has is on the disk.** -/
structure Disk.Supports (k : Disk) (A : Estate) : Prop where
  begins : ∀ x ∈ A.owners, k.Begins x.place
  tabled : ∀ p, ⟨.directory, p⟩ ∈ A.owners → k.Tabled (A.visit p)

namespace Disk.Supports

variable {A : Estate} {k k' : Disk}

theorem bare (k : Disk) : k.Supports .bare := ⟨fun _ hx => hx.elim, fun _ hp => hp.elim⟩

/-- Outside the sectors that have an owner, the disk may change. -/
theorem keeps {q : Nat → Prop} (h : k.Supports A) (hk : k.Keeps k' q)
    (hq : ∀ x ∈ A.owners, ∀ s ∈ x.place.sectors, q s) : k'.Supports A where
  begins x hx := (h.begins x hx).keeps hk (hq x hx)
  tabled p hp := (h.tabled p hp).keeps hk (hq _ hp)

/-- **The chain of a regular file may change** as long as it stays linked. -/
theorem written (h : k.Supports A) (hA : A.Ordered) {x : Owner} (hx : x ∈ A.owners)
    (hfile : x.kind = .file) (hk : k.Keeps k' (· ∉ x.place.chain))
    (hlinked : k'.Linked x.place.chain) : k'.Supports A where
  begins y hy := by
    by_cases hxy : x = y
    · exact hxy ▸ (h.begins x hx).written (hA.outside x hx) hk hlinked
    · exact (h.begins y hy).keeps hk fun s hs => hA.chain_apart hx hy hxy hs
  tabled p hp := (h.tabled p hp).keeps hk fun s hs => hA.chain_apart hx hp (by
    rintro rfl
    cases hfile) hs

/-- **A file is new** where it begins; if it is a directory, its table has no entry. -/
theorem enlist (h : k.Supports A) {x : Owner}
    (hfresh : ∀ y ∈ A.owners, ∀ s ∈ y.place.sectors, s ∉ x.place.sectors)
    (hx : k.Begins x.place) (htable : x.kind = .directory →
      k.Tabled ⟨x.place, .empty Layout.directorySlots⟩) : k.Supports (A.enlist x) where
  begins := Set.forall_mem_insert.mpr ⟨hx, h.begins⟩
  tabled p hp := by
    unfold Estate.visit
    rcases Set.mem_insert_iff.mp hp with rfl | hp
    · rw [Estate.enlist_self A ⟨.directory, p⟩]
      exact htable rfl
    · rw [Estate.enlist_of_ne (Estate.Ordered.place_ne hfresh hp)]
      exact h.tabled p hp

theorem without (h : k.Supports A) (gone : Set Owner) : k.Supports (A.without gone) :=
  ⟨fun x hx => h.begins x hx.1, fun p hp => h.tabled p hp.1⟩

end Disk.Supports

/-! ## Paths and listings -/

/-- What has an answer for each element has one for the list. -/
theorem exists_mapM {α β : Type} {P : Disk → Prop} {f : α → DriveM β} {l : List α}
    (h : ∀ a ∈ l, ∃ b, ∀ k, P k → Yields (f a) k (.ok b) k) :
    ∃ bs, ∀ k, P k → Yields (l.mapM f) k (.ok bs) k := by
  induction l with
  | nil => exact ⟨[], fun k _ => Yields.pure [] k⟩
  | cons a rest ih =>
    obtain ⟨b, hb⟩ := h a List.mem_cons_self
    obtain ⟨bs, hbs⟩ := ih fun c hc => h c (List.mem_cons_of_mem _ hc)
    refine ⟨b :: bs, fun k hk => ?_⟩
    rw [List.mapM_cons]
    exact (hb k hk).bind ((hbs k hk).bind (Yields.pure _ k))

namespace Estate

variable {A : Estate} {p : Place} {l : List Place}

/-- An entry that is found in a directory is entered there. -/
theorem exists_entered {name : String} {e : Entry} (hp : ⟨.directory, p⟩ ∈ A.owners)
    (he : Directory.entry? (A.tableOf p) name = some e) : ∃ i, A.Entered p i e := by
  obtain ⟨i, hi⟩ := List.getElem?_of_mem (List.mem_of_find?_eq_some he)
  have hfor : e.isFor name = true := List.find?_some (p := (Entry.isFor · name)) he
  exact ⟨i, hp, hi, (Bool.and_eq_true_iff.mp hfor).1⟩

namespace Ordered

/-- An entry for a directory leads to one, which is one more on the line. -/
theorem exists_child (h : A.Ordered) (hl : A.Line (p :: l)) {i : Nat} {e : Entry} {s : Nat}
    (he : A.Entered p i e) (hkind : e.kind = .directory) (hsector : e.sector? = some s) :
    ∃ q, q.sector = s ∧ A.Line (q :: p :: l) := by
  obtain ⟨-, q, rfl, hq⟩ := h.leads he hsector
  exact ⟨q, rfl, hl.child he hsector (hkind ▸ hq)⟩

/-- **The way along a route** is the same on all disks that support the estate: the directories
`ps`, and the entry at the end, which is in the last of them. -/
theorem exists_way (h : A.Ordered) (path : String) (r : Route) (hl : A.Line (p :: l)) :
    ∃ ps res, A.Line (ps.reverse ++ p :: l) ∧
      (∀ k : Disk, k.Supports A → k.Passes r (A.tableOf p) (ps.map A.visit)) ∧
      (∀ k : Disk, k.Supports A → Yields (Directory.follow path r (A.tableOf p)) k res k) ∧
      ∀ e, res = .ok e → ∃ w, (p :: ps).getLast? = some w ∧
        Directory.entry? (A.tableOf w) (Slots.lastName r) = some e := by
  induction r generalizing p l with
  | invalid rest =>
    exact ⟨[], _, hl, fun _ _ => .invalid, fun k _ => Yields.throw _ k, nofun⟩
  | last name =>
    cases he : Directory.entry? (A.tableOf p) name with
    | none =>
      exact ⟨[], _, hl, fun _ _ => .last, fun k _ => Disk.search_none he, nofun⟩
    | some e =>
      refine ⟨[], .ok e, hl, fun _ _ => .last, fun k _ => Disk.search_found he, ?_⟩
      rintro e' ⟨⟩
      exact ⟨p, rfl, he⟩
  | step name rest ih =>
    cases hbelow : (A.tableOf p).below? name with
    | none =>
      have hstop : ∃ x, ∀ k, Yields (Directory.follow path (.step name rest) (A.tableOf p)) k
          (.error x) k := by
        cases he : Directory.entry? (A.tableOf p) name with
        | none => exact ⟨_, fun k => (Disk.search_none he).bind_error⟩
        | some e =>
          obtain ⟨x, hx⟩ := Directory.enter_stops he hbelow path
          exact ⟨x, fun k => (Disk.search_found he).bind (hx k).bind_error⟩
      obtain ⟨x, hx⟩ := hstop
      exact ⟨[], _, hl, fun _ _ => .stop hbelow, fun k _ => hx k, nofun⟩
    | some s =>
      obtain ⟨e, he, hkind, hsector⟩ := Directory.exists_of_below? hbelow
      obtain ⟨i, hentered⟩ := exists_entered (hl.owners p List.mem_cons_self) he
      obtain ⟨q, rfl, hline⟩ := h.exists_child hl hentered hkind hsector
      have hq := hline.owners q List.mem_cons_self
      obtain ⟨ps, res, hline', hpasses, hfollow, hlast⟩ := ih hline
      refine ⟨q :: ps, res, ?_, fun k hk => ?_, fun k hk => ?_, hlast⟩
      · rwa [List.reverse_cons, List.append_assoc]
      · exact .step hbelow (hk.tabled q hq) (hpasses k hk)
      · exact (Disk.search_found he).bind
          (((hk.tabled q hq).enter_yields hkind hsector path).bind (hfollow k hk))

/-- **The whole volume is listed**, with the same lines on all disks that support the estate. -/
theorem exists_lines (h : A.Ordered) {depth : Nat} (hl : A.Line (p :: l))
    (hdepth : Link.limit < (p :: l).length + depth) (level : Nat) :
    ∃ lines, ∀ k : Disk, k.Supports A →
      Yields (Directory.treeLines depth level (A.tableOf p)) k (.ok lines) k := by
  induction depth generalizing p l level with
  | zero => exact absurd (hl.length_le h) (Nat.not_le.mpr hdepth)
  | succ depth ih =>
    unfold Directory.treeLines
    suffices ∃ lines, ∀ k : Disk, k.Supports A → Yields ((A.tableOf p).entries.mapM _) k
        (.ok lines) k by
      obtain ⟨lines, hlines⟩ := this
      exact ⟨lines.flatten, fun k hk => (hlines k hk).bind (Yields.pure _ k)⟩
    refine exists_mapM fun e he => ?_
    obtain ⟨hmem, hused⟩ := List.mem_filter.mp he
    obtain ⟨i, hi⟩ := List.getElem?_of_mem hmem
    have hentered : A.Entered p i e := ⟨hl.owners p List.mem_cons_self, hi, hused⟩
    cases hkind : e.kind with
    | file => exact ⟨_, fun k _ => Yields.pure _ k⟩
    | directory =>
      obtain ⟨s, hsector⟩ := h.linked hentered hkind
      obtain ⟨q, rfl, hline⟩ := h.exists_child hl hentered hkind hsector
      obtain ⟨lines, hlines⟩ := ih hline (by rw [List.length_cons]; omega) (level + 1)
      exact ⟨_, fun k hk => ((hk.tabled q (hline.owners q List.mem_cons_self)).enter_yields hkind
        hsector e.name).bind ((hlines k hk).bind (Yields.pure _ k))⟩

end Ordered

end Estate

/-! ## Changes of a directory -/

/-- The files of the other directories are apart from the chain of the first one. -/
theorem Visit.Apart.others {v : Visit} {visits : List Visit} (h : Apart (v :: visits)) {w : Visit}
    (hw : w ∈ visits) : ∀ s ∈ w.place.sectors, s ∉ v.place.chain := by
  intro s hs hmem
  rcases List.mem_cons.mp hs with rfl | hs
  · exact h.headers w (List.mem_cons_of_mem _ hw) v List.mem_cons_self hmem
  · exact (List.pairwise_cons.mp h.chains).1 w hw hmem hs

namespace Disk

variable {k : Disk} {rule : SlotRule} {edit : Directory → String → DriveM Directory}

/-- **A change, written back**: it fails and changes nothing, or sets one slot of the last directory
on its way. The others are as before. -/
theorem Passes.amend_cases {r : Route} {dir : Directory} {visits : List Visit} {p : Place}
    {f : Handle} (h : k.Passes r dir visits) (path : String) (hdir : k.Tabled ⟨p, dir⟩)
    (hf : f.header = p.header) (hapart : Visit.Apart (⟨p, dir⟩ :: visits))
    (hedit : Directory.SetsSlot edit rule) :
    (∃ x, Yields (Directory.change path edit r dir) k (.error x) k) ∨
    ∃ dir' k₁ k₂ w i e e', Yields (Directory.change path edit r dir) k (.ok dir') k₁ ∧
      Yields (dir'.store f) k₁ (.ok ()) k₂ ∧
      k.Keeps k₂ (· ∉ Visit.chains (⟨p, dir⟩ :: visits)) ∧
      (⟨p, dir⟩ :: visits : List Visit).getLast? = some w ∧ w.table.slots[i]? = some e ∧
      rule w.table (Slots.lastName r) i e e' ∧ k₂.Tabled ⟨w.place, ⟨w.table.slots.set i e'⟩⟩ ∧
      ∀ u ∈ (⟨p, dir⟩ :: visits : List Visit), u ≠ w → k₂.Tabled u := by
  -- the tables are written from the inside out, so each is stored on a disk where those below
  -- have been written already
  induction h generalizing p f with
  | invalid => exact .inl ⟨_, Yields.throw _ k⟩
  | @last name dir =>
    rcases hedit dir name with ⟨x, hx⟩ | ⟨i, e, e', hi, hrule, hy⟩
    · exact .inl ⟨x, hx k⟩
    have hout : p.sector ∉ p.chain := hapart.headers _ List.mem_cons_self _ List.mem_cons_self
    have hslots : (⟨dir.slots.set i e'⟩ : Directory).slots.length = Layout.directorySlots :=
      List.length_set.trans hdir.table.length_slots
    obtain ⟨k₂, hstore, hkeep, htabled⟩ := hdir.store_yields hf hout hslots
    have hchains : Visit.chains [⟨p, dir⟩] = p.chain := List.append_nil _
    refine .inr ⟨_, k, k₂, ⟨p, dir⟩, i, e, e', hy k, hstore, hchains.symm ▸ hkeep, rfl, hi, hrule,
      htabled, fun u hu hne => absurd (List.mem_singleton.mp hu) hne⟩
  | stop hnone => exact .inl (Directory.change_stops hnone path edit _)
  | @step name rest dir v visits hsector hstored hrest ih =>
    obtain ⟨e, he, hkind, hheader⟩ := Directory.exists_of_below? hsector
    have hsearch : Yields (dir.search path name) k (.ok e) k := search_found he
    have henter := hstored.enter_yields hkind hheader path
    unfold Directory.change
    rcases ih (f := v.place.handle) hstored rfl hapart.tail with
      ⟨x, hx⟩ | ⟨below, k₁, k₂, w, i, old, new, hy, hstore, hkeep, hlast, hi, hrule, hset, hothers⟩
    · exact .inl ⟨x, hsearch.bind (henter.bind hx.bind_error)⟩
    have hdir₂ : k₂.Tabled ⟨p, dir⟩ := hdir.keeps hkeep hapart.head
    have hout : p.sector ∉ p.chain := hapart.headers _ List.mem_cons_self _ List.mem_cons_self
    obtain ⟨k₃, hself, hkeep', hdir₃⟩ := hdir₂.store_yields hf hout hdir.table.length_slots
    have hw : w ∈ v :: visits := List.mem_of_getLast? hlast
    refine .inr ⟨dir, k₂, k₃, w, i, old, new,
      hsearch.bind (henter.bind (hy.bind (hstore.bind (Yields.pure _ k₂)))), hself, ?_,
      List.getLast?_cons_cons.trans hlast, hi, hrule,
      hset.keeps hkeep' (hapart.others (w := w) hw), fun u hu hne => ?_⟩
    · exact (hkeep.mono fun s hs hmem => hs (List.mem_append_right _ hmem)).trans
        (hkeep'.mono fun s hs hmem => hs (List.mem_append_left _ hmem))
    · rcases List.mem_cons.mp hu with rfl | hu
      · exact hdir₃
      · exact (hothers u hu hne).keeps hkeep' (hapart.others hu)

/-- **A change sets one slot of the estate**, in the last directory on its way, or fails and changes
nothing. -/
theorem Supports.amend_cases {A : Estate} (h : k.Supports A) (hA : A.Ordered) {r : Route}
    {root : Place} {ps : List Place} (hline : A.Line (ps.reverse ++ [root]))
    (hpasses : k.Passes r (A.tableOf root) (ps.map A.visit)) (path : String) {f : Handle}
    (hf : f.header = root.header) (hedit : Directory.SetsSlot edit rule) :
    (∃ x, Yields (Directory.change path edit r (A.tableOf root)) k (.error x) k) ∨
    ∃ dir' k₁ k₂ w i e e', Yields (Directory.change path edit r (A.tableOf root)) k (.ok dir') k₁ ∧
      Yields (dir'.store f) k₁ (.ok ()) k₂ ∧
      k.Keeps k₂ (fun s => ∀ q, ⟨.directory, q⟩ ∈ A.owners → s ∉ q.chain) ∧
      (root :: ps).getLast? = some w ∧ (A.tableOf w).slots[i]? = some e ∧
      rule (A.tableOf w) (Slots.lastName r) i e e' ∧ k₂.Supports (A.setSlot w i e') := by
  have hsame : ps.reverse ++ [root] = (root :: ps).reverse := List.reverse_cons.symm
  rw [hsame] at hline
  have howners : ∀ q ∈ root :: ps, ⟨.directory, q⟩ ∈ A.owners := fun q hq =>
    hline.owners q (List.mem_reverse.mpr hq)
  have hapart : Visit.Apart ((root :: ps).map A.visit) :=
    hline.apart hA (List.nodup_reverse.mp (hline.nodup hA)) fun q hq => List.mem_reverse.mpr hq
  rcases hpasses.amend_cases path (h.tabled root (howners root List.mem_cons_self)) hf hapart
    hedit with hfails |
    ⟨dir', k₁, k₂, v, i, e, e', hy, hstore, hkeep, hlast, hi, hrule, hset, hothers⟩
  · exact .inl hfails
  have hlast' : ((root :: ps).map A.visit).getLast? = some v := hlast
  rw [List.getLast?_map] at hlast'
  obtain ⟨w, hw, rfl⟩ := Option.map_eq_some_iff.mp hlast'
  have hkeep' : k.Keeps k₂ (fun s => ∀ q, ⟨.directory, q⟩ ∈ A.owners → s ∉ q.chain) :=
    hkeep.mono fun s hs hmem => by
      obtain ⟨u, hu, hsu⟩ := List.mem_flatMap.mp hmem
      obtain ⟨q, hq, rfl⟩ := List.mem_map.mp (show u ∈ (root :: ps).map A.visit from hu)
      exact hs q (howners q hq) hsu
  have htabled : ∀ q, ⟨.directory, q⟩ ∈ A.owners → k₂.Tabled ((A.setSlot w i e').visit q) := by
    intro q hq
    unfold Estate.visit
    by_cases hqw : q = w
    · subst hqw
      rw [Estate.setSlot_self]
      exact hset
    rw [Estate.setSlot_of_ne hqw]
    by_cases hmem : q ∈ root :: ps
    · exact hothers (A.visit q) (List.mem_map_of_mem hmem) fun heq =>
        hqw (congrArg Visit.place heq)
    · refine (h.tabled q hq).keeps hkeep fun s hs hin => ?_
      obtain ⟨u, hu, hsu⟩ := List.mem_flatMap.mp hin
      obtain ⟨q', hq', rfl⟩ := List.mem_map.mp (show u ∈ (root :: ps).map A.visit from hu)
      refine hA.chain_apart (howners q' hq') hq (fun heq => hmem ?_) hs hsu
      obtain rfl : q' = q := congrArg Owner.place heq
      exact hq'
  refine .inr ⟨dir', k₁, k₂, w, i, e, e', hy, hstore, hkeep', hw, hi, hrule, fun x hx => ?_,
    htabled⟩
  obtain ⟨kind, q⟩ := x
  cases kind with
  | directory => exact (htabled q hx).lies.begins
  | file => exact (h.begins _ hx).keeps hkeep' fun s hs q' hq' => hA.chain_apart hq' hx nofun hs

end Disk

/-! ## Trees that are found -/

/-- **What a release finds are owners**, and each but the first of them is entered in one. -/
theorem Disk.Supports.node_cases {k : Disk} {A : Estate} (h : k.Supports A) (hA : A.Ordered)
    {t : Node} (ht : k.Bears t) {q : Place} (hq : ⟨t.kind, q⟩ ∈ A.owners)
    (hsector : q.sector = t.place.sector) :
    ∀ x ∈ t.nodes, ⟨kindOf x, placeOf x⟩ ∈ A.owners ∧ (placeOf x = t.place ∨
      ∃ p i e, .inr p ∈ t.nodes ∧ A.Entered p i e ∧ e.sector? = some (placeOf x).sector) := by
  induction ht generalizing q with
  | @file f hlies _ =>
    obtain rfl : q = f.place := (h.begins _ hq).unique hlies.begins hsector
    intro x hx
    rw [Tree.nodes_file] at hx
    obtain rfl := List.mem_singleton.mp hx
    exact ⟨hq, .inl rfl⟩
  | @directory p slots table hlies _ hin hshows hall ih =>
    obtain rfl : q = p := (h.begins _ hq).unique hlies.begins hsector
    obtain rfl := hin.unique (h.tabled q hq).table
    intro x hx
    rw [Tree.nodes_directory] at hx ⊢
    rcases List.mem_cons.mp hx with rfl | hx
    · exact ⟨hq, .inl rfl⟩
    obtain ⟨⟨e, t⟩, ht, hx⟩ := List.mem_flatMap.mp hx
    have ht := Slots.mem_children.mp ht
    obtain ⟨hkind, hto⟩ := hshows.leads e t ht
    obtain ⟨i, hi⟩ := List.getElem?_of_mem ht
    obtain ⟨hslot, hused⟩ := hshows.getElem? hi
    have hentered : A.Entered q i e := ⟨hq, hslot, hused⟩
    obtain ⟨-, q', hq', howner⟩ := hA.leads hentered hto
    obtain ⟨hx', hcases⟩ := ih e t ht (hkind ▸ howner) hq' x hx
    refine ⟨hx', .inr ?_⟩
    rcases hcases with hplace | ⟨p', i', e', hp', hentered', hto'⟩
    · exact ⟨q, i, e, List.mem_cons_self, hentered, hplace ▸ hto⟩
    · exact ⟨p', i', e', List.mem_cons_of_mem _ (Slots.nodes_subset ht hp'), hentered', hto'⟩

/-- The files and directories of a tree. -/
def Tree.owners (t : Node) : Set Owner := {x | ∃ y ∈ t.nodes, ⟨kindOf y, placeOf y⟩ = x}

namespace Disk.Supports

variable {k : Disk} {A : Estate} {t : Node} {p : Place} {i : Nat} {e : Entry}

/-- What an entry leads to are owners, none of which is reserved. -/
theorem owners_of_entered (h : k.Supports A) (hA : A.Ordered) (ht : k.Bears t)
    (he : A.Entered p i e) (hkind : e.kind = t.kind) (hto : e.sector? = some t.place.sector) :
    ∀ x ∈ t.owners, x ∈ A.owners ∧ Layout.rootSector < x.place.sector := by
  obtain ⟨hlow, q, hq, howner⟩ := hA.leads he hto
  rintro _ ⟨y, hy, rfl⟩
  obtain ⟨hmem, hplace | ⟨p', i', e', -, he', hto'⟩⟩ := h.node_cases hA ht (hkind ▸ howner) hq y hy
  · exact ⟨hmem, hplace ▸ hlow⟩
  · exact ⟨hmem, (hA.leads he' hto').1⟩

/-- **A tree is gone** when its entry is not in use any more: no entry of the others leads to a part
of it. -/
theorem ordered_without (h : k.Supports A) (hA : A.Ordered) (ht : k.Bears t)
    (he : A.Entered p i e) (hkind : e.kind = t.kind) (hto : e.sector? = some t.place.sector) :
    ((A.setSlot p i { e with inUse := false }).without t.owners).Ordered := by
  obtain ⟨-, q, hq, howner⟩ := hA.leads he hto
  have hunused : ({ e with inUse := false } : Entry).inUse ≠ true := Bool.false_ne_true
  have hA' : (A.setSlot p i { e with inUse := false }).Ordered := hA.setSlot
    (fun hused => absurd hused hunused) (fun hused => absurd hused hunused)
    fun hused => absurd hused hunused
  refine hA'.without fun {p' i' e' q'} he' hstays hto' hgone => ?_
  rcases Estate.Ordered.entered_setSlot he' with ⟨-, -, rfl⟩ | ⟨hold, hother⟩
  · exact absurd he'.inUse hunused
  obtain ⟨y, hy, heq⟩ := hgone
  obtain rfl : placeOf y = q' := congrArg Owner.place heq
  -- the only entry that leads there is the one of the tree, or lies in the tree
  obtain ⟨-, hplace | ⟨p'', i'', e'', hp, hin, hinto⟩⟩ :=
    h.node_cases hA ht (hkind ▸ howner) hq y hy
  · exact hother (hA.once hold he hto' (hplace ▸ hto))
  · obtain ⟨rfl, -⟩ := hA.once hold hin hto' hinto
    exact hstays ⟨_, hp, rfl⟩

end Disk.Supports

end SectorChain
