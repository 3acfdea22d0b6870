import SectorChain.Proofs.TornTables

/-!
# Changes under faults

A change of the table at the end of a route is written from the inside out: first that table
(`Slots.parent` says where it lies), then the tables on the way to it, each of which gets the bytes
that it had. Whatever access fails, the files on the disk are therefore as they were but for one,
the file of the changed table, which may be torn.

Results:
* `Carries.of_files`: a tree stays on the disk while its files keep their bytes.
* `Directory.amend`: a change with its first table written back.
* `amend_survives`: a change gives the file of one table its new bytes, or fails with that file torn
  and no other file changed.
* `Carries.amended`: the tree on the disk after a change that takes trees from one table.
-/

namespace SectorChain

namespace Slots

variable {α β ε : Type}

/-- The directory in whose table the last name of a route is looked up, where `b` is the directory
that the route starts from. -/
def parent (name : ε → String) : Route → β → Slots α β ε → Option (β × Slots α β ε)
  | .invalid _, _, _ => none
  | .last _, b, slots => some (b, slots)
  | .step n rest, _, slots =>
    match find? name slots n with
    | some (_, _, .directory b below) => parent name rest b below
    | _ => none

variable {name : ε → String} {path : String} {r : Route} {b b' : β} {slots slots' s : Slots α β ε}

theorem parent_step {n : String} {rest : Route}
    (h : parent name (.step n rest) b slots = some (b', s)) :
    ∃ i e b₁ below, find? name slots n = some (i, e, .directory b₁ below) ∧
      parent name rest b₁ below = some (b', s) := by
  unfold parent at h
  split at h
  · rename_i i e b₁ below hfind
    exact ⟨i, e, b₁, below, hfind, h⟩
  · cases h

theorem parent_mem (h : parent name r b slots = some (b', s)) :
    .inr b' ∈ (Tree.directory b slots).nodes := by
  induction r generalizing b slots with
  | invalid rest => cases h
  | last n =>
    cases h
    rw [Tree.nodes_directory]
    exact List.mem_cons_self
  | step n rest ih =>
    obtain ⟨i, e, b₁, below, hfind, hrest⟩ := parent_step h
    rw [Tree.nodes_directory]
    exact List.mem_cons_of_mem _
      (nodes_subset (List.mem_of_getElem? (find?_eq_some hfind).1) (ih hrest))

/-- **A change is one of the table of the parent.** -/
theorem exists_parent {edit : Slots α β ε → String → Except VolumeError (Slots α β ε)}
    (h : change name path edit r slots = .ok slots') (b : β) :
    ∃ b' s s', parent name r b slots = some (b', s) ∧ edit s (lastName r) = .ok s' := by
  induction r generalizing b slots slots' with
  | invalid rest => cases h
  | last n => exact ⟨b, slots, slots', rfl, h⟩
  | step n rest ih =>
    unfold change at h
    unfold parent
    split at h
    · cases h
    · cases h
    · rename_i i e b₁ below hfind
      cases hbelow : change name path edit rest below with
      | error x =>
        rw [hbelow] at h
        cases h
      | ok below' =>
        rw [hfind]
        exact ih hbelow b₁

/-- A change that puts back the table that it found changes nothing. -/
theorem change_self (path : String) (h : parent name r b slots = some (b', s)) :
    change name path (fun s _ => .ok s) r slots = .ok slots := by
  induction r generalizing b slots with
  | invalid rest => cases h
  | last n => rfl
  | step n rest ih =>
    obtain ⟨i, e, b₁, below, hfind, hrest⟩ := parent_step h
    obtain ⟨hlt, hget⟩ := List.getElem?_eq_some_iff.mp (find?_eq_some hfind).1
    unfold change
    rw [hfind]
    dsimp only
    rw [ih hrest]
    show Except.ok (slots.set i _) = _
    rw [← hget, List.set_getElem_self]

end Slots

/-- Change the directory that holds the last name of a route, and write the table back that the
route starts from. -/
def Directory.amend (path : String) (edit : Directory → String → DriveM Directory) (r : Route)
    (f : Handle) (dir : Directory) : DriveM Unit := do
  (← Directory.change path edit r dir).store f

namespace Directory

variable {path : String} {edit : Directory → String → DriveM Directory} {f : Handle}
  {dir : Directory}

theorem amend_last (n : String) :
    amend path edit (.last n) f dir = (do (← edit dir n).store f) := rfl

theorem amend_step (n : String) (rest : Route) :
    amend path edit (.step n rest) f dir = (do
      let e ← dir.search path n
      let p ← enter e path
      amend path edit rest p.1 p.2
      dir.store f) := by
  unfold amend
  rw [change]
  simp only [bind_assoc, pure_bind]

end Directory

/-! ## Trees that stay -/

namespace Disk

variable {k k' : Disk} {t : Node}

namespace Carries

/-- **A tree stays on the disk** while its files keep their bytes and its directories their
tables. -/
theorem of_files (h : k.Carries t)
    (hfiles : ∀ f, .inl f ∈ t.nodes → k.HasFile f.place f.content → k'.HasFile f.place f.content)
    (hdirs : ∀ p, .inr p ∈ t.nodes → ∀ (table : Directory) (content : Bytes),
      k.HasFile p content → table.IsIn content → ∃ content', k'.HasFile p content' ∧
        table.IsIn content') : k'.Carries t := by
  induction h with
  | @file f hfile => exact .file (hfiles f (by rw [Tree.nodes_file]; exact .head _) hfile)
  | @directory p slots table content hfile hin hshows _ ih =>
    rw [Tree.nodes_directory] at hfiles hdirs
    obtain ⟨content', hfile', hin'⟩ := hdirs p List.mem_cons_self table content hfile hin
    refine .directory table hfile' hin' hshows fun e t ht => ih e t ht
      (fun f hf => hfiles f (List.mem_cons_of_mem _ (Slots.nodes_subset ht hf)))
      fun p hp => hdirs p (List.mem_cons_of_mem _ (Slots.nodes_subset ht hp))

/-- Every file and directory of the tree is a file on the disk. -/
theorem hasFile (h : k.Carries t) {x : Stored ⊕ Place} (hx : x ∈ t.nodes) :
    ∃ content, k.HasFile (placeOf x) content := by
  induction h with
  | @file f hfile =>
    rw [Tree.nodes_file] at hx
    cases List.mem_singleton.mp hx
    exact ⟨_, hfile⟩
  | @directory p slots table content hfile _ _ _ ih =>
    rw [Tree.nodes_directory] at hx
    rcases List.mem_cons.mp hx with rfl | hx
    · exact ⟨_, hfile⟩
    · obtain ⟨⟨e, t⟩, ht, hx⟩ := List.mem_flatMap.mp hx
      exact ih e t (Slots.mem_children.mp ht) hx

end Carries

end Disk

/-! ## Trees apart from each other -/

theorem Tree.root_mem (p : Place) (slots : NodeSlots) :
    .inr p ∈ (Tree.directory p slots : Node).nodes := by
  rw [Tree.nodes_directory]
  exact List.mem_cons_self

theorem Slots.nodes_below (p : Place) {slots : NodeSlots} {e : Entry} {t : Node}
    (h : some (e, t) ∈ slots) : t.nodes ⊆ (Tree.directory p slots : Node).nodes := fun x hx => by
  rw [Tree.nodes_directory]
  exact List.mem_cons_of_mem _ (Slots.nodes_subset h hx)

/-- What is in one slot has no sector with the rest in common. -/
theorem Slots.apart {p : Place} {slots : NodeSlots} {i : Nat} {e : Entry} {t : Node}
    (hi : slots[i]? = some (some (e, t))) (hnodup : (Tree.directory p slots : Node).sectors.Nodup)
    {x : Stored ⊕ Place} (hx : x ∈ (Tree.directory p slots : Node).nodes) :
    x ∈ t.nodes ∨ ∀ s ∈ (placeOf x).sectors, s ∉ t.sectors := by
  rw [Tree.sectors_directory] at hnodup
  obtain ⟨-, hslots, hroot⟩ := List.nodup_append.mp hnodup
  have hperm := Slots.sectors_perm hi
  obtain ⟨-, -, hdisjoint⟩ := List.nodup_append.mp (hperm.nodup_iff.mp hslots)
  rw [Tree.nodes_directory] at hx
  rcases List.mem_cons.mp hx with rfl | hx
  · exact .inr fun s hs hmem => hroot s hs s (hperm.mem_iff.mpr (List.mem_append_left _ hmem)) rfl
  · rcases List.mem_append.mp ((Slots.nodes_perm hi).mem_iff.mp hx) with hx | hx
    · exact .inl hx
    · exact .inr fun s hs hmem => hdisjoint s hmem s (mem_sectorsOf.mpr ⟨x, hx, hs⟩) rfl

/-- What is below a directory has no sector with its own file in common. -/
theorem Slots.apart_root {p : Place} {slots : NodeSlots}
    (hnodup : (Tree.directory p slots : Node).sectors.Nodup) {x : Stored ⊕ Place}
    (hx : x ∈ (Tree.directory p slots : Node).nodes) :
    x = .inr p ∨ ∀ s ∈ (placeOf x).sectors, s ∉ p.sectors := by
  rw [Tree.sectors_directory] at hnodup
  obtain ⟨-, -, hroot⟩ := List.nodup_append.mp hnodup
  rw [Tree.nodes_directory] at hx
  rcases List.mem_cons.mp hx with rfl | hx
  · exact .inl rfl
  · exact .inr fun s hs hmem => hroot s hmem s (mem_sectorsOf.mpr ⟨x, hx, hs⟩) rfl

theorem Tree.chain_subset (p : Place) (slots : NodeSlots) :
    ∀ s ∈ p.chain, s ∈ (Tree.directory p slots : Node).sectors := fun s hs => by
  rw [Tree.sectors_directory]
  exact List.mem_append_left _ (List.mem_cons_of_mem _ hs)

theorem Tree.sector_notMem {p : Place} {slots : NodeSlots}
    (hnodup : (Tree.directory p slots : Node).sectors.Nodup) : p.sector ∉ p.chain := by
  rw [Tree.sectors_directory] at hnodup
  exact (List.nodup_cons.mp (List.nodup_append.mp hnodup).1).1

/-- The sectors of a tree in a slot are sectors of the directory, but not of its own file, and none
of them is there twice. -/
theorem Slots.sectors_below {p : Place} {slots : NodeSlots} {i : Nat} {e : Entry} {t : Node}
    (hi : slots[i]? = some (some (e, t))) (hnodup : (Tree.directory p slots : Node).sectors.Nodup) :
    (∀ s ∈ t.sectors, s ∈ (Tree.directory p slots : Node).sectors) ∧ t.sectors.Nodup ∧
      ∀ s ∈ p.sectors, s ∉ t.sectors := by
  rw [Tree.sectors_directory] at hnodup ⊢
  obtain ⟨-, hslots, hroot⟩ := List.nodup_append.mp hnodup
  have hin : ∀ s ∈ t.sectors, s ∈ Slots.sectors slots := fun s hs =>
    Slots.mem_sectors.mpr ⟨e, t, List.mem_of_getElem? hi, hs⟩
  exact ⟨fun s hs => List.mem_append_right _ (hin s hs),
    (List.nodup_append.mp ((Slots.sectors_perm hi).nodup_iff.mp hslots)).1,
    fun s hs hmem => hroot s hs s (hin s hmem) rfl⟩

/-! ## One file of a tree -/

namespace Disk

variable {F : Faults} {k k' k'' : Disk} {p q : Place} {slots : NodeSlots} {content new : Bytes}

/-- Of the files of a tree the one at `q` gets new bytes, and the others keep theirs. -/
def Swaps (k k' : Disk) (t : Node) (q : Place) (new : Bytes) : Prop :=
  ∀ x ∈ t.nodes, ∀ content, k.HasFile (placeOf x) content →
    k'.HasFile (placeOf x) (if placeOf x = q then new else content)

/-- Nothing has changed. -/
theorem Swaps.refl {t : Node} (h : k.HasFile q content) : k.Swaps k t q content := by
  intro x _ c hx
  split
  · rename_i heq
    rwa [h.content_unique (heq ▸ hx)]
  · exact hx

theorem Swaps.mono {t t' : Node} (h : k.Swaps k' t q new) (hsub : t'.nodes ⊆ t.nodes) :
    k.Swaps k' t' q new := fun x hx => h x (hsub hx)

/-- A tree that the file is not part of stays. -/
theorem Swaps.carries {t : Node} (h : k.Swaps k' t q new) (ht : k.Carries t)
    (hne : ∀ x ∈ t.nodes, placeOf x ≠ q) : k'.Carries t := by
  have hsame : ∀ x ∈ t.nodes, ∀ content, k.HasFile (placeOf x) content →
      k'.HasFile (placeOf x) content := fun x hx content hfile => by
    have := h x hx content hfile
    rwa [if_neg (hne x hx)] at this
  exact ht.of_files (fun f hf => hsame (.inl f) hf _)
    fun d hd table content hfile hin => ⟨content, hsame (.inr d) hd _ hfile, hin⟩

/-- The file of a directory is written over itself, after one below it got new bytes. -/
theorem Swaps.inside {i : Nat} {e : Entry} {t : Node} (h : k.Swaps k' t q new)
    (hkeep : k.Keeps k' (· ∉ t.sectors)) (hq : .inr q ∈ t.nodes)
    (hi : slots[i]? = some (some (e, t))) (hnodup : (Tree.directory p slots : Node).sectors.Nodup) :
    k.Swaps k' (.directory p slots) q new := by
  intro x hx c hfile
  rcases Slots.apart hi hnodup hx with hx | hx
  · exact h x hx c hfile
  · have hne : placeOf x ≠ q := fun heq =>
      hx q.sector (heq ▸ List.mem_cons_self) (mem_sectorsOf.mpr ⟨.inr q, hq, List.mem_cons_self⟩)
    rw [if_neg hne]
    exact hfile.keeps hkeep hx

/-- A file that is written over itself is swapped for nothing. -/
theorem Swaps.rewrite (h : k.Swaps k' (.directory p slots) q new)
    (hkeep : k'.Keeps k'' (· ∉ p.chain)) (hold : k.HasFile p content)
    (hfile : k''.HasFile p content) (hne : p ≠ q)
    (hnodup : (Tree.directory p slots : Node).sectors.Nodup) :
    k.Swaps k'' (.directory p slots) q new := by
  intro x hx c hc
  rcases Slots.apart_root hnodup hx with rfl | hout
  · have hc' : k.HasFile p c := hc
    rw [hold.content_unique hc'] at hfile
    show k''.HasFile p (if p = q then new else c)
    rwa [if_neg hne]
  · exact (h x hx c hc).keeps hkeep fun s hs hmem => hout s hs (List.mem_cons_of_mem _ hmem)

/-- One file of a tree gets new bytes. -/
theorem Swaps.of_file (hkeep : k.Keeps k' (· ∉ p.chain)) (hfile : k'.HasFile p new)
    (hnodup : (Tree.directory p slots : Node).sectors.Nodup) :
    k.Swaps k' (.directory p slots) p new := by
  intro x hx c hc
  rcases Slots.apart_root hnodup hx with rfl | hout
  · show k'.HasFile p (if p = p then new else c)
    rwa [if_pos rfl]
  · have hne : placeOf x ≠ p := fun heq =>
      hout p.sector (heq ▸ List.mem_cons_self) List.mem_cons_self
    rw [if_neg hne]
    exact hc.keeps hkeep fun s hs hmem => hout s hs (List.mem_cons_of_mem _ hmem)

/-! ## Changes along a route -/

variable {path : String} {editM : Directory → String → DriveM Directory} {r : Route}
  {dir table table' : Directory} {f : Handle} {old : Bytes} {s : NodeSlots}

/-- **A change gives one table its new bytes**, or fails with the file of that table torn. No other
file of the tree changes, and nothing outside of it. -/
theorem amend_survives (hk : 0 < k.dataSize) (hf : f.header = p.header)
    (hfile : k.HasFile p content) (hin : dir.IsIn content) (hshows : dir.Shows slots)
    (hall : k.CarriesAll slots) (hnodup : (Tree.directory p slots : Node).sectors.Nodup)
    (hparent : Slots.parent Entry.name r p slots = some (q, s)) (hq : k.HasFile q old)
    (htable : table.IsIn old) (hcandid : Candid (editM table (Slots.lastName r)))
    (hedit : Yields (editM table (Slots.lastName r)) k (.ok table') k) :
    Survives F (Directory.amend path editM r f dir) k
      (fun _ k' => k.Keeps k' (· ∉ (Tree.directory p slots : Node).sectors) ∧
        k.Swaps k' (.directory p slots) q (old.torn table'.encode old.length))
      (fun e k' => F.Injects e ∧ k.Keeps k' (· ∉ (Tree.directory p slots : Node).sectors) ∧
        ∃ n, k.Swaps k' (.directory p slots) q (old.torn table'.encode n)) := by
  have hnone : ∀ {p slots} e, F.Injects e → F.Injects e ∧
      k.Keeps k (· ∉ (Tree.directory p slots : Node).sectors) ∧
      ∃ n, k.Swaps k (.directory p slots) q (old.torn table'.encode n) := fun e he =>
    ⟨he, Keeps.refl k _, 0, by rw [Bytes.torn_zero]; exact Swaps.refl hq⟩
  induction r generalizing f p slots dir content with
  | invalid rest => cases hparent
  | last n =>
    cases hparent
    cases hfile.content_unique hq
    cases hin.unique htable
    rw [Directory.amend_last]
    refine Survives.read hcandid hedit hnone
      ((hfile.overwrite_survives hk hf (Tree.sector_notMem hnodup) _).mono ?_ ?_)
    · rintro - k' ⟨hkeep, hnew⟩
      rw [← Bytes.torn_length] at hnew
      exact ⟨hkeep.mono fun s hs hmem => hs (Tree.chain_subset _ _ s hmem),
        Swaps.of_file hkeep hnew hnodup⟩
    · rintro e k' ⟨he, hkeep, m, hnew⟩
      exact ⟨he, hkeep.mono fun s hs hmem => hs (Tree.chain_subset _ _ s hmem), m,
        Swaps.of_file hkeep hnew hnodup⟩
  | step n rest ih =>
    obtain ⟨i, e, p₁, below, hfind, hrest⟩ := Slots.parent_step hparent
    obtain ⟨hi, -⟩ := Slots.find?_eq_some hfind
    have ht := List.mem_of_getElem? hi
    obtain ⟨hkind, hsector⟩ := hshows.leads e _ ht
    have hmem := Slots.parent_mem hrest
    obtain ⟨hsub, hbelow, hapart⟩ := Slots.sectors_below hi hnodup
    -- the table that the route starts from is in another file than the changed one
    have hne : p ≠ q := by
      rintro rfl
      exact hapart p.sector List.mem_cons_self
        (mem_sectorsOf.mpr ⟨.inr p, hmem, List.mem_cons_self⟩)
    rw [Directory.amend_step]
    cases hall e _ ht with
    | directory dir₁ hfile₁ hin₁ hshows₁ hall₁ =>
      refine Survives.read (dir.search_candid path n) (search_yields hshows hfind) hnone ?_
      refine Survives.read (Directory.enter_candid e path)
        (enter_yields hkind hsector hk hfile₁ hin₁ path) hnone ?_
      refine Survives.bind ((ih rfl hfile₁ hin₁ hshows₁ hall₁ hbelow hrest hcandid hedit).mono
        (fun _ _ => id) ?_) ?_
      · rintro x k₁ ⟨hx, hkeep, m, hswap⟩
        exact ⟨hx, hkeep.mono fun s hs hmem => hs (hsub s hmem), m,
          hswap.inside hkeep hmem hi hnodup⟩
      · rintro - k₁ ⟨hkeep, hswap⟩
        have hswap₁ := hswap.inside hkeep hmem hi hnodup
        have hkeep₁ : k.Keeps k₁ (· ∉ (Tree.directory p slots : Node).sectors) :=
          hkeep.mono fun s hs hmem => hs (hsub s hmem)
        have hfile₂ : k₁.HasFile p content := hfile.keeps hkeep hapart
        refine (hfile₂.overwrite_survives (hkeep.dataSize ▸ hk) hf
          (Tree.sector_notMem hnodup) dir.encode).mono ?_ ?_
        · rintro - k₂ ⟨hkeep₂, hnew⟩
          rw [← Bytes.torn_length, hin.rewrite] at hnew
          exact ⟨hkeep₁.trans (hkeep₂.mono fun s hs hmem => hs (Tree.chain_subset _ _ s hmem)),
            hswap₁.rewrite hkeep₂ hfile hnew hne hnodup⟩
        · rintro x k₂ ⟨hx, hkeep₂, m, hnew⟩
          have hsame := hin.rewrite m
          unfold Bytes.torn at hsame
          rw [hsame] at hnew
          exact ⟨hx, hkeep₁.trans (hkeep₂.mono fun s hs hmem =>
            hs (Tree.chain_subset _ _ s hmem)), _, hswap₁.rewrite hkeep₂ hfile hnew hne hnodup⟩

/-- The table of the parent, on the disk. -/
theorem Carries.parent_table (h : k.Carries (.directory p slots))
    (hparent : Slots.parent Entry.name r p slots = some (q, s)) :
    ∃ (content : Bytes) (table : Directory), k.HasFile q content ∧ table.IsIn content ∧
      table.Shows s := by
  induction r generalizing p slots with
  | invalid rest => cases hparent
  | last n =>
    cases hparent
    cases h with
    | directory table hfile hin hshows _ => exact ⟨_, table, hfile, hin, hshows⟩
  | step n rest ih =>
    obtain ⟨i, e, p₁, below, hfind, hrest⟩ := Slots.parent_step hparent
    cases h with
    | directory table _ _ _ hall =>
      exact ih (hall e _ (List.mem_of_getElem? (Slots.find?_eq_some hfind).1)) hrest

/-- **The tree after a change** that only takes trees from the changed table, when that table is in
the new bytes of its file. -/
theorem Carries.amended {edit : NodeSlots → String → Except VolumeError NodeSlots}
    {s' slots' : NodeSlots} (h : k.Carries (.directory p slots))
    (hswap : k.Swaps k' (.directory p slots) q new)
    (hnodup : (Tree.directory p slots : Node).sectors.Nodup)
    (hparent : Slots.parent Entry.name r p slots = some (q, s))
    (hedit : edit s (Slots.lastName r) = .ok s') (hin : table'.IsIn new) (hshows : table'.Shows s')
    (hsub : ∀ e t, some (e, t) ∈ s' → some (e, t) ∈ s)
    (hchange : Slots.change Entry.name path edit r slots = .ok slots') :
    k'.Carries (.directory p slots') := by
  induction r generalizing p slots slots' with
  | invalid rest => cases hparent
  | last n =>
    cases hparent
    cases hedit.symm.trans hchange
    cases h with
    | directory dir hfile _ _ hall =>
      have hnew : k'.HasFile q (if q = q then new else _) := hswap _ (Tree.root_mem _ _) _ hfile
      rw [if_pos rfl] at hnew
      refine .directory table' hnew hin hshows fun e t ht => ?_
      have ht := hsub e t ht
      obtain ⟨i, hi⟩ := List.mem_iff_getElem?.mp ht
      obtain ⟨-, -, hapart⟩ := Slots.sectors_below hi hnodup
      exact (hswap.mono (Slots.nodes_below _ ht)).carries (hall e t ht) fun x hx heq =>
        hapart _ List.mem_cons_self (mem_sectorsOf.mpr ⟨x, hx, heq ▸ List.mem_cons_self⟩)
  | step n rest ih =>
    obtain ⟨i, e, p₁, below, hfind, hrest⟩ := Slots.parent_step hparent
    obtain ⟨hi, -⟩ := Slots.find?_eq_some hfind
    have ht := List.mem_of_getElem? hi
    obtain ⟨-, hbelow, hapart⟩ := Slots.sectors_below hi hnodup
    have hqmem : q.sector ∈ (Tree.directory p₁ below : Node).sectors :=
      mem_sectorsOf.mpr ⟨.inr q, Slots.parent_mem hrest, List.mem_cons_self⟩
    unfold Slots.change at hchange
    rw [hfind] at hchange
    dsimp only at hchange
    cases hinner : Slots.change Entry.name path edit rest below with
    | error x =>
      rw [hinner] at hchange
      cases hchange
    | ok below' =>
      rw [hinner] at hchange
      cases hchange
      cases h with
      | directory dir hfile hdir hshows₀ hall =>
        have hne : p ≠ q := fun heq => hapart p.sector List.mem_cons_self (heq ▸ hqmem)
        have hsame : k'.HasFile p (if p = q then new else _) :=
          hswap _ (Tree.root_mem _ _) _ hfile
        rw [if_neg hne] at hsame
        refine .directory dir hsame hdir (hshows₀.setTree hi rfl rfl) fun e' t' ht' => ?_
        rcases Slots.mem_set ht' with ht' | ht'
        · have hold := Slots.mem_of_mem_set_none ht'
          refine (hswap.mono (Slots.nodes_below p hold)).carries (hall e' t' hold)
            fun x hx heq => ?_
          rw [Tree.sectors_directory] at hnodup
          exact (List.nodup_append.mp ((Slots.sectors_perm hi).nodup_iff.mp
            (List.nodup_append.mp hnodup).2.1)).2.2 _ hqmem _ (Slots.mem_sectors.mpr
              ⟨e', t', ht', mem_sectorsOf.mpr ⟨x, hx, heq ▸ List.mem_cons_self⟩⟩) rfl
        · cases ht'
          exact ih (hall e _ ht) (hswap.mono (Slots.nodes_below p ht)) hbelow hrest hedit hinner

end Disk

end SectorChain
