import SectorChain.Proofs.Listings
import SectorChain.Proofs.Outcomes
import SectorChain.Proofs.Reports

/-!
# Listings agree with lookups

A directory is listed by one recursion over the tables on the disk, and a path is looked up by
another. A path that is looked up stops at the first entry of a name, and its names have no slashes
and nine bytes at most. So the two agree only where names are distinct, as they are when nothing is
made with a NUL in its path, and where every name in a table can stand in a path. Both hold after a
format, and every call keeps them.

Results:
* `Effect.labelled`: calls keep the names and the kinds in tables right.
* `lines_eq`: then the lines of a listing are those of the items.
* `mem_preorder_iff`: the items are just what is found.
* `reached_listing_agrees`: in every state of a run, the paths read off the listing of the whole
  tree are just those that are found, and each directory is listed by its block.
-/

namespace SectorChain

open Listing

/-! ## Names and kinds in tables -/

namespace Slots

/-- **The labels are right**, here and in the directories below: each has a name that can stand in
a path, and the kind of what it leads to. -/
inductive Labelled : Slots Stored Place Entry → Prop
  | intro {slots : NodeSlots} (kind : ∀ e t, some (e, t) ∈ slots → e.kind = t.kind)
      (name : ∀ e t, some (e, t) ∈ slots → Path.IsPiece e.name)
      (inner : ∀ e t, some (e, t) ∈ slots → Labelled t.slots) : Labelled slots

namespace Labelled

variable {slots : NodeSlots} {e : Entry} {t : Node} {i : Nat}

theorem kind (h : Labelled slots) (ht : some (e, t) ∈ slots) : e.kind = t.kind := by
  cases h with
  | intro kind => exact kind e t ht

theorem name (h : Labelled slots) (ht : some (e, t) ∈ slots) : Path.IsPiece e.name := by
  cases h with
  | intro _ name => exact name e t ht

theorem inner (h : Labelled slots) (ht : some (e, t) ∈ slots) : Labelled t.slots := by
  cases h with
  | intro _ _ inner => exact inner e t ht

theorem replicate_none (count : Nat) : Labelled (List.replicate count none) := by
  have hnone : ∀ e t, some (e, t) ∉ (List.replicate count none : NodeSlots) := by
    intro e t ht
    cases List.eq_of_mem_replicate ht
  exact .intro (fun e t ht => absurd ht (hnone e t)) (fun e t ht => absurd ht (hnone e t))
    (fun e t ht => absurd ht (hnone e t))

theorem unset (h : Labelled slots) (i : Nat) : Labelled (slots.set i none) :=
  .intro (fun _ _ ht => h.kind (mem_of_mem_set_none ht))
    (fun _ _ ht => h.name (mem_of_mem_set_none ht))
    (fun _ _ ht => h.inner (mem_of_mem_set_none ht))

theorem set (h : Labelled slots) (hkind : e.kind = t.kind) (hname : Path.IsPiece e.name)
    (hinner : Labelled t.slots) : Labelled (slots.set i (some (e, t))) := by
  have hcases : ∀ {e' t'}, some (e', t') ∈ slots.set i (some (e, t)) →
      some (e', t') ∈ slots ∨ e = e' ∧ t = t' := by
    intro e' t' ht
    rcases mem_set ht with ht | ht
    · exact .inl (mem_of_mem_set_none ht)
    · cases ht
      exact .inr ⟨rfl, rfl⟩
  refine .intro ?_ ?_ ?_ <;> intro e' t' ht <;> rcases hcases ht with ht | ⟨rfl, rfl⟩
  · exact h.kind ht
  · exact hkind
  · exact h.name ht
  · exact hname
  · exact h.inner ht
  · exact hinner

end Labelled

/-- When the labels stay right in the table that is changed, they do so in the whole tree. -/
theorem Spliced.labelled {s s' slots slots' : NodeSlots} (h : Spliced s s' slots slots')
    (hs : Labelled s → Labelled s') (hl : Labelled slots) : Labelled slots' := by
  induction h with
  | here => exact hs hl
  | @inside slots inner inner' i e p hi _ ih =>
    have hmem := List.mem_of_getElem? hi
    have hkind : e.kind = .directory := hl.kind hmem
    exact hl.set hkind (hl.name hmem) (ih (hl.inner hmem))

/-- New bytes in files change no labels. -/
theorem Labelled.replace {slots : NodeSlots} (f : Stored → Stored) (h : Labelled slots) :
    Labelled (map f id id slots) := by
  induction h with
  | intro kind name _ ih =>
    refine .intro ?_ ?_ ?_ <;> intro e t ht <;> obtain ⟨e', t', ht', rfl, rfl⟩ := mem_map ht
    · rw [Tree.kind_map]
      exact kind e' t' ht'
    · exact name e' t' ht'
    · rw [Tree.slots_map]
      exact ih e' t' ht'

end Slots

theorem Node.labelled_blank (kind : Kind) (p : Place) (size : Nat) :
    Slots.Labelled (Tree.slots (Node.blank kind p size)) := by
  cases kind with
  | file => exact .replicate_none 0
  | directory => exact .replicate_none _

/-- **Calls keep the labels right** when nothing is made with a NUL in its path. -/
theorem Effect.labelled {v v' : Volume} {inv inv' : Inventory} {q : Request}
    {r : Except VolumeError Answer} (h : Effect v inv q r v' inv') (hq : q.Plain)
    (hl : Slots.Labelled inv.slots) : Slots.Labelled inv'.slots := by
  cases h with
  | failed | looked | opened | closed | sought | read | mounted => exact hl
  | @made _ path kind size p slots content hmakes _ hslots =>
    have hfault := Slots.fault?_of_change hslots
    obtain ⟨s, s', hs, hedit, -⟩ := Slots.change_spliced hslots
    refine hs.labelled (fun hl => ?_) hl
    obtain ⟨-, i, -, -, rfl⟩ := Slots.insert_eq_ok hedit
    refine hl.set rfl ?_ (Node.labelled_blank kind p size)
    -- the name that is read is the one that was looked for
    rw [Route.name_ofFile_lastName hfault (hq _ _ _ hmakes)]
    exact Route.isPiece_lastName hfault
  | removed _ _ hslots =>
    obtain ⟨s, s', hs, hedit, -⟩ := Slots.change_spliced hslots
    refine hs.labelled (fun hl => ?_) hl
    obtain ⟨i, -, -, -, rfl⟩ := Slots.erase_eq_ok hedit
    exact hl.unset i
  | written => exact hl.replace _

/-! ## Listings of tables -/

theorem Tree.lines_eq (t : Node) (level : Nat) : t.lines level = Slots.lines t.slots level := by
  cases t with
  | file s => rfl
  | directory p slots => exact Tree.lines_directory p slots level

namespace Slots.Labelled

variable {slots : NodeSlots} {path : String} {kind : Kind}

/-- **The lines are those of the items**, in the order of a walk. -/
theorem lines_eq (h : Labelled slots) (parents : List String) :
    lines slots parents.length = (preorder Entry.name slots parents).map Item.line := by
  induction slots using Slots.induction generalizing parents with
  | h slots ih =>
    unfold lines preorder
    rw [List.map_flatMap]
    refine List.flatMap_congr fun p hp => ?_
    have ht : some (p.1, p.2) ∈ slots := mem_children.mp hp
    have hbelow := ih p.1 p.2 ht (h.inner ht) (parents ++ [p.1.name])
    rw [List.length_append, List.length_singleton] at hbelow
    rw [Tree.preorder_eq, List.map_cons, Tree.lines_eq, hbelow]
    unfold Directory.treeLine Item.line
    rw [h.kind ht]

theorem isPiece_of_mem (h : Labelled slots) {parents : List String} {x : Item}
    (hx : x ∈ preorder Entry.name slots parents) (hparents : ∀ n ∈ parents, Path.IsPiece n) :
    ∀ n ∈ x.names, Path.IsPiece n := by
  induction slots using Slots.induction generalizing parents with
  | h slots ih =>
    obtain ⟨e, t, ht, hx⟩ := mem_preorder.mp hx
    have hnames : ∀ n ∈ parents ++ [e.name], Path.IsPiece n := by
      intro n hn
      rcases List.mem_append.mp hn with hn | hn
      · exact hparents n hn
      · rw [List.mem_singleton.mp hn]
        exact h.name ht
    rcases hx with rfl | hx
    · exact hnames
    · exact ih e t ht (h.inner ht) hx hnames

theorem isPiece (h : Labelled slots) {x : Item} (hx : x ∈ preorder Entry.name slots []) :
    ∀ n ∈ x.names, Path.IsPiece n :=
  h.isPiece_of_mem hx fun _ hn => absurd hn List.not_mem_nil

/-- **The items are just what is found.** -/
theorem mem_preorder_iff (h : Labelled slots) (hd : Distinct Entry.name slots) :
    (∃ x ∈ preorder Entry.name slots [], x.path = path ∧ x.kind = kind) ↔
      ∃ e t, follow Entry.name path (.ofPath path) slots = .ok (e, t) ∧ t.kind = kind := by
  constructor
  · rintro ⟨x, hx, rfl, rfl⟩
    obtain ⟨l, e, t, hparents, hkind, hfollow⟩ := follow_of_mem hd hx x.path
    refine ⟨e, t, ?_, hkind⟩
    rw [Route.ofPath_path (h.isPiece hx), hparents]
    exact hfollow
  · rintro ⟨e, t, hfollow, rfl⟩
    refine ⟨_, mem_of_follow hfollow, ?_, rfl⟩
    rw [Route.path_item (fault?_of_follow hfollow), Route.text_ofPath]

/-- The labels are right in a directory that is found. -/
theorem of_follow (h : Labelled slots) {r : Route} {e : Entry} {t : Node}
    (hfollow : follow Entry.name path r slots = .ok (e, t)) : Labelled t.slots := by
  obtain ⟨s, hs, ht, -⟩ := follow_induction (P := Labelled) (fun hs ht => hs.inner ht) h hfollow
  exact hs.inner ht

/-- The paths of the items are read off their lines. -/
theorem paths_lines (slots : NodeSlots) :
    paths ((preorder Entry.name slots []).map Item.line) =
      (preorder Entry.name slots []).map fun x => (x.path, x.kind.tag) := by
  unfold paths
  rw [read_lines (nested_preorder slots []), List.map_map]
  rfl

/-- **No two items have one path.** -/
theorem nodup_paths (h : Labelled slots) (hd : Distinct Entry.name slots) :
    ((preorder Entry.name slots []).map Item.path).Nodup := by
  have hnames := nodup_preorder hd []
  refine List.Nodup.map_on (fun x hx y hy heq => ?_) (List.Nodup.of_map _ hnames)
  exact List.inj_on_of_nodup_map hnames hx hy (Route.path_inj (h.isPiece hx) (h.isPiece hy) heq)

end Slots.Labelled

/-! ## Every state of a run -/

namespace Usage

variable {blank : Drive} {u : Usage} {inv : Inventory}

/-- **The labels are right in every state of a run**, and names are distinct, when nothing was made
with a NUL in its path. -/
theorem Onward.labelled {u₀ : Usage} {inv₀ : Inventory} (h : Onward Request.Plain u₀ u)
    (h₀ : u₀.Sound inv₀) (hd : Slots.Distinct Entry.name inv₀.slots)
    (hl : Slots.Labelled inv₀.slots) :
    ∃ inv, u.Sound inv ∧ Slots.Distinct Entry.name inv.slots ∧ Slots.Labelled inv.slots := by
  induction h with
  | start => exact ⟨inv₀, h₀, hd, hl⟩
  | call q _ hq hplain ih =>
    obtain ⟨inv, hu, hdistinct, hlabelled⟩ := ih
    obtain ⟨inv', heffect, hu', -⟩ := hu.call hq
    exact ⟨inv', hu', heffect.distinct hplain hdistinct, heffect.labelled hplain hlabelled⟩

/-- **The listing of the whole tree and the lookups** say the same. -/
structure Listed (u : Usage) (inv : Inventory) (lines : List String) : Prop where
  listing : u.ask (u.volume.list "/" true) = .ok lines
  /-- The lines stand in the order of a walk through the tree, slot by slot. -/
  preorder : lines = (Slots.preorder Entry.name inv.slots []).map Item.line
  /-- No two lines have one path. -/
  nodup : ((paths lines).map Prod.fst).Nodup
  /-- The lines have just the paths that lead to an entry, and its tag. -/
  found : ∀ path tag, (path, tag) ∈ paths lines ↔
    path ≠ "/" ∧ ∃ e, u.ask (u.volume.findEntry path) = .ok e ∧ e.kind.tag = tag
  names : u.ask (u.volume.list "/" false) = .ok (outermost lines)
  /-- A directory is listed by the block below its line. -/
  blocks : ∀ path e, u.ask (u.volume.findEntry path) = .ok e → e.kind = .directory →
    ∃ front own rest, lines = front ++ own :: rest ∧
      (paths lines)[front.length]? = some (path, Kind.directory.tag) ∧
      u.ask (u.volume.list path true) = .ok (block own rest) ∧
      u.ask (u.volume.list path false) = .ok (outermost (block own rest))

namespace Sound

/-- What is at a path is an entry and what it leads to. -/
theorem find_of_ask (h : u.Sound inv) {path : String} {e : Entry}
    (he : u.ask (u.volume.findEntry path) = .ok e) :
    ∃ t, inv.find path = .ok (e, t) ∧ e.kind = t.kind := by
  rw [ask_eq h.fault_free (h.consistent.findEntry_yields path)] at he
  cases hfind : inv.find path with
  | error x =>
    rw [hfind] at he
    cases he
  | ok p =>
    obtain ⟨e', t⟩ := p
    rw [hfind] at he
    cases he
    exact ⟨t, rfl, (h.consistent.found hfind).2.1⟩

/-- A directory is listed by its items, or by their names. -/
theorem ask_list (h : u.Sound inv) {path : String} {slots : NodeSlots}
    (hslots : inv.slotsAt path = .ok slots) (hl : Slots.Labelled slots) :
    u.ask (u.volume.list path true) = .ok ((Slots.preorder Entry.name slots []).map Item.line) ∧
      u.ask (u.volume.list path false) =
        .ok (outermost ((Slots.preorder Entry.name slots []).map Item.line)) := by
  have hlist := fun recursive => ask_eq h.fault_free (h.consistent.listAt_yields path recursive)
  rw [hslots] at hlist
  refine ⟨(hlist true).trans ?_, (hlist false).trans ?_⟩
  · exact congrArg Except.ok (hl.lines_eq [])
  · rw [Slots.outermost_lines]
    rfl

/-- What is read off the listing is found, and what is found is read off it. -/
theorem find_iff (h : u.Sound inv) (hd : Slots.Distinct Entry.name inv.slots)
    (hl : Slots.Labelled inv.slots) (path tag : String) :
    (path, tag) ∈ paths ((Slots.preorder Entry.name inv.slots []).map Item.line) ↔
      path ≠ "/" ∧ ∃ e, u.ask (u.volume.findEntry path) = .ok e ∧ e.kind.tag = tag := by
  rw [Slots.Labelled.paths_lines, List.mem_map]
  constructor
  · rintro ⟨x, hx, heq⟩
    obtain ⟨rfl, rfl⟩ := Prod.mk.inj heq
    obtain ⟨e, t, hfind, hkind⟩ := (hl.mem_preorder_iff hd).mp ⟨x, hx, rfl, rfl⟩
    have hentry := h.consistent.findEntry_yields x.path
    have hleads := (h.consistent.found hfind).2.1
    unfold Inventory.find at hentry
    rw [hfind] at hentry
    refine ⟨Route.ne_root_of_fault? (Slots.fault?_of_follow hfind), e,
      ask_eq h.fault_free hentry, ?_⟩
    rw [hleads, hkind]
  · rintro ⟨-, e, he, rfl⟩
    obtain ⟨t, hfind, hkind⟩ := h.find_of_ask he
    obtain ⟨x, hx, hpath, hx'⟩ := (hl.mem_preorder_iff hd).mpr ⟨e, t, hfind, rfl⟩
    exact ⟨x, hx, Prod.ext hpath (by rw [hx', hkind])⟩

/-- **What is below a directory** stands behind its line, and is listed when it is asked for. -/
theorem blocks (h : u.Sound inv) (hl : Slots.Labelled inv.slots) {path : String} {e : Entry}
    (he : u.ask (u.volume.findEntry path) = .ok e) (hdir : e.kind = .directory) :
    let items := Slots.preorder Entry.name inv.slots []
    ∃ front own rest, items.map Item.line = front ++ own :: rest ∧
      (paths (items.map Item.line))[front.length]? = some (path, Kind.directory.tag) ∧
      u.ask (u.volume.list path true) = .ok (block own rest) ∧
      u.ask (u.volume.list path false) = .ok (outermost (block own rest)) := by
  intro items
  obtain ⟨t, hfind, hkind⟩ := h.find_of_ask he
  rw [hdir] at hkind
  cases t with
  | file s => cases hkind
  | directory p inner =>
    have hfault := Slots.fault?_of_follow hfind
    have hslots : inv.slotsAt path = .ok inner := by
      unfold Inventory.slotsAt
      rw [if_neg (Route.ne_root_of_fault? hfault), hfind]
    let own : Item := ⟨(Route.ofPath path).parents, Slots.lastName (.ofPath path), .directory⟩
    obtain ⟨front, rest, heq, hrest⟩ := Slots.follow_split hfind []
    rw [Tree.preorder_eq, List.cons_append] at heq
    have hitems : items = front ++ own :: (Slots.preorder Entry.name inner own.names ++ rest) := heq
    have hpath : own.path = path :=
      (Route.path_item hfault .directory).trans (Route.text_ofPath path)
    have hlist := h.ask_list hslots (hl.of_follow hfind)
    rw [← Slots.block_lines own inner hrest] at hlist
    refine ⟨front.map Item.line, _, _, ?_, ?_, hlist⟩
    · rw [hitems, List.map_append, List.map_cons]
    · have hlength : (front.map Item.line).length = front.length := List.length_map _
      rw [Slots.Labelled.paths_lines, hlength, List.getElem?_map]
      show Option.map _ items[front.length]? = _
      rw [hitems, List.getElem?_append_right (Nat.le_refl _), Nat.sub_self]
      exact congrArg (fun p => some (p, Kind.directory.tag)) hpath

/-- **Listings agree with lookups** where names are distinct and labels are right. -/
theorem listed (h : u.Sound inv) (hd : Slots.Distinct Entry.name inv.slots)
    (hl : Slots.Labelled inv.slots) :
    u.Listed inv ((Slots.preorder Entry.name inv.slots []).map Item.line) where
  listing := (h.ask_list (if_pos rfl) hl).1
  preorder := rfl
  nodup := by
    rw [Slots.Labelled.paths_lines, List.map_map]
    exact hl.nodup_paths hd
  found := h.find_iff hd hl
  names := (h.ask_list (if_pos rfl) hl).2
  blocks := fun _ _ he hdir => h.blocks hl he hdir

end Sound

/-! ### A file in a directory -/

/-- There is room for a directory on a small volume, and 38 sectors are free then. -/
theorem exists_directory : ∃ v d u inv p, Volume.format { device := .blank 64 128 } = .ok v d ∧
    Onward Request.Plain { drive := d, volume := v } u ∧ u.Sound inv ∧
    u.drive.disk.dataSize = 120 ∧ (inv.freeMap u.drive.disk.sectors).numFree = 38 ∧
    inv.slots = (List.replicate Layout.directorySlots none).set 0
      (some (.ofFile "d" .directory (Place.sector p),
        .directory p (List.replicate Layout.directorySlots none))) := by
  obtain ⟨v, d, inv₀, hformat, hu₀, hdata, hsectors, hslots, hcount, -⟩ := exists_formatted
  have hfree : (inv₀.freeMap d.disk.sectors).numFree = 50 := by
    have hnum := hu₀.consistent.numFree_add
    rw [hcount] at hnum
    exact Nat.add_right_cancel (hnum.trans (hsectors.trans (by decide : 64 = 50 + 14)))
  have houtcome : inv₀.makeOutcome (inv₀.freeMap d.disk.sectors).numFree d.disk.dataSize "/d"
      Layout.directorySize = .ok ([], 0) := by
    have hroute : Route.ofPath "/d" = .last "d" := by decide
    have hfind : inv₀.find "/d" = .error (.notFound "/d") := by
      unfold Inventory.find
      rw [hroute, hslots, Slots.follow, Slots.find?_replicate_none]
    unfold Inventory.makeOutcome
    rw [if_neg (by decide), hfind, if_neg (by decide), hfree, hdata, if_neg (by decide), hroute,
      hslots]
    rfl
  obtain ⟨u, p, inv, hcall, hu, hsame, hmade⟩ :=
    hu₀.call_makes (q := .makeDirectory "/d") rfl houtcome
  have hplain : (Request.makeDirectory "/d").Plain := by
    rintro path kind size ⟨⟩
    decide
  have hrun : Onward Request.Plain { drive := d, volume := v }
      (({ drive := d, volume := v } : Usage).call (.makeDirectory "/d")).2 :=
    .call _ .start trivial hplain
  rw [hcall] at hrun
  have hnum := hmade.numFree
  rw [hfree, hdata] at hnum
  refine ⟨v, d, u, inv, p, hformat, hrun, hu, hsame.dataSize.trans hdata,
    Nat.add_right_cancel (hnum.trans (by decide : 50 = 38 + 12)), ?_⟩
  rw [hmade.slots, hmade.entry, hslots]
  rfl

/-- There is room for a file in this directory, with a name that looks like a line. -/
theorem exists_nested : ∃ v d u inv, Volume.format { device := .blank 64 128 } = .ok v d ∧
    Onward Request.Plain { drive := d, volume := v } u ∧ u.Sound inv ∧
    Slots.preorder Entry.name inv.slots [] =
      [⟨[], "d", .directory⟩, ⟨["d"], "[D] x", .file⟩] := by
  obtain ⟨v, d, u₁, inv₁, p₁, hformat, hrun₁, hu₁, hdata, hfree, hslots⟩ := exists_directory
  have hname₁ : (Entry.ofFile "d" .directory p₁.sector).name = "d" :=
    NameField.text_ofName (by decide) (by decide)
  have hfind₁ : Slots.find? Entry.name inv₁.slots "d" = some (0,
      .ofFile "d" .directory p₁.sector,
      .directory p₁ (List.replicate Layout.directorySlots none)) := by
    rw [hslots]
    exact Slots.find?_set _ (by decide) hname₁ fun j _ hj => absurd hj (Nat.not_lt_zero j)
  have houtcome : inv₁.makeOutcome (inv₁.freeMap u₁.drive.disk.sectors).numFree
      u₁.drive.disk.dataSize "/d/[D] x" 5 = .ok ([0], 0) := by
    have hroute : Route.ofPath "/d/[D] x" = .step "d" (.last "[D] x") := by decide
    have hfind : inv₁.find "/d/[D] x" = .error (.notFound "/d/[D] x") := by
      unfold Inventory.find
      rw [hroute, Slots.follow, hfind₁]
      dsimp only
      rw [Slots.follow, Slots.find?_replicate_none]
    unfold Inventory.makeOutcome
    rw [if_neg (by decide), hfind, if_neg (by decide), hfree, hdata, if_neg (by decide), hroute,
      Slots.slotFor, hfind₁]
    rfl
  obtain ⟨u₂, p₂, inv₂, hcall, hu₂, -, hmade⟩ :=
    hu₁.call_makes (q := .create "/d/[D] x" 5) rfl houtcome
  have hplain : (Request.create "/d/[D] x" 5).Plain := by
    rintro path kind size ⟨⟩
    decide
  have hrun₂ := hrun₁.call (.create "/d/[D] x" 5) trivial hplain
  rw [hcall] at hrun₂
  refine ⟨v, d, u₂, inv₂, hformat, hrun₂, hu₂, ?_⟩
  have hname₂ : (Entry.ofFile "[D] x" .file p₂.sector).name = "[D] x" :=
    NameField.text_ofName (by decide) (by decide)
  rw [hmade.slots, hmade.entry, hslots]
  show [(⟨[], (Entry.ofFile "d" .directory p₁.sector).name, .directory⟩ : Item),
    ⟨[(Entry.ofFile "d" .directory p₁.sector).name],
      (Entry.ofFile "[D] x" .file p₂.sector).name, .file⟩] = _
  rw [hname₁, hname₂]

/-! ### All states -/

/-- **Listings and lookups agree** in every state of a run from a format in which nothing was made
with a NUL in its path.

* The listing of the whole tree has a line for each file and directory, in the order of a walk
  through the slots.
* The paths that are read off its lines are distinct. They are just those at which an entry is
  found, and the tags are those of the kinds of these entries.
* A directory is listed by the block below its line, further out, and by the names on the outermost
  lines of this block. -/
theorem reached_listing_agrees (hblank : blank.FaultFree)
    (hlimit : blank.device.sectors ≤ Link.limit) {v : Volume} {d : Drive}
    (hformat : Volume.format blank = .ok v d)
    (hrun : Onward Request.Plain { drive := d, volume := v } u) :
    ∃ inv lines, u.ask Volume.survey = .ok inv ∧ u.Listed inv lines := by
  obtain ⟨inv₀, hu₀, -, hslots, -⟩ := sound_of_format hblank hlimit hformat
  have hd₀ : Slots.Distinct Entry.name inv₀.slots := by
    rw [hslots]
    exact Slots.distinct_replicate_none _
  have hl₀ : Slots.Labelled inv₀.slots := by
    rw [hslots]
    exact .replicate_none _
  obtain ⟨inv, hu, hd, hl⟩ := hrun.labelled hu₀ hd₀ hl₀
  exact ⟨inv, _, ask_eq hu.fault_free hu.consistent.survey_yields, hu.listed hd hl⟩

/-- On a small volume, a file in a directory is listed behind it. -/
theorem reached_listing_agrees_nested : ∃ v d u inv,
    Volume.format { device := .blank 64 128 } = .ok v d ∧
    Onward Request.Plain { drive := d, volume := v } u ∧ u.ask Volume.survey = .ok inv ∧
    u.Listed inv ["[D] d", "    [F] [D] x"] := by
  obtain ⟨v, d, u, inv, hformat, hrun, hu, hitems⟩ := exists_nested
  obtain ⟨inv', lines, hinv, hlisted⟩ :=
    reached_listing_agrees (Drive.faultFree_blank 64 128) (by decide) hformat hrun
  obtain rfl : inv = inv' := Except.ok.inj
    ((ask_eq hu.fault_free hu.consistent.survey_yields).symm.trans hinv)
  obtain rfl : lines = ["[D] d", "    [F] [D] x"] := by
    rw [hlisted.preorder, hitems]
    decide
  exact ⟨v, d, u, inv, hformat, hrun, hinv, hlisted⟩

end Usage

end SectorChain
