import SectorChain.Proofs.UserWrites

/-!
# One name, one entry

A name is looked for in a directory before an entry for it is made there. What is compared is the
name of the path with what is read from the entries; what is stored are the bytes of the name of the
path. These are the same for all names without a NUL. So a directory has no two entries of one
name, and what was made is found, as long as no path with a NUL in it is used to make anything.

A NUL is a character like any other to `Path.validate`. With it a file can be made that cannot be
found, and then another one of the same name.

Results:
* `change_insert_distinct`, `change_erase_distinct`: names stay distinct in all tables.
* `Onward.distinct`: so they are in every state of a run, when paths are plain.
* `reached_unique_names`: what was made is found just if there is no NUL in its path.
* `create_nul`, `names_with_nul`: a file whose name has a NUL is made and not found, and two of them
  come to share a name.
-/

namespace SectorChain

variable {α β ε α' β' ε' : Type}

namespace Slots

/-- The names in use. -/
def names (name : ε → String) (slots : Slots α β ε) : List String :=
  (children slots).map fun p => name p.1

end Slots

/-- **No directory of the tree has two trees of one name.** -/
inductive Tree.Distinct (name : ε → String) : Tree α β ε → Prop
  | file (a : α) : Distinct name (.file a)
  | directory (b : β) {slots : Slots α β ε} : (Slots.names name slots).Nodup →
      (∀ e t, some (e, t) ∈ slots → Distinct name t) → Distinct name (.directory b slots)

namespace Slots

/-- No two trees have one name, here and in the directories below. -/
structure Distinct (name : ε → String) (slots : Slots α β ε) : Prop where
  names : (names name slots).Nodup
  below : ∀ e t, some (e, t) ∈ slots → t.Distinct name

variable {name : ε → String} {path : String} {slots slots' s s' : Slots α β ε}

theorem distinct_directory {b : β} :
    (Tree.directory b slots).Distinct name ↔ Distinct name slots := by
  constructor
  · intro h
    cases h with
    | directory _ hnames hbelow => exact ⟨hnames, hbelow⟩
  · intro h
    exact .directory b h.names h.below

theorem mem_names {n : String} :
    n ∈ names name slots ↔ ∃ e t, some (e, t) ∈ slots ∧ name e = n := by
  unfold names
  rw [List.mem_map]
  constructor
  · rintro ⟨⟨e, t⟩, ht, rfl⟩
    exact ⟨e, t, mem_children.mp ht, rfl⟩
  · rintro ⟨e, t, ht, rfl⟩
    exact ⟨(e, t), mem_children.mpr ht, rfl⟩

theorem names_set_perm {i : Nat} (hi : i < slots.length) (e : ε) (t : Tree α β ε) :
    (names name (slots.set i (some (e, t)))).Perm (name e :: names name (slots.set i none)) :=
  (children_set_perm hi (e, t)).map _

theorem distinct_replicate_none (count : Nat) :
    Distinct name (List.replicate count none : Slots α β ε) := by
  constructor
  · unfold names children
    rw [List.reduceOption_replicate_none]
    exact List.nodup_nil
  · intro e t ht
    cases List.eq_of_mem_replicate ht

/-! ## One slot -/

namespace Distinct

/-- A new name in a slot. -/
theorem set (h : Distinct name (slots.set i none)) (hi : i < slots.length) {e : ε}
    {t : Tree α β ε} (hnew : name e ∉ Slots.names name (slots.set i none))
    (ht : t.Distinct name) : Distinct name (slots.set i (some (e, t))) := by
  constructor
  · rw [(names_set_perm hi e t).nodup_iff, List.nodup_cons]
    exact ⟨hnew, h.names⟩
  · intro e' t' ht'
    rcases mem_set ht' with ht' | ht'
    · exact h.below e' t' ht'
    · cases ht'
      exact ht

/-- A slot taken out of use, with the name that is gone then. -/
theorem unset (h : Distinct name slots) {i : Nat} {e : ε} {t : Tree α β ε}
    (hi : slots[i]? = some (some (e, t))) :
    Distinct name (slots.set i none) ∧ name e ∉ Slots.names name (slots.set i none) := by
  obtain ⟨hlt, hget⟩ := List.getElem?_eq_some_iff.mp hi
  have hperm : (Slots.names name (slots.set i (some (e, t)))).Perm
      (name e :: Slots.names name (slots.set i none)) := names_set_perm hlt e t
  rw [← hget, List.set_getElem_self] at hperm
  obtain ⟨hout, hnames⟩ := List.nodup_cons.mp (hperm.nodup_iff.mp h.names)
  refine ⟨⟨hnames, ?_⟩, hout⟩
  intro e' t' ht'
  exact h.below e' t' (mem_of_mem_set_none ht')

end Distinct

theorem children_two (n : Nat) (p q : ε × Tree α β ε) :
    children (((List.replicate (n + 2) none).set 0 (some p)).set 1 (some q)) = [p, q] := by
  show (some p :: some q :: List.replicate n none).reduceOption = [p, q]
  rw [List.reduceOption_cons_of_some, List.reduceOption_cons_of_some,
    List.reduceOption_replicate_none]

/-! ## Changes -/

/-- When names stay distinct in the table that is changed, they do so in the whole tree. -/
theorem Spliced.distinct (h : Spliced s s' slots slots') (hs : Distinct name s → Distinct name s')
    (hd : Distinct name slots) : Distinct name slots' := by
  induction h with
  | here => exact hs hd
  | @inside slots inner inner' i e b hi _ ih =>
    have hinner := distinct_directory.mp (hd.below e _ (List.mem_of_getElem? hi))
    obtain ⟨hrest, hout⟩ := hd.unset hi
    exact hrest.set (List.getElem?_eq_some_iff.mp hi).1 hout (distinct_directory.mpr (ih hinner))

/-- **An insertion** keeps names distinct, when the new label has the name that was looked for. -/
theorem change_insert_distinct {label : String → ε} {t : Tree α β ε} {r : Route}
    (h : change name path (insert name path label t) r slots = .ok slots')
    (hlabel : name (label (lastName r)) = lastName r) (ht : t.Distinct name)
    (hd : Distinct name slots) : Distinct name slots' := by
  obtain ⟨s, s', hs, hedit, -⟩ := change_spliced h
  obtain ⟨hnone, i, -, hfree, rfl⟩ := insert_eq_ok hedit
  refine hs.distinct ?_ hd
  intro hd
  obtain ⟨hlt, hget⟩ := List.getElem?_eq_some_iff.mp hfree
  have hsame : s.set i none = s := by rw [← hget, List.set_getElem_self]
  rw [← hsame] at hd
  refine hd.set hlt ?_ ht
  rw [hsame, hlabel]
  intro hmem
  obtain ⟨e, t', ht', hname⟩ := mem_names.mp hmem
  exact find?_eq_none hnone ht' hname

/-- **An erasure** keeps names distinct. -/
theorem change_erase_distinct {r : Route}
    (h : change name path (erase name path) r slots = .ok slots') (hd : Distinct name slots) :
    Distinct name slots' := by
  obtain ⟨s, s', hs, hedit, -⟩ := change_spliced h
  obtain ⟨i, e, t, hfind, rfl⟩ := erase_eq_ok hedit
  refine hs.distinct ?_ hd
  intro hd
  exact (hd.unset (find?_eq_some hfind).1).1

theorem names_map {f : α → α'} {g : β → β'} {h : ε → ε'} {name' : ε' → String}
    (hname : ∀ e, name' (h e) = name e) (slots : Slots α β ε) :
    names name' (map f g h slots) = names name slots := by
  unfold names children map
  rw [List.reduceOption_map, List.map_map]
  exact List.map_congr_left fun p _ => hname p.1

end Slots

/-- Names are distinct in a view of a tree that has the same names. -/
theorem Tree.Distinct.map {f : α → α'} {g : β → β'} {h : ε → ε'} {name : ε → String}
    {name' : ε' → String} (hname : ∀ e, name' (h e) = name e) {t : Tree α β ε}
    (ht : t.Distinct name) : (t.map f g h).Distinct name' := by
  induction ht with
  | file a => exact .file (f a)
  | @directory b slots hnames _ ih =>
    rw [map_directory]
    refine .directory _ ?_ ?_
    · rw [Slots.names_map hname]
      exact hnames
    · intro e t ht
      obtain ⟨e', t', ht', rfl, rfl⟩ := Slots.mem_map ht
      exact ih e' t' ht'

/-! ## Tables -/

theorem Node.distinct_blank (kind : Kind) (p : Place) (size : Nat) :
    (Node.blank kind p size).Distinct Entry.name := by
  cases kind with
  | file => exact .file _
  | directory => exact Slots.distinct_directory.mpr (Slots.distinct_replicate_none _)

/-- Then no table on the disk has two entries of one name. -/
theorem Disk.Holds.exists_distinct {k : Disk} {t : Node} (h : k.Holds t)
    (hd : t.Distinct Entry.name) {p : Place} (hp : .inr p ∈ t.nodes) :
    ∃ table, k.HasTable p table ∧ (table.entries.map Entry.name).Nodup := by
  have hbelow : ∀ p slots, (Tree.directory p slots : Node).Distinct Entry.name →
      ∀ e t, some (e, t) ∈ slots → t.Distinct Entry.name := by
    intro p slots hd
    exact (Slots.distinct_directory.mp hd).below
  obtain ⟨table, slots, htable, hshows, hd⟩ := h.table_induction hbelow hd hp
  refine ⟨table, htable, ?_⟩
  rw [hshows.entries, List.map_map]
  exact (Slots.distinct_directory.mp hd).names

/-! ## Calls -/

/-- There is no NUL in the path of what the call would make. -/
def Request.Plain (q : Request) : Prop :=
  ∀ path kind size, q.makes = some (path, kind, size) → '\x00' ∉ path.toList

/-- **Names stay distinct** when nothing is made with a NUL in its path. -/
theorem Effect.distinct {v v' : Volume} {inv inv' : Inventory} {q : Request}
    {r : Except VolumeError Answer} (h : Effect v inv q r v' inv') (hq : q.Plain)
    (hd : Slots.Distinct Entry.name inv.slots) : Slots.Distinct Entry.name inv'.slots := by
  cases h with
  | failed | looked | opened | closed | sought | read | mounted => exact hd
  | @made _ path kind size p slots content hmakes _ hslots =>
    have hfault := Slots.fault?_of_change hslots
    have hlabel := Route.name_ofFile_lastName hfault (hq _ _ _ hmakes)
    exact Slots.change_insert_distinct hslots (hlabel _ _) (Node.distinct_blank kind p size) hd
  | removed _ _ hslots => exact Slots.change_erase_distinct hslots hd
  | @written i f s bytes new _ _ _ _ =>
    have htree : inv.tree.Distinct Entry.name := Slots.distinct_directory.mpr hd
    have hname : ∀ e : Entry, (id e).name = e.name := fun _ => rfl
    have hmap : (inv.tree.replace (Volume.rewrite f.sector
        (Bytes.splice s.content f.position new))).Distinct Entry.name := htree.map hname
    rw [← Inventory.tree_replace] at hmap
    exact Slots.distinct_directory.mp hmap

namespace Usage

variable {blank : Drive} {u : Usage}

/-- **What was made at a path** between the states `u` and `u'`: its entry has the name, the kind
and the header of the new file or directory, which lies in the sectors that are newly in use. -/
structure Made (u u' : Usage) (path : String) (kind : Kind) (size : Nat) (e : Entry) (s : Nat)
    (chain : List Nat) : Prop where
  entry : u'.ask (u'.volume.findEntry path) = .ok e
  stat : u'.ask (u'.volume.stat path) = .ok ⟨s, kind, size, chain⟩
  fresh : ∀ i, i ∈ s :: chain ↔ u.uses i = false ∧ u'.uses i = true
  in_use : e.inUse = true
  name : e.name = Slots.lastName (.ofPath path)
  kind : e.kind = kind
  sector : e.sector? = some s

/-- **In every state of a run** names are distinct, when nothing was made with a NUL in its path. -/
theorem Onward.distinct {u₀ : Usage} {inv₀ : Inventory} (h : Onward Request.Plain u₀ u)
    (h₀ : u₀.Sound inv₀) (hd : Slots.Distinct Entry.name inv₀.slots) :
    ∃ inv, u.Sound inv ∧ Slots.Distinct Entry.name inv.slots := by
  induction h with
  | start => exact ⟨inv₀, h₀, hd⟩
  | call q _ hq hplain ih =>
    obtain ⟨inv, hu, hdistinct⟩ := ih
    obtain ⟨inv', heffect, hu', -⟩ := hu.call hq
    exact ⟨inv', hu', heffect.distinct hplain hdistinct⟩

/-- **What a call has made is found**, if there is no NUL in its path. -/
theorem Sound.find_made {inv : Inventory} (h : u.Sound inv) {q : Request} {path : String}
    {kind : Kind} {size : Nat} (hmakes : q.makes = some (path, kind, size))
    (hnul : '\x00' ∉ path.toList) {a : Answer} (ha : (u.call q).1 = .ok a) :
    ∃ e s chain, u.Made (u.call q).2 path kind size e s chain := by
  have hq : q.Permitted u := by
    cases q with
    | writeId => cases hmakes
    | _ => trivial
  obtain ⟨inv', heffect, hu', -⟩ := h.call hq
  rw [ha] at heffect
  obtain ⟨hroot, p, hfind, hlength, hsectors⟩ := heffect.find_made hmakes hnul
  have hv' := hu'.consistent
  obtain ⟨-, -, hsector, hname⟩ := hv'.found hfind
  rw [Node.place_blank] at hsector
  have hentry := hv'.findEntry_yields path
  have hstat := hv'.stat_yields path
  have hlocate : inv'.locate path = .ok (kind, p) := by
    unfold Inventory.locate
    rw [if_neg hroot, hfind, Except.map, Node.kind_blank, Node.place_blank]
  rw [hfind] at hentry
  rw [hlocate] at hstat
  refine ⟨_, p.sector, p.chain, ask_eq hu'.fault_free hentry, ?_, ?_, rfl, hname, rfl, hsector⟩
  · rw [ask_eq hu'.fault_free hstat, ← hlength]
    rfl
  · intro i
    have hnodup := List.nodup_append.mp (hsectors.nodup_iff.mp hv'.nodup)
    have hbefore : u.uses i = false ↔ i ∉ inv.sectors := by
      rw [← Sound.uses_iff h.fault_free h.consistent, Bool.not_eq_true]
    rw [hbefore, Sound.uses_iff hu'.fault_free hv', hsectors.mem_iff, List.mem_append]
    constructor
    · intro hi
      exact ⟨fun hmem => hnodup.2.2 i hmem i hi rfl, .inr hi⟩
    · rintro ⟨hout, hi | hi⟩
      · exact absurd hi hout
      · exact hi

/-- **One name, one entry.** In every state of a run a path without a NUL leads to what was just
made there, and one with a NUL leads nowhere. If nothing was made with a NUL in its path, no
directory has two entries of one name. -/
theorem reached_unique_names (hblank : blank.FaultFree) (hlimit : blank.device.sectors ≤ Link.limit)
    (h : Reached blank u) :
    (∀ q path kind size a, q.makes = some (path, kind, size) → '\x00' ∉ path.toList →
      (u.call q).1 = .ok a → ∃ e s chain, u.Made (u.call q).2 path kind size e s chain) ∧
      (∀ path, '\x00' ∈ path.toList → ∃ x, u.ask (u.volume.findEntry path) = .error x) ∧
      ∀ v d, Volume.format blank = .ok v d →
        Onward Request.Plain { drive := d, volume := v } u →
        ∃ inv, u.ask Volume.survey = .ok inv ∧ ∀ p, .inr p ∈ inv.tree.nodes →
          ∃ table : Directory, u.ask (Directory.fetchAt p.sector) = .ok table ∧
            (table.entries.map Entry.name).Nodup := by
  obtain ⟨inv, hu, -⟩ := h.sound hblank hlimit
  refine ⟨?_, ?_, ?_⟩
  · intro q path kind size a hmakes hnul ha
    exact hu.find_made hmakes hnul ha
  · intro path hnul
    rw [← Route.chars_ofPath] at hnul
    obtain ⟨x, hx⟩ := Slots.follow_nul hnul inv.slots
    have hfind : inv.find path = .error x := hx
    have hentry := hu.consistent.findEntry_yields path
    rw [hfind] at hentry
    exact ⟨x, ask_eq hu.fault_free hentry⟩
  · intro v d hformat hrun
    obtain ⟨inv₀, hu₀, -, hslots, -⟩ := sound_of_format hblank hlimit hformat
    have hd₀ : Slots.Distinct Entry.name inv₀.slots := by
      rw [hslots]
      exact Slots.distinct_replicate_none _
    obtain ⟨inv, hu, hd⟩ := hrun.distinct hu₀ hd₀
    refine ⟨inv, ask_eq hu.fault_free hu.consistent.survey_yields, ?_⟩
    intro p hp
    have htree : inv.tree.Distinct Entry.name := Slots.distinct_directory.mpr hd
    obtain ⟨table, htable, hnames⟩ := hu.consistent.held.exists_distinct htree hp
    have hfetch := htable.tabled.fetchAt_yields
    exact ⟨table, ask_eq hu.fault_free hfetch, hnames⟩

/-- A file on a small volume is found, and its name is the only one. -/
theorem reached_unique_names_created : ∃ u u' : Usage, ∃ e s chain inv,
    u.call (.create "/a" 5) = (.ok .done, u') ∧ u.Made u' "/a" .file 5 e s chain ∧
    u'.ask Volume.survey = .ok inv ∧ ∀ p, .inr p ∈ inv.tree.nodes →
      ∃ table : Directory, u'.ask (Directory.fetchAt p.sector) = .ok table ∧
        (table.entries.map Entry.name).Nodup := by
  have hblank := Drive.faultFree_blank 64 128
  obtain ⟨v, d, u', -, -, hformat, hcall, -⟩ := exists_created
  have hplain : (Request.create "/a" 5).Plain := by
    rintro path kind size ⟨⟩
    decide
  have hreached := Reached.call (.create "/a" 5) (.format hformat) trivial
  have hrun : Onward Request.Plain { drive := d, volume := v }
      (({ drive := d, volume := v } : Usage).call (.create "/a" 5)).2 :=
    .call _ .start trivial hplain
  obtain ⟨hmade, -, -⟩ := reached_unique_names hblank (by decide) (.format hformat)
  obtain ⟨-, -, hdistinct⟩ := reached_unique_names hblank (by decide) hreached
  obtain ⟨inv, hinv, hnames⟩ := hdistinct v d hformat hrun
  obtain ⟨e, s, chain, hfound⟩ := hmade (.create "/a" 5) "/a" .file 5 .done rfl (by decide)
    (congrArg Prod.fst hcall)
  rw [hcall] at hinv hnames hfound
  exact ⟨_, u', e, s, chain, inv, hcall, hfound, hinv, hnames⟩

/-! ## A NUL in a name -/

/-- **A file whose name has a NUL is made**, however often, as it is never found. -/
theorem Sound.create_nul {inv : Inventory} (h : u.Sound inv) {path n : String} {size i : Nat}
    (hroute : Route.ofPath path = .last n) (hn : '\x00' ∈ n.toList)
    (hslot : inv.slots.findIdx? Option.isNone = some i) (hsize : size < 0x80000000)
    (hroom : inv.sectors.length + (1 + Layout.blocksFor size u.drive.disk.dataSize) ≤
      u.drive.disk.sectors) :
    ∃ u' inv' p, u.call (.create path size) = (.ok .done, u') ∧
      u'.ask (u'.volume.findEntry path) = .error (.notFound path) ∧
      u'.Sound inv' ∧ u.drive.disk.SameSize u'.drive.disk ∧
      inv'.slots = inv.slots.set i
        (some (Entry.ofFile n .file (Place.sector p), Node.blank .file p size)) ∧
      inv'.sectors.length =
        inv.sectors.length + (1 + Layout.blocksFor size u.drive.disk.dataSize) := by
  obtain ⟨u', inv', p, hcall, -, -, hu', hsame, hslots, hcount⟩ :=
    h.create_in_root hroute (Slots.find?_nul hn _) hslot hsize hroom
  have hfind : inv'.find path = .error (.notFound path) := by
    unfold Inventory.find
    rw [hroute, Slots.follow, Slots.find?_nul hn]
  have hentry := hu'.consistent.findEntry_yields path
  rw [hfind] at hentry
  exact ⟨u', inv', p, hcall, ask_eq hu'.fault_free hentry, hu', hsame, hslots, hcount⟩

/-- **A NUL in a path** is let through, and cuts the name. The file that is made then is not found
under its path, and a second one that gets the same name is made beside it. -/
theorem names_with_nul : ∃ v d, Volume.format { device := .blank 64 128 } = .ok v d ∧
    let u₀ : Usage := { drive := d, volume := v }
    let u₁ := (u₀.call (.create "/a\x00b" 0)).2
    let u₂ := (u₁.call (.create "/a\x00c" 0)).2
    Path.validate "/a\x00b" = .ok () ∧ (u₀.call (.create "/a\x00b" 0)).1 = .ok .done ∧
      u₁.ask (u₁.volume.findEntry "/a\x00b") = .error (.notFound "/a\x00b") ∧
      (u₁.call (.create "/a\x00c" 0)).1 = .ok .done ∧
      ∃ table : Directory, u₂.ask u₂.volume.root = .ok table ∧
        table.entries.map Entry.name = ["a", "a"] := by
  obtain ⟨v, d, inv, hformat, hu, hdata, hsectors, hslots, hcount, -⟩ := exists_formatted
  refine ⟨v, d, hformat, ?_⟩
  dsimp only
  have hroute₁ : Route.ofPath "/a\x00b" = .last "a\x00b" := by decide
  have hroute₂ : Route.ofPath "/a\x00c" = .last "a\x00c" := by decide
  have hslot₁ : inv.slots.findIdx? Option.isNone = some 0 := by
    rw [hslots]
    rfl
  have hroom₁ : inv.sectors.length + (1 + Layout.blocksFor 0 d.disk.dataSize) ≤ d.disk.sectors := by
    rw [hcount, hdata, hsectors]
    decide
  obtain ⟨u₁, inv₁, p₁, hcall₁, hmissing, hu₁, hsame₁, hslots₁, hcount₁⟩ :=
    hu.create_nul hroute₁ (by decide) hslot₁ (by decide) hroom₁
  have hslot₂ : inv₁.slots.findIdx? Option.isNone = some 1 := by
    rw [hslots₁, hslots]
    rfl
  have hroom₂ : inv₁.sectors.length + (1 + Layout.blocksFor 0 u₁.drive.disk.dataSize) ≤
      u₁.drive.disk.sectors := by
    rw [hcount₁, hcount, hsame₁.dataSize, hsame₁.sectors, hdata, hsectors]
    decide
  obtain ⟨u₂, inv₂, p₂, hcall₂, -, hu₂, -, hslots₂, -⟩ :=
    hu₁.create_nul hroute₂ (by decide) hslot₂ (by decide) hroom₂
  obtain ⟨table, htable, hshows, -⟩ := hu₂.consistent.exists_table
  have hroot := hu₂.consistent.root_yields htable
  rw [hcall₁]
  dsimp only
  rw [hcall₂]
  refine ⟨by decide, rfl, hmissing, rfl, table, ask_eq hu₂.fault_free hroot, ?_⟩
  -- what is read of both names is the same
  have hname₁ : (Entry.ofFile "a\x00b" .file p₁.sector).name = "a" :=
    NameField.text_ofName_nul (n := "a") (by decide) (by decide) "b"
  have hname₂ : (Entry.ofFile "a\x00c" .file p₂.sector).name = "a" :=
    NameField.text_ofName_nul (n := "a") (by decide) (by decide) "c"
  have hsize : Layout.directorySlots = 62 + 2 := rfl
  rw [hshows.entries, hslots₂, hslots₁, hslots, hsize, Slots.children_two]
  show [Entry.name _, Entry.name _] = _
  rw [hname₁, hname₂]

end Usage

end SectorChain
