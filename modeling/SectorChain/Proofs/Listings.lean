import SectorChain.Proofs.UniqueNames

/-!
# Listings, read back

The listing of a whole tree has a line for each file and directory in it: four blanks for each
directory around it, then the tag of its kind, a blank and its name. The lines stand in the order
in which the tree is walked, slot by slot and each directory before what is in it.

A line does not say which directory it is in. That is read from its depth: what is `n` deep lies in
the last directory before it that is `n - 1` deep. Names may have blanks and brackets in them, and
may even look like lines, as they are only read behind the tag.

Results:
* `read_lines`: the names on the way to each file and directory are read back from the lines.
* `nested_preorder`: this is so for the lines of every tree.
* `nodup_preorder`: no names lead to two of them, if no directory has two trees of one name.
* `follow_split`, `follow_of_mem`: the names on the way are the route to it, and what is below a
  directory stands in one piece behind it.
* `block_lines`: this piece is the listing of the directory, further in.
* `ofPath_path`: a path of names is cut into these names again.
-/

namespace SectorChain

variable {α β ε : Type}

namespace Listing

/-! ## Lines -/

/-- A file or directory in a tree: the directories on the way to it, its name and its kind. -/
structure Item where
  parents : List String
  name : String
  kind : Kind
  deriving DecidableEq, Repr

namespace Item

/-- The names on the way to it, its own as the last. -/
def names (x : Item) : List String := x.parents ++ [x.name]

/-- The path that these names spell. -/
def path (x : Item) : String := Path.ofNames (x.names.map String.toList)

/-- Its line in the listing of the tree. -/
def line (x : Item) : String :=
  String.join (List.replicate x.parents.length "    ") ++ x.kind.tag ++ " " ++ x.name

/-- The item when its tree is in a directory with these names. -/
def inside (above : List String) (x : Item) : Item := { x with parents := above ++ x.parents }

end Item

/-- How deep a line is: one for each four blanks in front. -/
def depth (line : String) : Nat := (line.toList.takeWhile (· == ' ')).length / 4

/-- The tag on a line, behind the blanks in front. -/
def tag (line : String) : String := .ofList ((line.toList.dropWhile (· == ' ')).take 3)

/-- The name on a line, one blank behind the tag. -/
def name (line : String) : String := .ofList ((line.toList.dropWhile (· == ' ')).drop 4)

/-- The names on the way to each line, with its tag. `above` are those of the line before. -/
def read (above : List String) : List String → List (List String × String)
  | [] => []
  | line :: rest =>
    let names := above.take (depth line) ++ [name line]
    (names, tag line) :: read names rest

/-- The path of each line, with its tag. -/
def paths (lines : List String) : List (String × String) :=
  (read [] lines).map fun p => (Path.ofNames (p.1.map String.toList), p.2)

/-- The block below a line: the lines behind it that are deeper, as far out as they can go. -/
def block (own : String) (rest : List String) : List String :=
  (rest.takeWhile fun line => depth own < depth line).map fun line =>
    .ofList (line.toList.drop (4 * (depth own + 1)))

/-- The names on the lines that are not in a block. -/
def outermost (lines : List String) : List String :=
  (lines.filter fun line => depth line = 0).map name

theorem toList_line (x : Item) :
    x.line.toList = List.replicate (4 * x.parents.length) ' ' ++
      (x.kind.tag.toList ++ ' ' :: x.name.toList) := by
  have hblanks : ∀ n, (List.replicate n "    ").flatMap String.toList =
      List.replicate (4 * n) ' ' := by
    intro n
    induction n with
    | zero => rfl
    | succ n ih => rw [List.replicate_succ, List.flatMap_cons, ih]; rfl
  unfold Item.line
  rw [String.toList_append, String.toList_append, String.toList_append, String.toList_join,
    hblanks, List.append_assoc, List.append_assoc]
  rfl

/-- No tag starts with a blank, so the blanks in front of it can be counted. -/
theorem blanks_line (x : Item) :
    x.line.toList.takeWhile (· == ' ') = List.replicate (4 * x.parents.length) ' ' ∧
      x.line.toList.dropWhile (· == ' ') = x.kind.tag.toList ++ ' ' :: x.name.toList := by
  have hall : ∀ a ∈ List.replicate (4 * x.parents.length) ' ', (a == ' ') = true := by
    intro a ha
    rw [List.eq_of_mem_replicate ha]
    rfl
  rw [toList_line, List.takeWhile_append_of_pos hall, List.dropWhile_append_of_pos hall]
  cases x.kind with
  | file => exact ⟨List.append_nil _, rfl⟩
  | directory => exact ⟨List.append_nil _, rfl⟩

/-! ### What a line says -/

@[simp] theorem depth_line (x : Item) : depth x.line = x.parents.length := by
  unfold depth
  rw [(blanks_line x).1, List.length_replicate, Nat.mul_div_cancel_left _ (by decide)]

@[simp] theorem tag_line (x : Item) : tag x.line = x.kind.tag := by
  unfold tag
  rw [(blanks_line x).2]
  cases x.kind <;> rfl

@[simp] theorem name_line (x : Item) : name x.line = x.name := by
  unfold name
  rw [(blanks_line x).2]
  have hname : (x.kind.tag.toList ++ ' ' :: x.name.toList).drop 4 = x.name.toList := by
    cases x.kind <;> rfl
  rw [hname, String.ofList_toList]

/-- A line is moved out by as many blanks as the names that are taken from its front. -/
theorem drop_line (above : List String) (x : Item) :
    String.ofList ((x.inside above).line.toList.drop (4 * above.length)) = x.line := by
  have hlength : (x.inside above).parents.length = above.length + x.parents.length :=
    List.length_append
  rw [toList_line, hlength, Nat.mul_add, List.replicate_add, List.append_assoc,
    List.drop_left' List.length_replicate]
  show String.ofList (_ ++ (x.kind.tag.toList ++ ' ' :: x.name.toList)) = _
  rw [← toList_line, String.ofList_toList]

/-! ### What a listing says -/

/-- **Each item lies in a directory on the way** to the one before it. -/
def Nested : (above : List String) → List Item → Prop
  | _, [] => True
  | above, x :: rest => x.parents <+: above ∧ Nested x.names rest

/-- **The names are read back** from the lines of nested items. -/
theorem read_lines {above : List String} {items : List Item} (h : Nested above items) :
    read above (items.map Item.line) = items.map fun x => (x.names, x.kind.tag) := by
  induction items generalizing above with
  | nil => rfl
  | cons x rest ih =>
    obtain ⟨hx, hrest⟩ := h
    have hnames : above.take (depth x.line) ++ [name x.line] = x.names := by
      rw [depth_line, name_line, ← List.prefix_iff_eq_take.mp hx]
      rfl
    rw [List.map_cons, read, hnames, tag_line, ih hrest]
    rfl

/-- The second name looks like a line, and the last one is in no directory. -/
example : paths ["[D] d", "    [F] [D] x", "[F] y"] =
    [("/d", "[D]"), ("/d/[D] x", "[F]"), ("/y", "[F]")] := by decide

theorem Nested.mono {above above' : List String} {items : List Item} (h : Nested above items)
    (habove : above <+: above') : Nested above' items := by
  cases items with
  | nil => trivial
  | cons x rest => exact ⟨h.1.trans habove, h.2⟩

/-- Items in `parents` may follow one another. -/
theorem Nested.append {parents above : List String} {items items' : List Item}
    (h : Nested above items) (habove : parents <+: above)
    (hitems : ∀ x ∈ items, parents <+: x.parents) (h' : Nested parents items') :
    Nested above (items ++ items') := by
  induction items generalizing above with
  | nil => exact h'.mono habove
  | cons x rest ih =>
    obtain ⟨hx, hrest⟩ := List.forall_mem_cons.mp hitems
    exact ⟨h.1, ih h.2 (hx.trans (List.prefix_append _ _)) hrest⟩

end Listing

open Listing

/-! ## Items -/

/-- The items of a tree that has the name `own` in the directory `parents`: each directory before
what is in it, and that in the order of the slots. -/
def Tree.preorder (name : ε → String) : Tree α β ε → (parents : List String) → (own : String) →
    List Item :=
  fold (fun _ parents own => [⟨parents, own, .file⟩]) fun _ below parents own =>
    ⟨parents, own, .directory⟩ ::
      below.reduceOption.flatMap fun q => q.2 (parents ++ [own]) (name q.1)

/-- The items of the trees in the slots of a directory. -/
def Slots.preorder (name : ε → String) (slots : Slots α β ε) (parents : List String) : List Item :=
  (children slots).flatMap fun q => q.2.preorder name parents (name q.1)

/-- The slots of a directory. -/
def Tree.slots : Tree α β ε → Slots α β ε
  | .file _ => []
  | .directory _ slots => slots

theorem Tree.preorder_eq (name : ε → String) (t : Tree α β ε) (parents : List String)
    (own : String) : t.preorder name parents own =
      ⟨parents, own, t.kind⟩ :: Slots.preorder name t.slots (parents ++ [own]) := by
  cases t with
  | file a => rfl
  | directory b slots =>
    unfold preorder
    rw [fold, foldSlots_eq, List.reduceOption_map, List.flatMap_map]
    rfl

theorem Tree.slots_map {α' β' ε' : Type} (f : α → α') (g : β → β') (h : ε → ε')
    (t : Tree α β ε) : (t.map f g h).slots = Slots.map f g h t.slots := by
  cases t with
  | file a => rfl
  | directory b slots =>
    rw [map_directory]
    rfl

namespace Slots

variable {name : ε → String} {slots : Slots α β ε}

/-- **Induction over slots**: those of a directory come before those that it is in. -/
theorem induction {P : Slots α β ε → Prop}
    (h : ∀ slots, (∀ e t, some (e, t) ∈ slots → P t.slots) → P slots) (slots : Slots α β ε) :
    P slots := by
  have hnil : P [] := h [] fun _ _ ht => absurd ht List.not_mem_nil
  exact h slots (Tree.inductionSlots (P := fun t => P t.slots) (fun _ => hnil)
    (fun _ inner ih => h inner ih) slots)

theorem mem_preorder {parents : List String} {x : Item} :
    x ∈ preorder name slots parents ↔ ∃ e t, some (e, t) ∈ slots ∧
      (x = ⟨parents, name e, t.kind⟩ ∨ x ∈ preorder name t.slots (parents ++ [name e])) := by
  unfold preorder
  rw [List.mem_flatMap]
  constructor
  · rintro ⟨⟨e, t⟩, ht, hx⟩
    rw [Tree.preorder_eq, List.mem_cons] at hx
    exact ⟨e, t, mem_children.mp ht, hx⟩
  · rintro ⟨e, t, ht, hx⟩
    refine ⟨(e, t), mem_children.mpr ht, ?_⟩
    rw [Tree.preorder_eq, List.mem_cons]
    exact hx

theorem parents_of_mem {parents : List String} {x : Item} (h : x ∈ preorder name slots parents) :
    parents <+: x.parents := by
  induction slots using induction generalizing parents with
  | h slots ih =>
    obtain ⟨e, t, ht, rfl | hx⟩ := mem_preorder.mp h
    · exact List.prefix_rfl
    · exact (List.prefix_append _ _).trans (ih e t ht hx)

/-- The items of a directory are those of its slots, inside of it. -/
theorem preorder_append (slots : Slots α β ε) (above parents : List String) :
    preorder name slots (above ++ parents) =
      (preorder name slots parents).map (Item.inside above) := by
  induction slots using induction generalizing parents with
  | h slots ih =>
    unfold preorder
    rw [List.map_flatMap]
    refine List.flatMap_congr fun p hp => ?_
    rw [Tree.preorder_eq, Tree.preorder_eq, List.append_assoc,
      ih p.1 p.2 (mem_children.mp hp) (parents ++ [name p.1])]
    rfl

/-- **Items in the order of a walk are nested.** -/
theorem nested_preorder (slots : Slots α β ε) (parents : List String) :
    Nested parents (preorder name slots parents) := by
  induction slots using induction generalizing parents with
  | h slots ih =>
    unfold preorder
    have hchildren : ∀ p ∈ children slots, Nested (parents ++ [name p.1])
        (preorder name p.2.slots (parents ++ [name p.1])) := fun p hp =>
      ih p.1 p.2 (mem_children.mp hp) _
    generalize children slots = l at hchildren
    induction l with
    | nil => trivial
    | cons p rest ihrest =>
      obtain ⟨hp, hrest⟩ := List.forall_mem_cons.mp hchildren
      rw [List.flatMap_cons, Tree.preorder_eq]
      refine Nested.append ⟨List.prefix_rfl, hp⟩ List.prefix_rfl ?_ (ihrest hrest)
      intro x hx
      rcases List.mem_cons.mp hx with rfl | hx
      · exact List.prefix_rfl
      · exact (List.prefix_append _ _).trans (parents_of_mem hx)

/-! ## Names and items -/

theorem eq_of_name_eq (h : (Slots.names name slots).Nodup) {e e' : ε} {t t' : Tree α β ε}
    (ht : some (e, t) ∈ slots) (ht' : some (e', t') ∈ slots) (hname : name e' = name e) :
    e' = e ∧ t' = t :=
  Prod.mk.inj (List.inj_on_of_nodup_map h (mem_children.mpr ht') (mem_children.mpr ht) hname)

/-- If names are distinct, every tree is found by its name. -/
theorem find?_of_mem (h : (Slots.names name slots).Nodup) {e : ε} {t : Tree α β ε}
    (ht : some (e, t) ∈ slots) : ∃ i, find? name slots (name e) = some (i, e, t) := by
  cases hfind : find? name slots (name e) with
  | none => exact absurd rfl (find?_eq_none hfind ht)
  | some p =>
    obtain ⟨i, e', t'⟩ := p
    obtain ⟨hi, hname⟩ := find?_eq_some hfind
    obtain ⟨rfl, rfl⟩ := eq_of_name_eq h ht (List.mem_of_getElem? hi) hname
    exact ⟨i, rfl⟩

/-- **No names lead to two items**, if no directory has two trees of one name. -/
theorem nodup_preorder (h : Distinct name slots) (parents : List String) :
    ((preorder name slots parents).map Item.names).Nodup := by
  induction slots using induction generalizing parents with
  | h slots ih =>
    have hbelow : ∀ p ∈ children slots, Distinct name p.2.slots := by
      rintro ⟨e, t⟩ hp
      cases t with
      | file a => exact distinct_replicate_none 0
      | directory b inner => exact distinct_directory.mp (h.below e _ (mem_children.mp hp))
    have hnames : ∀ p : ε × Tree α β ε, ∀ l ∈ (p.2.preorder name parents (name p.1)).map Item.names,
        parents ++ [name p.1] <+: l := by
      intro p l hl
      rw [Tree.preorder_eq, List.map_cons, List.mem_cons] at hl
      rcases hl with rfl | hl
      · exact List.prefix_rfl
      · obtain ⟨x, hx, rfl⟩ := List.mem_map.mp hl
        exact (parents_of_mem hx).trans (List.prefix_append _ _)
    unfold preorder
    rw [List.map_flatMap, List.nodup_flatMap]
    refine ⟨fun p hp => ?_, (List.pairwise_map.mp h.names).imp fun {p q} hne l hp hq => hne ?_⟩
    · rw [Tree.preorder_eq, List.map_cons, List.nodup_cons]
      refine ⟨fun hmem => ?_, ih p.1 p.2 (mem_children.mp hp) (hbelow p hp) _⟩
      -- what is below a directory has more names on the way to it
      obtain ⟨x, hx, heq⟩ := List.mem_map.mp hmem
      have hlonger := (parents_of_mem hx).length_le
      have hsame := congrArg List.length heq
      simp only [Item.names, List.length_append, List.length_singleton] at hlonger hsame
      omega
    · have hpre := List.prefix_of_prefix_length_le (hnames p l hp) (hnames q l hq)
        (Nat.le_of_eq (by rw [List.length_append, List.length_append]; rfl))
      have hone := (List.prefix_append_right_inj _).mp hpre
      exact List.singleton_inj.mp (hone.eq_of_length rfl)

end Slots

/-! ## Paths -/

/-- A name that can stand in a path. -/
def Path.IsPiece (n : String) : Prop := isName n = true ∧ '/' ∉ n.toList

namespace Route

/-- The names before the last one. -/
def parents : Route → List String
  | .invalid _ => []
  | .last _ => []
  | .step n rest => n :: rest.parents

/-- The route to a name in the innermost of some directories. -/
def through (parents : List String) (n : String) : Route := parents.foldr .step (.last n)

/-- A route without a fault spells the path of its names. -/
theorem path_item {r : Route} (h : r.fault? = none) (kind : Kind) :
    Item.path ⟨r.parents, Slots.lastName r, kind⟩ = r.text := by
  refine congrArg String.ofList ?_
  show ((r.parents ++ [Slots.lastName r]).map String.toList).flatMap (fun n => '/' :: n) = r.chars
  induction r with
  | invalid rest => cases h
  | last n => exact congrArg (List.cons '/') (List.append_nil _)
  | step n rest ih => exact congrArg (fun l => '/' :: (n.toList ++ l)) (ih h)

theorem ofPieces_cons {piece : List Char} {rest : List (List Char)}
    (h : Path.isName (String.ofList piece) = true) (hrest : rest ≠ []) :
    ofPieces (piece :: rest) = .step (String.ofList piece) (ofPieces rest) := by
  cases rest with
  | nil => exact absurd rfl hrest
  | cons next rest =>
    conv_lhs => unfold ofPieces
    exact if_pos h

theorem ofPieces_names {parents : List String} {n : String}
    (h : ∀ m ∈ parents ++ [n], Path.isName m = true) :
    ofPieces ((parents ++ [n]).map String.toList) = through parents n := by
  induction parents with
  | nil =>
    have hn := h n List.mem_cons_self
    rw [← String.ofList_toList (s := n)] at hn
    show ofPieces [n.toList] = .last n
    unfold ofPieces
    rw [if_pos hn, String.ofList_toList]
  | cons m rest ih =>
    obtain ⟨hm, hrest⟩ := List.forall_mem_cons.mp h
    rw [← String.ofList_toList (s := m)] at hm
    have hne : (rest ++ [n]).map String.toList ≠ [] := by simp
    rw [List.cons_append, List.map_cons, ofPieces_cons hm hne, ih hrest, String.ofList_toList]
    rfl

/-- Pieces without slashes are read back from the path that they are in. -/
theorem ofPath_ofNames {pieces : List (List Char)} (hne : pieces ≠ [])
    (h : ∀ piece ∈ pieces, '/' ∉ piece) : ofPath (Path.ofNames pieces) = ofPieces pieces := by
  have hchars : ∀ {l : List (List Char)}, l ≠ [] →
      (l.flatMap fun piece => '/' :: piece) = '/' :: ['/'].intercalate l := by
    intro l hl
    induction l with
    | nil => exact absurd rfl hl
    | cons piece rest ih =>
      cases rest with
      | nil => simp
      | cons next rest =>
        rw [List.flatMap_cons, ih (List.cons_ne_nil _ _)]
        simp [List.intercalate]
  unfold ofPath Path.ofNames
  rw [String.toList_ofList, hchars hne]
  exact congrArg ofPieces (List.splitOn_intercalate '/' h hne)

/-- **The path of an item is its route**, when its names can stand in a path. -/
theorem ofPath_path {x : Item} (h : ∀ n ∈ x.names, Path.IsPiece n) :
    ofPath x.path = through x.parents x.name := by
  have hne : x.names.map String.toList ≠ [] := by simp [Item.names]
  unfold Item.path
  rw [ofPath_ofNames hne]
  · exact ofPieces_names fun n hn => (h n hn).1
  · intro piece hpiece
    obtain ⟨n, hn, rfl⟩ := List.mem_map.mp hpiece
    exact (h n hn).2

/-- So such items have different paths. -/
theorem path_inj {x y : Item} (hx : ∀ n ∈ x.names, Path.IsPiece n)
    (hy : ∀ n ∈ y.names, Path.IsPiece n) (h : x.path = y.path) : x.names = y.names := by
  have hroute := congrArg ofPath h
  rw [ofPath_path hx, ofPath_path hy] at hroute
  have hthrough : ∀ l n, (through l n).parents ++ [Slots.lastName (through l n)] = l ++ [n] := by
    intro l n
    induction l with
    | nil => rfl
    | cons m rest ih => exact congrArg (List.cons m) ih
  unfold Item.names
  rw [← hthrough x.parents, ← hthrough y.parents, hroute]

theorem not_mem_of_mem_splitOn {cs piece : List Char} (h : piece ∈ cs.splitOn '/') :
    '/' ∉ piece := by
  induction cs generalizing piece with
  | nil =>
    rw [List.splitOn_nil] at h
    rw [List.mem_singleton.mp h]
    exact List.not_mem_nil
  | cons a cs ih =>
    unfold List.splitOn at h ih
    rw [List.splitOnP_cons_eq_if_modifyHead] at h
    split at h
    · rcases List.mem_cons.mp h with rfl | h
      · exact List.not_mem_nil
      · exact ih h
    · rename_i ha
      cases hsplit : List.splitOnP (· == '/') cs with
      | nil =>
        rw [hsplit] at h
        cases h
      | cons first rest =>
        rw [hsplit] at h ih
        rcases List.mem_cons.mp h with rfl | h
        · rw [List.mem_cons, not_or]
          exact ⟨fun heq => ha (beq_iff_eq.mpr heq.symm), ih List.mem_cons_self⟩
        · exact ih (List.mem_cons_of_mem _ h)

theorem slash_lastName {pieces : List (List Char)} (hslash : ∀ piece ∈ pieces, '/' ∉ piece)
    (h : (ofPieces pieces).fault? = none) :
    '/' ∉ (Slots.lastName (ofPieces pieces)).toList := by
  induction pieces with
  | nil => cases h
  | cons piece rest ih =>
    obtain ⟨hpiece, hrest⟩ := List.forall_mem_cons.mp hslash
    unfold ofPieces at h ⊢
    split at h
    · rename_i hname
      rw [if_pos hname]
      cases rest with
      | nil =>
        show '/' ∉ (String.ofList piece).toList
        rwa [String.toList_ofList]
      | cons next rest => exact ih hrest h
    · cases h

/-- What a valid path ends with can stand in a path. -/
theorem isPiece_lastName {path : String} (h : (ofPath path).fault? = none) :
    Path.IsPiece (Slots.lastName (ofPath path)) := by
  refine ⟨(isName_lastName h).1, ?_⟩
  unfold ofPath at h ⊢
  split at h
  · exact slash_lastName (fun _ hpiece => not_mem_of_mem_splitOn hpiece) h
  · cases h

end Route

namespace Slots

variable {name : ε → String} {path : String} {slots : Slots α β ε} {e : ε} {t : Tree α β ε}

/-- The items of a directory are those before one of its trees, of this tree, and behind it. -/
theorem find?_split (parents : List String) {n : String} {i : Nat}
    (h : find? name slots n = some (i, e, t)) :
    ∃ front rest, preorder name slots parents = front ++ (t.preorder name parents n ++ rest) ∧
      ∀ x ∈ rest.head?, x.parents = parents := by
  obtain ⟨hi, rfl⟩ := find?_eq_some h
  obtain ⟨l, l', hl⟩ := List.append_of_mem (mem_children.mpr (List.mem_of_getElem? hi))
  refine ⟨l.flatMap fun q => q.2.preorder name parents (name q.1),
    l'.flatMap fun q => q.2.preorder name parents (name q.1), ?_, ?_⟩
  · unfold preorder
    rw [hl, List.flatMap_append, List.flatMap_cons]
  · intro x hx
    cases l' with
    | nil => cases hx
    | cons q l' =>
      rw [List.flatMap_cons, Tree.preorder_eq, List.cons_append, List.head?_cons] at hx
      cases hx
      rfl

/-- **An item is where its names lead to**: what is below it stands behind it, and what comes then
is not deeper. -/
theorem follow_split {r : Route} (h : follow name path r slots = .ok (e, t))
    (parents : List String) :
    ∃ front rest, preorder name slots parents =
        front ++ (t.preorder name (parents ++ r.parents) (lastName r) ++ rest) ∧
      ∀ x ∈ rest.head?, x.parents.length ≤ (parents ++ r.parents).length := by
  induction r generalizing slots parents with
  | invalid rest => cases h
  | last n =>
    unfold follow at h
    split at h
    · cases h
    · rename_i i p hfind
      cases h
      obtain ⟨front, rest, heq, hrest⟩ := find?_split parents hfind
      refine ⟨front, rest, ?_, fun x hx => ?_⟩
      · rw [heq, Route.parents, List.append_nil]
        rfl
      · refine Nat.le_of_eq ?_
        rw [hrest x hx, Route.parents, List.append_nil]
  | step n r ih =>
    unfold follow at h
    split at h
    · cases h
    · cases h
    · rename_i i e' b inner hfind
      obtain ⟨front, rest, heq, hrest⟩ := find?_split parents hfind
      obtain ⟨front', rest', heq', hrest'⟩ := ih h (parents ++ [n])
      rw [List.append_assoc] at heq' hrest'
      refine ⟨front ++ ⟨parents, n, .directory⟩ :: front', rest' ++ rest, ?_, fun x hx => ?_⟩
      · rw [heq, Tree.preorder_eq, Tree.slots, heq']
        simp only [List.append_assoc, List.cons_append, Route.parents, lastName, Tree.kind]
        rfl
      · cases rest' with
        | nil =>
          rw [hrest x hx, List.length_append]
          exact Nat.le_add_right _ _
        | cons y rest' => exact hrest' x hx

/-- A route that leads somewhere has no fault. -/
theorem fault?_of_follow {r : Route} (h : follow name path r slots = .ok (e, t)) :
    r.fault? = none := by
  obtain ⟨slots', hchange⟩ := change_erase_ok h
  exact fault?_of_change hchange

/-- What is found at the end of a route is one of the items. -/
theorem mem_of_follow {r : Route} (h : follow name path r slots = .ok (e, t)) :
    ⟨r.parents, lastName r, t.kind⟩ ∈ preorder name slots [] := by
  obtain ⟨front, rest, heq, -⟩ := follow_split h []
  rw [heq, Tree.preorder_eq]
  exact List.mem_append_right _ List.mem_cons_self

/-- **The names of an item lead to it**, if no directory has two trees of one name. -/
theorem follow_of_mem (h : Distinct name slots) {parents : List String} {x : Item}
    (hx : x ∈ preorder name slots parents) (path : String) :
    ∃ l e t, x.parents = parents ++ l ∧ t.kind = x.kind ∧
      follow name path (.through l x.name) slots = .ok (e, t) := by
  induction slots using induction generalizing parents with
  | h slots ih =>
    obtain ⟨e, t, ht, hitem⟩ := mem_preorder.mp hx
    obtain ⟨i, hfind⟩ := find?_of_mem h.names ht
    rcases hitem with rfl | hbelow
    · refine ⟨[], e, t, (List.append_nil _).symm, rfl, ?_⟩
      show follow name path (.last (name e)) slots = _
      unfold follow
      rw [hfind]
    · cases t with
      | file a => cases hbelow
      | directory b inner =>
        have hd : Distinct name inner := distinct_directory.mp (h.below e _ ht)
        obtain ⟨l, e', t', hl, hkind, hfollow⟩ := ih e _ ht hd hbelow
        refine ⟨name e :: l, e', t', ?_, hkind, ?_⟩
        · rw [hl, List.append_assoc]
          rfl
        · show follow name path (.step (name e) (.through l x.name)) slots = _
          unfold follow
          rw [hfind]
          exact hfollow

/-! ## Blocks -/

/-- The outermost lines are those of the trees in the slots. -/
theorem outermost_lines (slots : Slots α β ε) :
    outermost ((preorder name slots []).map Item.line) =
      (children slots).map fun p => name p.1 := by
  have hinner : ∀ (inner : Slots α β ε) (n : String),
      ((preorder name inner [n]).map Item.line).filter (fun line => depth line = 0) = [] := by
    intro inner n
    rw [List.filter_eq_nil_iff]
    intro line hline
    obtain ⟨x, hx, rfl⟩ := List.mem_map.mp hline
    have hlength := (parents_of_mem hx).length_le
    rw [List.length_singleton] at hlength
    simp only [depth_line, decide_eq_true_eq]
    omega
  unfold outermost preorder
  rw [List.map_flatMap, List.filter_flatMap, List.map_flatMap]
  generalize children slots = l
  induction l with
  | nil => rfl
  | cons p rest ih =>
    rw [List.flatMap_cons, ih, Tree.preorder_eq, List.nil_append, List.map_cons, List.filter_cons,
      hinner]
    simp

/-- **The block below a directory** is the listing of what is in it. -/
theorem block_lines (own : Item) (inner : Slots α β ε) {rest : List Item}
    (hrest : ∀ x ∈ rest.head?, x.parents.length ≤ own.parents.length) :
    block own.line ((preorder name inner own.names ++ rest).map Item.line) =
      (preorder name inner []).map Item.line := by
  have hlength : own.names.length = own.parents.length + 1 := List.length_append
  have hdeeper : ∀ line ∈ (preorder name inner own.names).map Item.line,
      decide (depth own.line < depth line) = true := by
    intro line hline
    obtain ⟨x, hx, rfl⟩ := List.mem_map.mp hline
    have hle := (parents_of_mem hx).length_le
    simp only [depth_line, decide_eq_true_eq]
    omega
  have hend : (rest.map Item.line).takeWhile (fun line => depth own.line < depth line) = [] := by
    cases rest with
    | nil => rfl
    | cons x rest =>
      have hx := hrest x rfl
      rw [List.map_cons]
      refine List.takeWhile_cons_of_neg ?_
      simp only [depth_line, decide_eq_true_eq]
      omega
  have hshift : preorder name inner own.names =
      (preorder name inner []).map (Item.inside own.names) := by
    rw [← preorder_append, List.append_nil]
  unfold block
  rw [List.map_append, List.takeWhile_append_of_pos hdeeper, hend, List.append_nil, hshift,
    List.map_map, List.map_map, depth_line, ← hlength]
  exact List.map_congr_left fun x _ => drop_line own.names x

end Slots

end SectorChain
