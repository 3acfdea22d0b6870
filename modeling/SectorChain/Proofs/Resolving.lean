import SectorChain.Proofs.PathGrammar

/-!
# Paths in normal form

To resolve a path is to go through its pieces with a stack of names: a piece of no characters and a
dot change nothing, two dots take the innermost name away, and any other piece is one more name. The
stack never has a name that is none of the above, so what it spells is in normal form, and going
through that again gives the same stack.

* `Path.IsProper cs`: a name that stays on the stack.
* `Path.stack cs`: the stack behind all pieces of a text, the innermost name first.
* `Path.Normal path segs`: the path is in normal form, and these are its segments.

Results:
* `stack_append`: the stack behind two texts with a slash between them.
* `stack_resolve`: what is resolved has the stack of what was to be resolved.
* `normal_resolve`, `resolve_resolve`, `resolve_append`: resolving is an action of paths on paths in
  normal form.
* `Normal.validate_iff`: such a path is accepted just if its names are short enough.
-/

namespace SectorChain

namespace Path

/-! ## The stack of names -/

/-- A name that is neither left out nor taken as a step back. -/
def IsProper (cs : List Char) : Prop := cs ≠ [] ∧ cs ≠ ['.'] ∧ cs ≠ ['.', '.'] ∧ '/' ∉ cs

/-- The names behind all pieces of a text, the innermost first. -/
def stack (cs : List Char) : List (List Char) := (cs.splitOn '/').foldl enter []

/-- The path of the names from the outermost on; of none at all it is the root. -/
def spell : List (List Char) → String
  | [] => "/"
  | names => ofNames names

/-- The text that a path stands for in the directory `cwd`. -/
def whole (cwd path : String) : List Char :=
  if path.toList.head? = some '/' then path.toList else cwd.toList ++ '/' :: path.toList

variable {names acc : List (List Char)} {piece : List Char} {path : String} {segs : List String}

theorem resolve_eq (cwd path : String) :
    resolve cwd path = spell (stack (whole cwd path)).reverse := rfl

theorem enter_of_proper (h : IsProper piece) (acc : List (List Char)) :
    enter acc piece = piece :: acc := by
  obtain ⟨hnil, hdot, hdots, -⟩ := h
  unfold enter
  split
  · exact absurd rfl hnil
  · exact absurd rfl hdot
  · exact absurd rfl hdots
  · rfl

/-- One piece more leaves only proper names on the stack. -/
theorem proper_enter (hacc : ∀ n ∈ acc, IsProper n) (hpiece : '/' ∉ piece) :
    ∀ n ∈ enter acc piece, IsProper n := by
  unfold enter
  split
  · exact hacc
  · exact hacc
  · exact fun n hn => hacc n (List.mem_of_mem_drop hn)
  · rename_i hnil hdot hdots
    exact List.forall_mem_cons.mpr ⟨⟨hnil, hdot, hdots, hpiece⟩, hacc⟩

theorem proper_foldl {pieces : List (List Char)} (hacc : ∀ n ∈ acc, IsProper n)
    (h : ∀ piece ∈ pieces, '/' ∉ piece) : ∀ n ∈ pieces.foldl enter acc, IsProper n := by
  induction pieces generalizing acc with
  | nil => exact hacc
  | cons piece rest ih =>
    obtain ⟨hpiece, hrest⟩ := List.forall_mem_cons.mp h
    exact ih (proper_enter hacc hpiece) hrest

theorem proper_stack (cs : List Char) : ∀ n ∈ stack cs, IsProper n :=
  proper_foldl (by simp) fun _ hpiece => Route.not_mem_of_mem_splitOn hpiece

/-- Proper names are all put on the stack. -/
theorem foldl_enter (h : ∀ n ∈ names, IsProper n) (acc : List (List Char)) :
    names.foldl enter acc = names.reverse ++ acc := by
  induction names generalizing acc with
  | nil => rfl
  | cons n names ih =>
    obtain ⟨hn, hnames⟩ := List.forall_mem_cons.mp h
    rw [List.foldl_cons, enter_of_proper hn, ih hnames, List.reverse_cons, List.append_assoc]
    rfl

/-- **Two texts with a slash between them**: the second one is gone through on the stack of the
first. -/
theorem stack_append (xs ys : List Char) :
    stack (xs ++ '/' :: ys) = (ys.splitOn '/').foldl enter (stack xs) := by
  unfold stack
  rw [Route.splitOn_append, List.foldl_append]

/-! ## What a stack spells -/

theorem map_toList_ofList (names : List (List Char)) :
    (names.map String.ofList).map String.toList = names := by
  rw [List.map_map]
  exact List.map_id'' (fun _ => String.toList_ofList) names

/-- Names spelled as a path, and as segments with slashes between them. -/
theorem ofNames_eq (hne : names ≠ []) :
    ofNames names = "/" ++ "/".intercalate (names.map String.ofList) := by
  rw [← ofNames_eq_intercalate (by simpa using hne), map_toList_ofList]

theorem chars_ofNames (hne : names ≠ []) :
    (ofNames names).toList = '/' :: ['/'].intercalate names := by
  rw [ofNames_eq hne, String.toList_append, String.toList_intercalate, map_toList_ofList]
  rfl

/-- The pieces of a path are its names, behind an empty one. -/
theorem splitOn_ofNames (h : ∀ n ∈ names, '/' ∉ n) :
    (ofNames names).toList.splitOn '/' = [] :: names := by
  by_cases hne : names = []
  · subst hne
    rfl
  · rw [chars_ofNames hne, ← List.nil_append ('/' :: _), Route.splitOn_append,
      List.splitOn_intercalate '/' h hne]
    rfl

/-- **The names of a path come back** when it is gone through again. -/
theorem stack_spell (h : ∀ n ∈ names, IsProper n) : stack (spell names).toList = names.reverse := by
  by_cases hne : names = []
  · subst hne
    rfl
  · have hspell : spell names = ofNames names := by
      unfold spell
      split
      · exact absurd rfl hne
      · rfl
    rw [hspell, stack, splitOn_ofNames fun n hn => (h n hn).2.2.2, List.foldl_cons, enter,
      foldl_enter h, List.append_nil]

/-- **Resolving keeps the stack**: the path spells all of it. -/
theorem stack_resolve (cwd path : String) :
    stack (resolve cwd path).toList = stack (whole cwd path) := by
  rw [resolve_eq, stack_spell fun n hn => proper_stack _ n (List.mem_reverse.mp hn),
    List.reverse_reverse]

theorem head_spell (names : List (List Char)) : (spell names).toList.head? = some '/' := by
  cases names with
  | nil => rfl
  | cons n names =>
    show (ofNames (n :: names)).toList.head? = _
    rw [chars_ofNames (List.cons_ne_nil n names)]
    rfl

/-! ## Resolving -/

/-- **A path in normal form stays as it is**, in whatever directory. -/
theorem resolve_resolve (other cwd path : String) :
    resolve other (resolve cwd path) = resolve cwd path := by
  have hwhole : whole other (resolve cwd path) = (resolve cwd path).toList :=
    if_pos (head_spell _)
  rw [resolve_eq other, hwhole, stack_resolve]
  rfl

/-- **A path of two parts** leads where the second part leads from where the first part leads. -/
theorem resolve_append (cwd : String) {a b : String} (ha : a ≠ "")
    (hb : b.toList.head? ≠ some '/') :
    resolve cwd (a ++ "/" ++ b) = resolve (resolve cwd a) b := by
  have hchars : (a ++ "/" ++ b).toList = a.toList ++ '/' :: b.toList := by simp
  have hhead : (a.toList ++ '/' :: b.toList).head? = a.toList.head? :=
    List.head?_append_of_ne_nil _ (mt String.toList_eq_nil_iff.mp ha)
  have hleft : whole cwd (a ++ "/" ++ b) = whole cwd a ++ '/' :: b.toList := by
    unfold whole
    rw [hchars, hhead]
    split <;> simp
  have hright : whole (resolve cwd a) b = (resolve cwd a).toList ++ '/' :: b.toList := if_neg hb
  rw [resolve_eq cwd, resolve_eq (resolve cwd a), hleft, hright, stack_append, stack_append,
    stack_resolve]

/-! ## Normal form -/

/-- **The path is in normal form**, with these segments: a slash, and the segments with single
slashes between them. None of them is empty, a dot or two dots. -/
structure Normal (path : String) (segs : List String) : Prop where
  proper : ∀ s ∈ segs, s ≠ "" ∧ s ≠ "." ∧ s ≠ ".." ∧ '/' ∉ s.toList
  spelled : path = "/" ++ "/".intercalate segs

theorem normal_spell (h : ∀ n ∈ names, IsProper n) :
    Normal (spell names) (names.map String.ofList) where
  proper s hs := by
    obtain ⟨n, hn, rfl⟩ := List.mem_map.mp hs
    obtain ⟨hnil, hdot, hdots, hslash⟩ := h n hn
    rw [String.toList_ofList]
    refine ⟨fun heq => hnil ?_, fun heq => hdot ?_, fun heq => hdots ?_, hslash⟩ <;>
      exact String.toList_ofList.symm.trans (congrArg String.toList heq)
  spelled := by
    cases names with
    | nil => rfl
    | cons n names =>
      exact ofNames_eq (List.cons_ne_nil n names)

theorem normal_resolve (cwd path : String) : ∃ segs, Normal (resolve cwd path) segs :=
  ⟨_, normal_spell fun n hn => proper_stack _ n (List.mem_reverse.mp hn)⟩

/-- **A path in normal form is accepted** just if its segments have nine bytes at most. -/
theorem Normal.validate_iff (h : Normal path segs) :
    validate path = .ok () ↔ ∀ s ∈ segs, s.utf8ByteSize ≤ 9 := by
  obtain ⟨hproper, rfl⟩ := h
  by_cases hne : segs = []
  · subst hne
    exact ⟨fun _ s hs => absurd hs List.not_mem_nil, fun _ => rfl⟩
  rw [← ofNames_eq_intercalate hne]
  have hpieces : ∀ n ∈ segs.map String.toList, '/' ∉ n := fun n hn => by
    obtain ⟨s, hs, rfl⟩ := List.mem_map.mp hn
    exact (hproper s hs).2.2.2
  have hsplit := splitOn_ofNames hpieces
  constructor
  · intro hvalid
    -- the path has no other segments than these
    rcases validate_eq_ok_iff.mp hvalid with hroot | ⟨segs', -, hsegs', heq⟩
    · rw [hroot] at hsplit
      obtain ⟨s, rfl⟩ : ∃ s, segs = [s] := by
        rw [← List.length_eq_one_iff, ← List.length_map String.toList]
        exact (congrArg List.length (List.cons.inj hsplit).2).symm
      have hs : s.toList = [] := (List.cons.inj (List.cons.inj hsplit).2).1.symm
      exact absurd (String.toList_eq_nil_iff.mp hs) (hproper s List.mem_cons_self).1
    · have hpieces' : ∀ n ∈ segs'.map String.toList, '/' ∉ n := fun n hn => by
        obtain ⟨s, hs, rfl⟩ := List.mem_map.mp hn
        exact (hsegs' s hs).2
      rw [heq, splitOn_ofNames hpieces'] at hsplit
      have hsame : segs' = segs :=
        List.map_injective_iff.mpr (fun _ _ => String.toList_inj.mp) (List.cons.inj hsplit).2
      intro s hs
      have hname := (hsegs' s (hsame ▸ hs)).1
      exact of_decide_eq_true (Bool.and_eq_true_iff.mp hname).2
  · intro hsize
    refine validate_eq_ok_iff.mpr (.inr ⟨segs, hne, fun s hs => ⟨?_, (hproper s hs).2.2.2⟩, rfl⟩)
    exact Bool.and_eq_true_iff.mpr ⟨bne_iff_ne.mpr (hproper s hs).1, decide_eq_true (hsize s hs)⟩

end Path

end SectorChain
