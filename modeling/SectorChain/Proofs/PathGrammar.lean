import SectorChain.Proofs.Listings
import Mathlib.Data.List.Induction

/-!
# The grammar of paths

A path is the root, or one or more segments with a slash before each: a segment has one to nine
bytes and no slash (`Path.IsPiece`). Here paths are also read as a machine reads them, by their
bytes: the first name is taken, the path is cut behind as many bytes as it and its slash have, and
what is left is the next path. Such a cut could fall inside a character.

* `Path.cut? n cs`: the characters behind the first `n` bytes, if no character lies across the cut.
* `Path.walk? path`: the walk from name to name, with what is left of the path behind each.
* `Path.validateByWalk? path`: the check of a whole path in one loop over its names.

Results:
* `Route.ofPath_cases`: a path begins with no name, is one name, or is a name and a path.
* `walk?_eq`: the walk never cuts a character, comes to an end, and is that along the route.
* `fault?_eq_none_iff`: what has a route without a fault.
* `fault?_append`: behind segments, a path is as good as what comes then.
* `grammar_of_paths`: what is accepted, as what, and what is accepted behind it.
-/

namespace SectorChain

namespace Path

/-! ## Cutting a path by its bytes -/

/-- The characters behind the first `n` bytes. There is no such cut if it falls inside a character
or if there are fewer bytes. -/
def cut? : (n : Nat) → List Char → Option (List Char)
  | 0, cs => some cs
  | _ + 1, [] => none
  | n + 1, c :: cs => if c.utf8Size ≤ n + 1 then cut? (n + 1 - c.utf8Size) cs else none

/-- Behind all bytes of some characters come the others. -/
theorem cut?_append (front rest : List Char) :
    cut? (String.ofList front).utf8ByteSize (front ++ rest) = some rest := by
  induction front with
  | nil => cases rest <;> rfl
  | cons c front ih =>
    rw [String.ofList_cons, String.utf8ByteSize_append, String.utf8ByteSize_singleton]
    obtain ⟨n, hn⟩ := Nat.exists_eq_add_one.mpr c.utf8Size_pos
    rw [hn, Nat.add_right_comm, List.cons_append, cut?, if_pos (by omega),
      show n + (String.ofList front).utf8ByteSize + 1 - c.utf8Size =
        (String.ofList front).utf8ByteSize by omega, ih]

theorem length_le_of_cut? {n : Nat} {cs rest : List Char} (h : cut? n cs = some rest) :
    rest.length ≤ cs.length := by
  induction n, cs using cut?.induct with
  | case1 cs =>
    cases cs <;> cases h <;> exact Nat.le_refl _
  | case2 n => cases h
  | case3 n c cs hle ih =>
    rw [cut?, if_pos hle] at h
    exact Nat.le_succ_of_le (ih h)
  | case4 n c cs hlt =>
    rw [cut?, if_neg hlt] at h
    cases h

/-- A cut leaves a shorter path. -/
theorem length_lt_of_cut? {n : Nat} {cs rest : List Char} (h : cut? (1 + n) cs = some rest) :
    rest.length < cs.length := by
  rw [Nat.add_comm] at h
  cases cs with
  | nil => cases h
  | cons c cs =>
    rw [cut?] at h
    split at h
    · exact Nat.lt_succ_of_le (length_le_of_cut? h)
    · cases h

/-! ## Walking along a path -/

/-- The walk along a path: each name with the path that follows it, and the error of the rest that
does not begin with a name, if there is one. Nothing comes of it if a character is cut. -/
def walk? (path : String) : Option (List (String × Option String) × Option VolumeError) :=
  match head path with
  | .error e => some ([], some e)
  | .ok name =>
    match _hcut : cut? (1 + name.utf8ByteSize) path.toList with
    | none => none
    | some [] => some ([(name, none)], none)
    | some (c :: cs) =>
      (walk? (String.ofList (c :: cs))).map fun (steps, fault) =>
        ((name, some (String.ofList (c :: cs))) :: steps, fault)
termination_by path.length
decreasing_by
  have hlt := length_lt_of_cut? _hcut
  rwa [String.length_ofList, ← String.length_toList]

/-- The check of a whole path by a walk along it; the error carries the whole path, not the rest. -/
def validateByWalk? (path : String) : Option (Except VolumeError Unit) :=
  if path = "/" then some (.ok ())
  else (walk? path).map fun (_, fault) =>
    if fault.isNone then .ok () else .error (.invalidPath path)

end Path

namespace Route

open SectorChain.Path

/-! ## Routes, name by name -/

variable {name rest path : String} {segs : List String}

theorem ofPath_slash (cs : List Char) :
    ofPath ("/" ++ String.ofList cs) = ofPieces (cs.splitOn '/') := by
  have hchars : ("/" ++ String.ofList cs).toList = '/' :: cs := by simp
  unfold ofPath
  rw [hchars]
  rfl

theorem splitOn_single {cs : List Char} (h : '/' ∉ cs) : cs.splitOn '/' = [cs] :=
  List.splitOnP_eq_singleton fun _ hc => beq_eq_false_iff_ne.mpr (ne_of_mem_of_not_mem hc h)

theorem splitOn_append (xs ys : List Char) :
    (xs ++ '/' :: ys).splitOn '/' = xs.splitOn '/' ++ ys.splitOn '/' :=
  List.splitOnP_append_cons xs ys (beq_self_eq_true '/')

theorem ofPieces_invalid {piece : List Char} (h : ¬isName (String.ofList piece) = true)
    (pieces : List (List Char)) :
    ofPieces (piece :: pieces) = .invalid (ofNames (piece :: pieces)) := by
  unfold ofPieces
  exact if_neg h

theorem ofPath_last (h : IsPiece name) : ofPath ("/" ++ name) = .last name := by
  obtain ⟨cs, rfl⟩ : ∃ cs, name = String.ofList cs := ⟨_, String.ofList_toList.symm⟩
  have hslash : '/' ∉ cs := by simpa using h.2
  rw [ofPath_slash, splitOn_single hslash, ofPieces, if_pos h.1]

theorem ofPath_step (h : IsPiece name) (hrest : rest.toList.head? = some '/') :
    ofPath ("/" ++ name ++ rest) = .step name (ofPath rest) := by
  obtain ⟨cs, rfl⟩ : ∃ cs, name = String.ofList cs := ⟨_, String.ofList_toList.symm⟩
  have hslash : '/' ∉ cs := by simpa using h.2
  obtain ⟨more, hmore⟩ := List.head?_eq_some_iff.mp hrest
  obtain rfl : rest = "/" ++ String.ofList more := by
    rw [← String.toList_inj, hmore]
    simp
  have hpath : "/" ++ String.ofList cs ++ ("/" ++ String.ofList more) =
      "/" ++ String.ofList (cs ++ '/' :: more) := by
    rw [← String.toList_inj]
    simp
  have hne : more.splitOn '/' ≠ [] := List.splitOnP_ne_nil _ _
  rw [hpath, ofPath_slash, splitOn_append, splitOn_single hslash, ofPath_slash,
    List.singleton_append, ofPieces_cons h.1 hne]

/-- **How a path begins**: with no name, with a name that is all of it, or with a name and a path
that follows it. -/
theorem ofPath_cases (path : String) : ofPath path = .invalid path ∨
    (∃ name, IsPiece name ∧ path = "/" ++ name) ∨
    ∃ name rest, IsPiece name ∧ rest.toList.head? = some '/' ∧ path = "/" ++ name ++ rest := by
  -- what is no name is all that is left of the path
  have hinvalid : ∀ r, ofPath path = .invalid r → ofPath path = .invalid path := fun r hr => by
    have htext := text_ofPath path
    rw [hr] at htext ⊢
    exact congrArg invalid ((String.ofList_toList).symm.trans htext)
  by_cases hhead : path.toList.head? = some '/'
  · obtain ⟨cs, hcs⟩ := List.head?_eq_some_iff.mp hhead
    obtain rfl : path = "/" ++ String.ofList cs := by
      rw [← String.toList_inj, hcs]
      simp
    by_cases hslash : '/' ∈ cs
    · obtain ⟨name, more, rfl, hname⟩ := List.eq_append_cons_of_mem hslash
      by_cases hpiece : isName (String.ofList name) = true
      · refine .inr (.inr
          ⟨String.ofList name, "/" ++ String.ofList more, ⟨hpiece, by simpa⟩, ?_, ?_⟩)
        · simp
        · rw [← String.toList_inj]
          simp
      · refine .inl (hinvalid (ofNames (name :: more.splitOn '/')) ?_)
        rw [ofPath_slash, splitOn_append, splitOn_single hname, List.singleton_append,
          ofPieces_invalid hpiece]
    · by_cases hpiece : isName (String.ofList cs) = true
      · exact .inr (.inl ⟨String.ofList cs, ⟨hpiece, by simpa⟩, rfl⟩)
      · refine .inl (hinvalid (ofNames [cs]) ?_)
        rw [ofPath_slash, splitOn_single hslash, ofPieces_invalid hpiece]
  · refine .inl ?_
    unfold ofPath
    split
    · rename_i cs hcs
      exact absurd (by rw [hcs]; rfl) hhead
    · rfl

/-- What holds of every path, by the names that it begins with. -/
theorem path_induction {motive : String → Prop}
    (invalid : ∀ path, ofPath path = .invalid path → motive path)
    (last : ∀ name, IsPiece name → motive ("/" ++ name))
    (step : ∀ name rest, IsPiece name → rest.toList.head? = some '/' → motive rest →
      motive ("/" ++ name ++ rest)) (path : String) : motive path := by
  induction hlen : path.length using Nat.strongRecOn generalizing path with
  | _ n ih =>
    subst hlen
    rcases ofPath_cases path with h | ⟨name, hname, rfl⟩ | ⟨name, rest, hname, hrest, rfl⟩
    · exact invalid path h
    · exact last name hname
    · refine step name rest hname hrest (ih rest.length ?_ rest rfl)
      rw [String.length_append, String.length_append]
      exact Nat.lt_add_of_pos_left (Nat.add_pos_left (by decide) _)

end Route

/-! ## The walk -/

namespace Path

open Route

variable {name rest path : String} {segs : List String}

/-- The cut behind a name and its slash falls behind the name. -/
theorem cut?_name (name rest : String) :
    cut? (1 + name.utf8ByteSize) ("/" ++ name ++ rest).toList = some rest.toList := by
  have hfront : 1 + name.utf8ByteSize = (String.ofList ("/" ++ name).toList).utf8ByteSize := by
    rw [String.ofList_toList, String.utf8ByteSize_append]
    rfl
  rw [String.toList_append, hfront]
  exact cut?_append _ _

theorem walk?_invalid (h : ofPath path = .invalid path) :
    walk? path = some ([], some (.invalidPath path)) := by
  have hhead : head path = .error (.invalidPath path) := by rw [head, h]
  rw [walk?, hhead]

theorem walk?_last (h : IsPiece name) : walk? ("/" ++ name) = some ([(name, none)], none) := by
  have hhead : head ("/" ++ name) = .ok name := by rw [head, ofPath_last h]
  have hcut : cut? (1 + name.utf8ByteSize) ("/" ++ name).toList = some [] := by
    have hcut := cut?_name name ""
    rwa [String.append_empty] at hcut
  rw [walk?, hhead]
  dsimp only
  split
  · rename_i hnone
    cases hcut.symm.trans hnone
  · rfl
  · rename_i hmore
    cases hcut.symm.trans hmore

theorem walk?_step (h : IsPiece name) (hrest : rest.toList.head? = some '/') :
    walk? ("/" ++ name ++ rest) =
      (walk? rest).map fun (steps, fault) => ((name, some rest) :: steps, fault) := by
  have hhead : head ("/" ++ name ++ rest) = .ok name := by rw [head, ofPath_step h hrest]
  obtain ⟨more, hmore⟩ := List.head?_eq_some_iff.mp hrest
  have hcut := (cut?_name name rest).trans (congrArg some hmore)
  rw [walk?, hhead]
  dsimp only
  split
  · rename_i hnone
    cases hcut.symm.trans hnone
  · rename_i hnil
    cases hcut.symm.trans hnil
  · rename_i c cs hcs
    obtain rfl : rest = String.ofList (c :: cs) := by
      rw [Option.some.inj (hcs.symm.trans (cut?_name name rest)), String.ofList_toList]
    rfl

/-- **The walk along a path** never cuts a character and comes to an end. It is the one along the
route of the path, whether that has a fault or not. -/
theorem walk?_eq (path : String) :
    walk? path = some ((ofPath path).steps, (ofPath path).fault?.map .invalidPath) := by
  induction path using path_induction with
  | invalid path h =>
    rw [walk?_invalid h, h]
    rfl
  | last name h =>
    rw [walk?_last h, ofPath_last h]
    rfl
  | step name rest h hrest ih =>
    rw [walk?_step h hrest, ih, ofPath_step h hrest, steps, text_ofPath]
    rfl

theorem validateByWalk?_eq (path : String) : validateByWalk? path = some (validate path) := by
  unfold validateByWalk? validate
  split
  · rfl
  · rw [walk?_eq]
    cases (ofPath path).fault? <;> rfl

/-! ## Segments -/

instance (s : String) : Decidable (IsPiece s) := inferInstanceAs (Decidable (_ ∧ _))

theorem ofNames_cons (s : String) (segs : List String) :
    ofNames ((s :: segs).map String.toList) = "/" ++ s ++ ofNames (segs.map String.toList) := by
  rw [← String.toList_inj]
  simp [ofNames]

theorem ofNames_append (segs : List String) (s : String) :
    ofNames ((segs ++ [s]).map String.toList) = ofNames (segs.map String.toList) ++ "/" ++ s := by
  rw [← String.toList_inj]
  simp [ofNames]

theorem head_ofNames (h : segs ≠ []) (rest : String) :
    (ofNames (segs.map String.toList) ++ rest).toList.head? = some '/' := by
  obtain ⟨s, segs, rfl⟩ := List.exists_cons_of_ne_nil h
  rw [ofNames_cons]
  simp

/-- A slash before each segment is one before them all and one between any two. -/
theorem ofNames_eq_intercalate (h : segs ≠ []) :
    ofNames (segs.map String.toList) = "/" ++ "/".intercalate segs := by
  induction segs with
  | nil => exact absurd rfl h
  | cons s rest ih =>
    cases rest with
    | nil =>
      rw [← String.toList_inj]
      simp [ofNames]
    | cons t rest =>
      rw [ofNames_cons, ih (List.cons_ne_nil _ _), String.intercalate_cons_cons]
      simp only [String.append_assoc]

/-- **Behind segments** a path is as good as what comes then. -/
theorem fault?_append (h : ∀ s ∈ segs, IsPiece s) (hrest : rest.toList.head? = some '/') :
    (ofPath (ofNames (segs.map String.toList) ++ rest)).fault? = (ofPath rest).fault? := by
  induction segs with
  | nil =>
    have hnone : ofNames (([] : List String).map String.toList) = "" := rfl
    rw [hnone, String.empty_append]
  | cons s segs ih =>
    obtain ⟨hs, hsegs⟩ := List.forall_mem_cons.mp h
    have hhead : (ofNames (segs.map String.toList) ++ rest).toList.head? = some '/' := by
      cases segs with
      | nil => simpa [ofNames] using hrest
      | cons t segs => exact head_ofNames (List.cons_ne_nil t segs) rest
    rw [ofNames_cons, String.append_assoc, ofPath_step hs hhead]
    exact ih hsegs

/-- Segments have a route without a fault, and they are the names on it. -/
theorem route_ofNames (hne : segs ≠ []) (h : ∀ s ∈ segs, IsPiece s) :
    (ofPath (ofNames (segs.map String.toList))).fault? = none ∧
      (ofPath (ofNames (segs.map String.toList))).steps.map Prod.fst = segs := by
  induction segs with
  | nil => exact absurd rfl hne
  | cons s segs ih =>
    obtain ⟨hs, hsegs⟩ := List.forall_mem_cons.mp h
    cases segs with
    | nil =>
      have hone : ofNames ([s].map String.toList) = "/" ++ s := by
        rw [← String.toList_inj]
        simp [ofNames]
      rw [hone, ofPath_last hs]
      exact ⟨rfl, rfl⟩
    | cons t segs =>
      have hhead := head_ofNames (List.cons_ne_nil t segs) ""
      rw [String.append_empty] at hhead
      obtain ⟨hfault, hsteps⟩ := ih (List.cons_ne_nil t segs) hsegs
      rw [ofNames_cons, ofPath_step hs hhead]
      exact ⟨hfault, congrArg (List.cons s) hsteps⟩

/-- **A route has no fault** just if its path is segments with a slash before each. -/
theorem fault?_eq_none_iff : (ofPath path).fault? = none ↔
    ∃ segs, segs ≠ [] ∧ (∀ s ∈ segs, IsPiece s) ∧ path = ofNames (segs.map String.toList) := by
  constructor
  · intro h
    induction path using path_induction with
    | invalid path hinvalid =>
      rw [hinvalid] at h
      cases h
    | last name hname =>
      refine ⟨[name], List.cons_ne_nil _ _, List.forall_mem_singleton.mpr hname, ?_⟩
      rw [← String.toList_inj]
      simp [ofNames]
    | step name rest hname hrest ih =>
      rw [ofPath_step hname hrest] at h
      obtain ⟨segs, -, hsegs, rfl⟩ := ih h
      exact ⟨name :: segs, List.cons_ne_nil _ _, List.forall_mem_cons.mpr ⟨hname, hsegs⟩,
        (ofNames_cons name segs).symm⟩
  · rintro ⟨segs, hne, hsegs, rfl⟩
    exact (route_ofNames hne hsegs).1

/-- **The grammar**: the root, or segments with a slash before each. -/
theorem validate_eq_ok_iff : validate path = .ok () ↔ path = "/" ∨
    ∃ segs, segs ≠ [] ∧ (∀ s ∈ segs, IsPiece s) ∧ path = ofNames (segs.map String.toList) := by
  rw [← fault?_eq_none_iff]
  unfold validate
  split
  · rename_i h
    exact ⟨fun _ => .inl h, fun _ => rfl⟩
  · rename_i hroot
    cases (ofPath path).fault? with
    | none => exact ⟨fun _ => .inr rfl, fun _ => rfl⟩
    | some r => simp [hroot]

/-! ## Joining -/

theorem join_root (name : String) : join "/" name = "/" ++ name := rfl

/-- Behind segments a name is joined with a slash. -/
theorem join_ofNames (hne : segs ≠ []) (h : ∀ s ∈ segs, IsPiece s) (name : String) :
    join (ofNames (segs.map String.toList)) name =
      ofNames (segs.map String.toList) ++ "/" ++ name := by
  obtain ⟨front, s, rfl⟩ : ∃ front s, segs = front ++ [s] :=
    ⟨_, _, (List.dropLast_append_getLast hne).symm⟩
  obtain ⟨hname, hslash⟩ := h s (List.mem_append_right _ List.mem_cons_self)
  have hs : s.toList ≠ [] := by
    rintro hnil
    rw [String.toList_eq_nil_iff.mp hnil] at hname
    cases hname
  unfold join
  rw [if_neg]
  rw [ofNames_append, String.toList_append, List.getLast?_append_of_ne_nil _ hs]
  intro hlast
  exact hslash (List.mem_of_getLast? hlast)

/-- **Joined one by one** from the root on, segments are their path. -/
theorem foldl_join (hne : segs ≠ []) (h : ∀ s ∈ segs, IsPiece s) :
    segs.foldl join "/" = ofNames (segs.map String.toList) := by
  induction segs using List.reverseRecOn with
  | nil => exact absurd rfl hne
  | append_singleton front s ih =>
    rw [List.foldl_append]
    have hfront : ∀ t ∈ front, IsPiece t := fun t ht => h t (List.mem_append_left _ ht)
    cases front with
    | nil =>
      show join "/" s = _
      rw [join_root, ← String.toList_inj]
      simp [ofNames]
    | cons t front =>
      rw [ih (List.cons_ne_nil t front) hfront, ofNames_append]
      exact join_ofNames (List.cons_ne_nil t front) hfront s

/-- **What may be joined** to a path that is accepted: segments with slashes between them. -/
theorem validate_join_iff {parent : String} (hparent : validate parent = .ok ())
    (hname : name ≠ "") : validate (join parent name) = .ok () ↔
      ∃ segs, segs ≠ [] ∧ (∀ s ∈ segs, IsPiece s) ∧ name = "/".intercalate segs := by
  have hslash : ("/" ++ name).toList.head? = some '/' := by simp
  -- before the name there are segments or nothing at all
  obtain ⟨front, hfront, hjoin⟩ : ∃ front : List String, (∀ s ∈ front, IsPiece s) ∧
      join parent name = ofNames (front.map String.toList) ++ ("/" ++ name) := by
    rcases validate_eq_ok_iff.mp hparent with rfl | ⟨front, hne, hfront, rfl⟩
    · exact ⟨[], by simp, (String.empty_append).symm⟩
    · exact ⟨front, hfront, by rw [join_ofNames hne hfront, String.append_assoc]⟩
  have hroot : join parent name ≠ "/" := by
    intro heq
    have hlen := congrArg String.length (hjoin.symm.trans heq)
    have hpos : name.length ≠ 0 := mt String.length_eq_zero_iff.mp hname
    rw [String.length_append, String.length_append] at hlen
    exact absurd hlen (by show _ + (1 + name.length) ≠ 1; omega)
  have hfault : validate (join parent name) = .ok () ↔ (ofPath ("/" ++ name)).fault? = none := by
    rw [validate_eq_ok_iff, ← fault?_eq_none_iff, or_iff_right hroot, hjoin,
      fault?_append hfront hslash]
  rw [hfault, fault?_eq_none_iff]
  refine exists_congr fun segs => and_congr_right fun hne => and_congr_right fun _ => ?_
  rw [ofNames_eq_intercalate hne]
  exact String.append_right_inj "/"

/-! ## The grammar and the walk -/

/-- **What a path is, and its names.** A path is accepted just if it is the root, or segments with a
slash before each, and otherwise the error carries all of it. The check in a loop over the bytes
comes to the same end and cuts no character, and the walk along any path is that along its route. On
segments it passes these in their order and meets no error; joined one by one from the root on, they
are the path again. What may be joined to an accepted path is segments with slashes between them. -/
theorem grammar_of_paths :
    (∀ path, (validate path = .ok () ↔ path = "/" ∨
          ∃ segs, segs ≠ [] ∧ (∀ s ∈ segs, IsPiece s) ∧ path = ofNames (segs.map String.toList)) ∧
        (validate path = .ok () ∨ validate path = .error (.invalidPath path)) ∧
        validateByWalk? path = some (validate path) ∧
        walk? path = some ((ofPath path).steps, (ofPath path).fault?.map .invalidPath)) ∧
      (∀ segs, segs ≠ [] → (∀ s ∈ segs, IsPiece s) →
        (∃ steps, walk? (ofNames (segs.map String.toList)) = some (steps, none) ∧
          steps.map Prod.fst = segs) ∧
        segs.foldl join "/" = ofNames (segs.map String.toList)) ∧
      ∀ parent name, validate parent = .ok () → name ≠ "" →
        (validate (join parent name) = .ok () ↔
          ∃ segs, segs ≠ [] ∧ (∀ s ∈ segs, IsPiece s) ∧ name = "/".intercalate segs) := by
  refine ⟨fun path => ⟨validate_eq_ok_iff, ?_, validateByWalk?_eq path, walk?_eq path⟩,
    fun segs hne hsegs => ⟨?_, foldl_join hne hsegs⟩,
    fun parent name hparent hname => validate_join_iff hparent hname⟩
  · unfold validate
    split
    · exact .inl rfl
    · split
      · exact .inl rfl
      · exact .inr rfl
  · obtain ⟨hfault, hsteps⟩ := route_ofNames hne hsegs
    refine ⟨_, ?_, hsteps⟩
    rw [walk?_eq, hfault]
    rfl

/-- Names of two and of nine bytes, and two more that are joined to them. -/
theorem grammar_of_paths_accented :
    (∃ steps, walk? "/é/abcdefghi" = some (steps, none) ∧
      steps.map Prod.fst = ["é", "abcdefghi"]) ∧
      ["é", "abcdefghi"].foldl join "/" = "/é/abcdefghi" ∧
      validate "/é/abcdefghi" = .ok () ∧ validate (join "/é/abcdefghi" "x/ß") = .ok () := by
  obtain ⟨hpaths, hwalks, hjoins⟩ := grammar_of_paths
  obtain ⟨hwalk, hjoin⟩ := hwalks ["é", "abcdefghi"] (by decide) (by decide)
  have hvalid : validate "/é/abcdefghi" = .ok () :=
    (hpaths _).1.mpr (.inr ⟨["é", "abcdefghi"], by decide, by decide, by decide⟩)
  exact ⟨hwalk, hjoin, hvalid,
    (hjoins _ _ hvalid (by decide)).mpr ⟨["x", "ß"], by decide, by decide, by decide⟩⟩

end Path

end SectorChain
