import SectorChain.Error

/-!
# Paths

A path names a place in the tree of directories: a slash before each name. A name is one to nine
bytes of UTF-8 without a slash. `Route` is a path cut into its names; a path that is bad only
further on still gives the names before the bad one, so a search can go as far as they lead.

Results:
* `text_ofPath`: a route spells the path it was cut from.
* `isDamage_of_validate`: a path that is refused says nothing about the device.
-/

namespace SectorChain

/-- A path, name by name: what `path_head` and `path_rest` give of it, one after the other. -/
inductive Route where
  /-- What is left of the path does not start with a slash and a name. -/
  | invalid (rest : String)
  | last (name : String)
  | step (name : String) (rest : Route)
  deriving DecidableEq, Repr

namespace Path

/-- A name has at least one byte and at most `Layout.nameMax`. -/
def isName (s : String) : Bool := s != "" && s.utf8ByteSize ≤ Layout.nameMax

/-- The names as a path, a slash before each. -/
def ofNames (names : List (List Char)) : String :=
  String.ofList (names.flatMap fun name => '/' :: name)

end Path

namespace Route

/-- The route through what stands between the slashes. -/
def ofPieces : List (List Char) → Route
  | [] => .invalid ""
  | piece :: rest =>
    if Path.isName (String.ofList piece) then
      match rest with
      | [] => .last (String.ofList piece)
      | _ :: _ => .step (String.ofList piece) (ofPieces rest)
    else .invalid (Path.ofNames (piece :: rest))

/-- The route of a path. -/
def ofPath (path : String) : Route :=
  match path.toList with
  | '/' :: rest => ofPieces (rest.splitOn '/')
  | _ => .invalid path

/-- The characters of the path that a route spells. -/
def chars : Route → List Char
  | .invalid rest => rest.toList
  | .last name => '/' :: name.toList
  | .step name rest => '/' :: (name.toList ++ rest.chars)

/-- The path that a route spells. -/
def text (r : Route) : String := String.ofList r.chars

/-- The part of the route that is not a path, if any. -/
def fault? : Route → Option String
  | .invalid rest => some rest
  | .last _ => none
  | .step _ rest => rest.fault?

/-- The names of the route, each with the path that follows it. -/
def steps : Route → List (String × Option String)
  | .invalid _ => []
  | .last name => [(name, none)]
  | .step name rest => (name, some rest.text) :: rest.steps

theorem chars_ofPieces {pieces : List (List Char)} :
    (ofPieces pieces).chars = pieces.flatMap fun name => '/' :: name := by
  induction pieces with
  | nil => rfl
  | cons piece rest ih =>
    unfold ofPieces
    split
    · cases rest with
      | nil => simp [chars]
      | cons next rest =>
        simp only [chars, ih]
        simp
    · simp [chars, Path.ofNames]

theorem flatMap_splitOn (cs : List Char) :
    ((cs.splitOn '/').flatMap fun name => '/' :: name) = '/' :: cs := by
  induction cs with
  | nil => simp [List.splitOn]
  | cons c cs ih =>
    simp only [List.splitOn] at ih ⊢
    rw [List.splitOnP_cons_eq_if_modifyHead]
    split
    · rename_i h
      simp only [beq_iff_eq] at h
      simp [ih, h]
    · cases h : List.splitOnP (· == '/') cs with
      | nil => simp [h] at ih
      | cons piece pieces =>
        rw [h] at ih
        simp only [List.flatMap_cons, List.cons_append, List.cons.injEq, true_and] at ih
        simp [ih]

theorem text_ofPath (path : String) : (ofPath path).text = path := by
  unfold ofPath
  split
  · rename_i rest h
    rw [text, chars_ofPieces, flatMap_splitOn, ← h, String.ofList_toList]
  · simp [text, chars]

end Route

namespace Path

/-- `path_head`: the first name of a path. -/
def head (path : String) : Except VolumeError String :=
  match Route.ofPath path with
  | .invalid rest => .error (.invalidPath rest)
  | .last name => .ok name
  | .step name _ => .ok name

/-- `validate`: the root, or names throughout; the error carries the whole path. -/
def validate (path : String) : Except VolumeError Unit :=
  if path = "/" then .ok ()
  else match (Route.ofPath path).fault? with
    | none => .ok ()
    | some _ => .error (.invalidPath path)

theorem isDamage_of_validate {path : String} {e : VolumeError} (h : validate path = .error e) :
    e.isDamage = false := by
  unfold validate at h
  split at h
  · cases h
  · split at h <;> cases h
    rfl

/-- `join`: the path of `name` inside the directory `parent`. -/
def join (parent name : String) : String :=
  if parent.toList.getLast? = some '/' then parent ++ name else parent ++ "/" ++ name

/-! ## Relative paths -/

/-- One more piece on the names so far, the innermost first: nothing and a dot stay, two dots
leave the innermost name. -/
def enter (names : List (List Char)) : List Char → List (List Char)
  | [] => names
  | ['.'] => names
  | ['.', '.'] => names.drop 1
  | piece => piece :: names

/-- `resolve`: the path that `path` means in the directory `cwd`, from the root if it starts with a
slash, from `cwd` otherwise. -/
def resolve (cwd path : String) : String :=
  let whole :=
    if path.toList.head? = some '/' then path.toList else cwd.toList ++ '/' :: path.toList
  match ((whole.splitOn '/').foldl enter []).reverse with
  | [] => "/"
  | names => ofNames names

end Path

end SectorChain
