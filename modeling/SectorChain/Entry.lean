import SectorChain.Handle

/-!
# Directory entries

An entry is a record of nineteen bytes: whether it is in use, its kind, the name, and a link to
the header of the file it leads to. The name field has one byte more than a name may have; a zero
byte ends the name. An entry that is not in use keeps its other fields.

Results:
* `length_encode`: every entry takes `Layout.entrySize` bytes.
* `decode_eq_ok_iff`: an entry is read exactly from its own bytes, whatever follows them.
-/

namespace SectorChain

/-- The stored form of a name: always one byte more than the longest name. -/
@[ext] structure NameField where
  bytes : Bytes
  length_eq : bytes.length = Layout.nameMax + 1
  deriving DecidableEq

namespace NameField

/-- These bytes, cut or filled up with zeros. -/
def ofBytes (bytes : Bytes) : NameField := ⟨Bytes.fit (Layout.nameMax + 1) bytes, by simp⟩

/-- The field of a name. -/
def ofName (name : String) : NameField := ofBytes (Bytes.ofString name)

/-- The field without a name. -/
def blank : NameField := ofBytes []

/-- The name in the field: the bytes before the first zero, without a last byte that no name may
have; nothing if they are no text. -/
def text (n : NameField) : String :=
  (Bytes.toString? ((n.bytes.takeWhile (· != 0)).take Layout.nameMax)).getD ""

theorem ofBytes_bytes (n : NameField) : ofBytes n.bytes = n := by
  ext1
  exact Bytes.fit_of_length n.length_eq

end NameField

/-- `DirEntry`: one slot of a directory. -/
@[ext] structure Entry where
  inUse : Bool
  kind : Kind
  field : NameField
  link : Link
  deriving DecidableEq

namespace Entry

/-- A slot that was never used. -/
def blank : Entry := ⟨false, .file, .blank, ⟨0⟩⟩

/-- `fill`: the entry for a file with its header in `sector`. -/
def ofFile (name : String) (kind : Kind) (sector : Nat) : Entry :=
  ⟨true, kind, .ofName name, .ofSector sector⟩

/-- `name`: the name of the entry. -/
def name (e : Entry) : String := e.field.text

/-- `sector`: the sector of the header that the entry leads to. -/
def sector? (e : Entry) : Option Nat := e.link.target

/-- `matches`: whether the entry is in use for `name`. -/
def isFor (e : Entry) (name : String) : Bool := e.inUse && e.name == name

/-- `child_sector`: the sector of the header, or a contradiction reported for `path`. -/
def header (e : Entry) (path : String) : DriveM Nat :=
  match e.sector? with
  | some sector => return sector
  | none => Drive.corrupt (.noHeader path)

/-! ## Stored entries -/

/-- The bytes of an entry. -/
def encode (e : Entry) : Bytes :=
  Record.ofBool e.inUse ++ Bytes.ofWord e.kind.code ++ e.field.bytes ++ e.link.encode

/-- The kind at the front of a string, and what follows it. -/
def takeKind (bytes : Bytes) : Except RecordError (Kind × Bytes) := do
  let (code, rest) ← Record.takeWord bytes
  match Kind.ofCode? code with
  | some kind => .ok (kind, rest)
  | none => .error (.badKind code.toNat)

/-- The entry at the front of a string. -/
def decode (bytes : Bytes) : Except RecordError Entry := do
  let (inUse, rest) ← Record.takeBool bytes
  let (kind, rest) ← takeKind rest
  let (field, rest) ← Record.takeBytes (Layout.nameMax + 1) rest
  let (link, _) ← Link.take rest
  return ⟨inUse, kind, .ofBytes field, link⟩

@[simp] theorem length_encode (e : Entry) : e.encode.length = Layout.entrySize := by
  simp [encode, Record.ofBool, e.field.length_eq, Layout.nameMax, Layout.entrySize]

theorem takeKind_code (kind : Kind) (rest : Bytes) :
    takeKind (Bytes.ofWord kind.code ++ rest) = .ok (kind, rest) := by
  cases kind <;> rfl

theorem decode_encode (e : Entry) (rest : Bytes) : decode (e.encode ++ rest) = .ok e := by
  have hname := Record.takeBytes_append e.field.bytes (e.link.encode ++ rest)
  rw [e.field.length_eq] at hname
  simp only [decode, encode, List.append_assoc, Record.takeBool_ofBool, takeKind_code, hname,
    Link.take_encode, NameField.ofBytes_bytes, bind, Except.bind, pure, Except.pure]

theorem takeKind_eq_ok_iff {bytes rest : Bytes} {kind : Kind} :
    takeKind bytes = .ok (kind, rest) ↔ bytes = Bytes.ofWord kind.code ++ rest := by
  constructor
  · intro h
    unfold takeKind at h
    cases hw : Record.takeWord bytes with
    | error e => simp [hw, bind, Except.bind] at h
    | ok found =>
      obtain ⟨code, rest'⟩ := found
      simp only [hw, bind, Except.bind] at h
      split at h
      · rename_i hk
        obtain ⟨rfl, rfl⟩ := Prod.mk.inj (Except.ok.inj h)
        rw [Record.takeWord_eq_ok_iff.mp hw, Kind.ofCode?_eq_some_iff.mp hk]
      · cases h
  · rintro rfl
    exact takeKind_code kind rest

theorem decode_eq_ok_iff {bytes : Bytes} {e : Entry} :
    decode bytes = .ok e ↔ ∃ rest, bytes = e.encode ++ rest := by
  constructor
  · intro h
    unfold decode at h
    cases hb : Record.takeBool bytes with
    | error x => simp [hb, bind, Except.bind] at h
    | ok p1 =>
      obtain ⟨inUse, r1⟩ := p1
      cases hk : takeKind r1 with
      | error x => simp [hb, hk, bind, Except.bind] at h
      | ok p2 =>
        obtain ⟨kind, r2⟩ := p2
        cases hn : Record.takeBytes (Layout.nameMax + 1) r2 with
        | error x => simp [hb, hk, hn, bind, Except.bind] at h
        | ok p3 =>
          obtain ⟨field, r3⟩ := p3
          cases hl : Link.take r3 with
          | error x => simp [hb, hk, hn, hl, bind, Except.bind] at h
          | ok p4 =>
            obtain ⟨link, r4⟩ := p4
            simp only [hb, hk, hn, hl, bind, Except.bind, pure, Except.pure,
              Except.ok.injEq] at h
            subst h
            obtain ⟨hlen, rfl⟩ := Record.takeBytes_eq_ok_iff.mp hn
            refine ⟨r4, ?_⟩
            rw [Record.takeBool_eq_ok_iff.mp hb, takeKind_eq_ok_iff.mp hk,
              Link.take_eq_ok_iff.mp hl]
            simp only [encode, NameField.ofBytes, Bytes.fit_of_length hlen, List.append_assoc]
  · rintro ⟨rest, rfl⟩
    exact decode_encode e rest

end Entry

end SectorChain
