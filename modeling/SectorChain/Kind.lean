/-!
# The two kinds of file

A directory is a file whose content is a table of entries; it has a kind of its own so that it is
not read as plain data.
-/

namespace SectorChain

/-- `DirEntryType`: what an entry of a directory leads to. -/
inductive Kind where
  | file
  | directory
  deriving DecidableEq, Repr

namespace Kind

/-- `tag`: the mark of the kind in listings. -/
def tag : Kind → String
  | .file => "[F]"
  | .directory => "[D]"

/-- The number that stands for the kind in a stored entry. -/
def code : Kind → UInt32
  | .file => 0
  | .directory => 1

/-- The kind that a stored number stands for. -/
def ofCode? (n : UInt32) : Option Kind :=
  if n = 0 then some .file else if n = 1 then some .directory else none

theorem ofCode?_eq_some_iff {n : UInt32} {k : Kind} : ofCode? n = some k ↔ n = k.code := by
  unfold ofCode?
  constructor
  · intro h
    split at h
    · cases h; assumption
    · split at h
      · cases h; assumption
      · cases h
  · rintro rfl
    cases k <;> rfl

end Kind

end SectorChain
