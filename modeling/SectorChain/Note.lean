import SectorChain.Error
import SectorChain.Kind

/-!
# Notes

Operations leave notes of what they do. A note has a level; a reader chooses the least urgent
level that is still shown.
-/

namespace SectorChain

/-- How urgent a note is. -/
inductive Level where
  | warn
  | info
  | debug
  deriving DecidableEq, Repr

/-- The rank of a level: the more urgent, the smaller. -/
def Level.rank : Level → Nat
  | .warn => 0
  | .info => 1
  | .debug => 2

/-- One thing that an operation reports about its work. -/
inductive Note where
  /-- A block is about to be written. -/
  | blockWrite (sector : Nat) (next : Option Nat)
  | allocated (size blocks : Nat) (first : Option Nat)
  | released (chain : List Nat)
  | reading (count position length : Nat)
  | writing (count position length : Nat)
  | freeMapLoaded (bytes free : Nat)
  | entryAdded (kind : Kind) (path : String) (sector : Nat)
  | entryRemoved (path : String)
  | imageExtended (size : Nat) (path : String)
  | formatting (sectors sectorSize : Nat)
  | mounted (sectors : Nat)
  | created (kind : Kind) (path : String) (size : Nat) (sector : Nat)
  | removed (kind : Kind) (path : String)
  | opened (path : String) (id : Nat)
  | formattingImage (path : String)
  | mountingImage (path : String)
  | rollingBack (path : String) (cause : VolumeError)
  | refusedToRemove (path : String)
  | idNotOpen (id : Nat)
  | closeNotOpen (id : Nat)
  deriving DecidableEq, Repr

namespace Note

/-- How urgent the note is: refusals warn, finished operations inform. -/
def level : Note → Level
  | blockWrite .. | allocated .. | released .. | reading .. | writing .. | freeMapLoaded ..
  | entryAdded .. | entryRemoved .. | imageExtended .. => .debug
  | formatting .. | mounted .. | created .. | removed .. | opened .. | formattingImage ..
  | mountingImage .. => .info
  | rollingBack .. | refusedToRemove .. | idNotOpen .. | closeNotOpen .. => .warn

/-- A sector that may be missing, as notes write it. -/
def sectorText : Option Nat → String
  | none => "None"
  | some sector => s!"Some({sector})"

/-- Sectors in brackets, as notes write them. -/
def sectorsText (sectors : List Nat) : String :=
  "[" ++ ", ".intercalate (sectors.map toString) ++ "]"

/-- The wording of a note. -/
def message : Note → String
  | blockWrite sector next => s!"write block {sector} (next {sectorText next})"
  | allocated size blocks first =>
    s!"allocated {size} bytes in {blocks} blocks starting at {sectorText first}"
  | released chain => s!"released {chain.length} blocks: {sectorsText chain}"
  | reading count position length =>
    s!"reading {count} bytes at {position} from file of length {length}"
  | writing count position length =>
    s!"writing {count} bytes at {position} to file of length {length}"
  | freeMapLoaded bytes free => s!"loaded bitmap ({bytes} bytes), {free} sectors free"
  | entryAdded kind path sector => s!"added {kind.tag} {path} -> sector {sector}"
  | entryRemoved path => s!"removed entry {path}"
  | imageExtended size path => s!"allocating {size} bytes for {path}"
  | formatting sectors size => s!"formatting {sectors} sectors of {size} bytes"
  | mounted sectors => s!"mounted volume of {sectors} sectors"
  | created kind path size sector =>
    s!"created {kind.tag} {path} ({size} bytes, header at sector {sector})"
  | removed kind path => s!"removed {kind.tag} {path}"
  | opened path id => s!"opened {path} as file id {id}"
  | formattingImage path => s!"formatting {path}"
  | mountingImage path => s!"mounting {path}"
  | rollingBack path cause => s!"rolling back allocation for {path}: {cause.message}"
  | refusedToRemove path => s!"refusing to remove {path}: still open"
  | idNotOpen id => s!"file id {id} is not open"
  | closeNotOpen id => s!"closing file id {id} which is not open"

/-- Whether a reader at `verbosity` is shown the note: 0 shows warnings, 1 also what was done, and
2 or more everything. -/
def isShown (verbosity : Nat) (note : Note) : Bool := note.level.rank ≤ verbosity

end Note

end SectorChain
